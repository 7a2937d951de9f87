import FormulaCode.Proofs.NumberOperators
import Mathlib.Algebra.Order.Field.Power
import Mathlib.Data.Sign.Basic
import Mathlib.Tactic.FieldSimp
import Mathlib.Tactic.LinearCombination

/-! # Rounded quotients

Long division keeps account of the dividend: at every place the digits times the divisor and the
remainder make up the dividend. It stops when nothing remains or when it has a hundred digits, so
the last digit is rounded only then. A quotient with no more than a hundred digits leaves nothing
to round. Signs and scales are put on afterwards and change neither fact. -/

namespace FormulaCode

namespace Decimal

/-! ## Long division -/

theorem powTen_succ (n : ℕ) : powTen (n + 1) = 10 * powTen n := Nat.mul_comm (powTen n) 10

theorem powTen_add (m n : ℕ) : powTen (m + n) = powTen m * powTen n := Nat.pow_add 10 m n

theorem powTen_le_powTen {m n : ℕ} (h : m ≤ n) : powTen m ≤ powTen n :=
  Nat.pow_le_pow_right (by decide) h

/-- A number is not below the power of ten of its first digit. -/
theorem powTen_length_sub_one_le {n : ℕ} (hn : 0 < n) :
    powTen ((Text.digits n).length - 1) ≤ n := by
  by_contra hlt
  have hpos : 0 < (Text.digits n).length - 1 := by
    by_contra hzero
    rw [Nat.eq_zero_of_not_pos hzero] at hlt
    exact hlt hn
  have hle : (Text.digits n).length ≤ (Text.digits n).length - 1 :=
    (Nat.length_toDigits_le_iff (by decide) hpos).2 (not_le.1 hlt)
  omega

/-- The zeros of a dividend bring it up to the divisor. -/
theorem le_mul_powTen_leadingZeros {num den : ℕ} (hnum : 0 < num) :
    den ≤ num * powTen (leadingZeros num den) := by
  fun_induction leadingZeros num den with
  | case1 num h ih =>
      have hle := ih (by omega)
      rw [powTen_succ]
      linarith
  | case2 num h =>
      change den ≤ num * 1
      omega

/-- The digits of a quotient and its remainder make up the dividend at the places so far. -/
structure Quotient.Divides (num den : ℕ) (q : Quotient) : Prop where
  eq : q.digits * den + q.remainder = num * powTen q.places
  lt : q.remainder < den

/-- The next place keeps account of the dividend. -/
theorem Quotient.Divides.next {num den : ℕ} {q : Quotient} (h : q.Divides num den) :
    Divides num den
      ⟨10 * q.digits + 10 * q.remainder / den, 10 * q.remainder % den, q.places + 1⟩ where
  eq := by
    have hmod := Nat.div_add_mod (10 * q.remainder) den
    have heq := h.eq
    rw [powTen_succ]
    linarith
  lt := Nat.mod_lt _ (Nat.zero_lt_of_lt h.lt)

theorem divides_extend {num den : ℕ} {q : Quotient} (h : q.Divides num den) (room : ℕ) :
    (extend den room q).Divides num den := by
  induction room generalizing q with
  | zero => exact h
  | succ room ih =>
      rw [extend]
      split
      · exact h
      · exact ih h.next

/-- Each place that is appended makes the digits ten times as large. -/
theorem digits_extend (den : ℕ) (q : Quotient) (room : ℕ) :
    (extend den room q).remainder = 0 ∨ q.digits * powTen room ≤ (extend den room q).digits := by
  induction room generalizing q with
  | zero => exact Or.inr (Nat.le_of_eq (Nat.mul_one _))
  | succ room ih =>
      rw [extend]
      split
      · next hzero => exact Or.inl hzero
      · refine (ih _).imp id fun hle => le_trans ?_ hle
        calc
          q.digits * powTen (room + 1) = 10 * q.digits * powTen room := by
            rw [powTen_succ]
            ring
          _ ≤ (10 * q.digits + 10 * q.remainder / den) * powTen room :=
            Nat.mul_le_mul_right _ (Nat.le_add_right _ _)

theorem digits_le_extend (den : ℕ) (q : Quotient) (room : ℕ) :
    q.digits ≤ (extend den room q).digits := by
  induction room generalizing q with
  | zero => exact le_rfl
  | succ room ih =>
      rw [extend]
      split
      · exact le_rfl
      · calc
          q.digits ≤ 10 * q.digits := Nat.le_mul_of_pos_left _ (by decide)
          _ ≤ 10 * q.digits + 10 * q.remainder / den := Nat.le_add_right _ _
          _ ≤ (extend den room ⟨_, _, _⟩).digits :=
            ih ⟨_, 10 * q.remainder % den, q.places + 1⟩

/-- The division of two magnitudes ends without a remainder or with all its digits. -/
theorem exists_quotient {num den : ℕ} (hnum : 0 < num) (hden : 0 < den) :
    ∃ q : Quotient, divideMagnitudes num den = (q.rounded den, q.places) ∧ q.Divides num den ∧
      0 < q.digits ∧ (q.remainder = 0 ∨ powTen (quotientDigits - 1) ≤ q.digits) := by
  let zeros := leadingZeros num den
  let whole : Quotient := ⟨num * powTen zeros / den, num * powTen zeros % den, zeros⟩
  let room := quotientDigits - (Text.digits whole.digits).length
  have hwhole : whole.Divides num den :=
    ⟨by rw [Nat.mul_comm]; exact Nat.div_add_mod _ _, Nat.mod_lt _ hden⟩
  have hpos : 0 < whole.digits := Nat.div_pos (le_mul_powTen_leadingZeros hnum) hden
  refine ⟨extend den room whole, rfl, divides_extend hwhole room,
    hpos.trans_le (digits_le_extend den whole room), ?_⟩
  refine (digits_extend den whole room).imp id fun hle => le_trans ?_ hle
  calc
    powTen (quotientDigits - 1) ≤ powTen ((Text.digits whole.digits).length - 1 + room) :=
      powTen_le_powTen (by omega)
    _ = powTen ((Text.digits whole.digits).length - 1) * powTen room := powTen_add _ _
    _ ≤ whole.digits * powTen room := Nat.mul_le_mul_right _ (powTen_length_sub_one_le hpos)

end Decimal

/-! ## Rounding to a number of digits -/

/-- A number that can be written with at most `n` significant digits. -/
def FitsDigits (n : ℕ) (x : ℚ) : Prop := ∃ m e : ℤ, |m| < 10 ^ n ∧ x = m * 10 ^ e

/-- The number `z` is `x` rounded to `n` significant digits. -/
structure RoundsTo (n : ℕ) (x z : ℚ) : Prop where
  near : |z - x| ≤ 1 / 2 * 10 ^ (1 - n : ℤ) * |x|
  sign : SignType.sign z = SignType.sign x
  eq_of_fits : FitsDigits n x → z = x

/-- With at most `n` digits a number that needs `n` digits before its point is whole. -/
theorem FitsDigits.exists_eq_intCast {n : ℕ} {x : ℚ} (h : FitsDigits n x)
    (hx : (10 : ℚ) ^ (n - 1 : ℤ) ≤ x) : ∃ k : ℤ, x = k := by
  obtain ⟨m, e, hm, rfl⟩ := h
  rcases le_or_gt 0 e with he | he
  · obtain ⟨j, rfl⟩ := Int.eq_ofNat_of_zero_le he
    exact ⟨m * 10 ^ j, by push_cast; rfl⟩
  · have hm' : (m : ℚ) < 10 ^ (n : ℤ) := by
      rw [zpow_natCast]
      exact_mod_cast (le_abs_self m).trans_lt hm
    have hlt : (m : ℚ) * 10 ^ e < 10 ^ (n - 1 : ℤ) := by
      calc
        (m : ℚ) * 10 ^ e < 10 ^ (n : ℤ) * 10 ^ e :=
          mul_lt_mul_of_pos_right hm' (zpow_pos (by norm_num) e)
        _ = 10 ^ (n + e : ℤ) := (zpow_add₀ Decimal.ten_ne_zero _ _).symm
        _ ≤ 10 ^ (n - 1 : ℤ) := zpow_le_zpow_right₀ (by norm_num) (by omega)
    exact absurd hx (not_le.2 hlt)

namespace RoundsTo

variable {n : ℕ} {x z : ℚ}

theorem refl (n : ℕ) (x : ℚ) : RoundsTo n x x where
  near := by
    rw [sub_self, abs_zero]
    positivity
  sign := rfl
  eq_of_fits _ := rfl

/-- A sign and a power of ten are put on after rounding. -/
theorem mul {u : ℤ} (hu : u = 1 ∨ u = -1) (s : ℤ) (h : RoundsTo n x z) :
    RoundsTo n (u * 10 ^ s * x) (u * 10 ^ s * z) where
  near := by
    calc
      |u * 10 ^ s * z - u * 10 ^ s * x| = |(u : ℚ) * 10 ^ s| * |z - x| := by
        rw [← mul_sub, abs_mul]
      _ ≤ |(u : ℚ) * 10 ^ s| * (1 / 2 * 10 ^ (1 - n : ℤ) * |x|) :=
        mul_le_mul_of_nonneg_left h.near (abs_nonneg _)
      _ = 1 / 2 * 10 ^ (1 - n : ℤ) * |u * 10 ^ s * x| := by
        rw [abs_mul (_ * _) x]
        ring
  sign := by rw [sign_mul, sign_mul _ x, h.sign]
  eq_of_fits := by
    rintro ⟨m, e, hm, hx⟩
    have hu' : (u : ℚ) * u = 1 := by rcases hu with rfl | rfl <;> norm_num
    have habs : |u| = 1 := by rcases hu with rfl | rfl <;> rfl
    have hfits : FitsDigits n x := by
      refine ⟨u * m, e - s, by rwa [abs_mul, habs, one_mul], ?_⟩
      rw [zpow_sub₀ Decimal.ten_ne_zero, Int.cast_mul, mul_assoc, mul_div_assoc', mul_div_assoc',
        ← hx]
      field_simp
      linear_combination (-x) * hu'
    rw [h.eq_of_fits hfits]

end RoundsTo

namespace Decimal

/-- The last digit is rounded by at most a half. -/
theorem Quotient.abs_rounded_sub_le {den : ℕ} {q : Quotient} (h : q.remainder < den) :
    |(q.rounded den : ℚ) - (q.digits + q.remainder / den)| ≤ 1 / 2 := by
  have hden : (0 : ℚ) < den := by exact_mod_cast Nat.zero_lt_of_lt h
  have hlt : (q.remainder : ℚ) / den < 1 := (div_lt_one hden).2 (by exact_mod_cast h)
  have hnonneg : 0 ≤ (q.remainder : ℚ) / den := by positivity
  rw [abs_le, rounded]
  split
  · next hup =>
      have hhalf : 1 / 2 ≤ (q.remainder : ℚ) / den := by
        rw [div_le_div_iff₀ two_pos hden, one_mul, mul_comm]
        exact_mod_cast hup.2
      push_cast
      constructor <;> linarith
  · next hdown =>
      have hhalf : (q.remainder : ℚ) / den ≤ 1 / 2 := by
        rw [div_le_div_iff₀ hden two_pos, one_mul, mul_comm]
        exact_mod_cast (by omega : 2 * q.remainder ≤ den)
      constructor <;> linarith

/-- The digits of a quotient are rounded only where a number has as many digits before its
point. -/
theorem Quotient.roundsTo_rounded {den n : ℕ} {q : Quotient} (h : q.remainder < den)
    (hpos : 0 < q.digits) (hfull : q.remainder = 0 ∨ powTen (n - 1) ≤ q.digits) (hn : 0 < n) :
    RoundsTo n (q.digits + q.remainder / den) (q.rounded den) := by
  rcases Nat.eq_zero_or_pos q.remainder with hzero | hrem
  · have hdigits : q.rounded den = q.digits := if_neg (by omega)
    rw [hdigits, hzero, Nat.cast_zero, zero_div, add_zero]
    exact RoundsTo.refl _ _
  have hden : (0 : ℚ) < den := by exact_mod_cast Nat.zero_lt_of_lt h
  have hlt : (q.remainder : ℚ) / den < 1 := (div_lt_one hden).2 (by exact_mod_cast h)
  have hpos' : 0 < (q.remainder : ℚ) / den := div_pos (by exact_mod_cast hrem) hden
  have hlarge : (10 : ℚ) ^ (n - 1 : ℤ) ≤ q.digits + q.remainder / den := by
    have hle : powTen (n - 1) ≤ q.digits := hfull.resolve_left hrem.ne'
    calc
      (10 : ℚ) ^ (n - 1 : ℤ) = powTen (n - 1) := by rw [cast_powTen, Nat.cast_pred hn]
      _ ≤ q.digits := by exact_mod_cast hle
      _ ≤ q.digits + q.remainder / den := le_add_of_nonneg_right hpos'.le
  constructor
  · calc
      |(q.rounded den : ℚ) - (q.digits + q.remainder / den)| ≤ 1 / 2 := abs_rounded_sub_le h
      _ = 1 / 2 * 10 ^ (1 - n : ℤ) * 10 ^ (n - 1 : ℤ) := by
        rw [mul_assoc, ← zpow_add₀ ten_ne_zero, sub_add_sub_cancel, sub_self, zpow_zero, mul_one]
      _ ≤ 1 / 2 * 10 ^ (1 - n : ℤ) * |(q.digits : ℚ) + q.remainder / den| :=
        mul_le_mul_of_nonneg_left (hlarge.trans (le_abs_self _)) (by positivity)
  · have hrounded : 0 < q.rounded den := by
      rw [rounded]
      split <;> omega
    rw [sign_pos (by exact_mod_cast hrounded), sign_pos (by positivity)]
  · intro hfits
    -- what remains keeps the quotient strictly between two whole numbers
    obtain ⟨k, hk⟩ := hfits.exists_eq_intCast hlarge
    have hlower : (q.digits : ℤ) < k := by
      have : (q.digits : ℚ) < k := by linarith
      exact_mod_cast this
    have hupper : k < q.digits + 1 := by
      have : (k : ℚ) < q.digits + 1 := by linarith
      exact_mod_cast this
    omega

/-- The rounded digits of a division are its quotient, rounded. -/
theorem Quotient.Divides.roundsTo {num den n : ℕ} {q : Quotient} (h : q.Divides num den)
    (hpos : 0 < q.digits) (hfull : q.remainder = 0 ∨ powTen (n - 1) ≤ q.digits) (hn : 0 < n) :
    RoundsTo n ((num : ℚ) / den) (10 ^ (-(q.places : ℤ)) * q.rounded den) := by
  have hden : (0 : ℚ) < den := by exact_mod_cast Nat.zero_lt_of_lt h.lt
  have heq : (num : ℚ) / den = 10 ^ (-(q.places : ℤ)) * (q.digits + q.remainder / den) := by
    have heq : (q.digits : ℚ) * den + q.remainder = num * 10 ^ (q.places : ℤ) := by
      rw [← cast_powTen]
      exact_mod_cast h.eq
    rw [zpow_neg]
    field_simp
    linear_combination -heq
  rw [heq]
  simpa using (roundsTo_rounded h.lt hpos hfull hn).mul (Or.inl rfl) (-(q.places : ℤ))

theorem cast_eq_sign_mul (c : ℤ) : (c : ℚ) = c.sign * c.natAbs := by
  rw [← Int.cast_natCast, ← Int.cast_mul, Int.sign_mul_natAbs]

theorem inv_cast_sign (c : ℤ) : (c.sign : ℚ)⁻¹ = c.sign := by
  rcases Int.sign_trichotomy c with h | h | h <;> norm_num [h]

theorem zpow_neg_scale_sub (s t : ℤ) : (10 : ℚ) ^ (-(s - t)) = 10 ^ (-s) / 10 ^ (-t) := by
  rw [← zpow_sub₀ ten_ne_zero, neg_sub, sub_neg_eq_add, neg_add_eq_sub]

/-- A quotient of values takes its sign and its places out of the magnitudes. -/
theorem value_div_value (a b : Decimal) :
    a.value / b.value = ((a.coefficient.sign * b.coefficient.sign : ℤ) : ℚ) *
      10 ^ (-(a.scale - b.scale)) * (a.coefficient.natAbs / b.coefficient.natAbs) := by
  rw [value, value, cast_eq_sign_mul a.coefficient, cast_eq_sign_mul b.coefficient, div_eq_mul_inv,
    mul_inv, mul_inv, inv_cast_sign, zpow_neg_scale_sub, Int.cast_mul]
  ring

/-- A decimal is divided to its quotient, rounded. -/
theorem roundsTo_div {a b : Decimal} (hb : b.isZero = false) :
    RoundsTo quotientDigits (a.value / b.value) (a.div b).value := by
  have hb' : b.coefficient ≠ 0 := of_decide_eq_false hb
  rw [div]
  split
  · next h =>
      have heq : a.value / b.value = a.value := by
        rcases Bool.or_eq_true_iff.1 h with hzero | hone
        · rw [(value_eq_zero_iff a).2 hzero, zero_div]
        · rw [value_of_isNeutralOne hone, div_one]
      rw [heq]
      exact RoundsTo.refl _ _
  · next h =>
      have ha : a.coefficient ≠ 0 := by
        intro hzero
        exact h (Bool.or_eq_true_iff.2 (Or.inl (decide_eq_true hzero)))
      have hunit : a.coefficient.sign * b.coefficient.sign = 1 ∨
          a.coefficient.sign * b.coefficient.sign = -1 := by
        rw [← Int.sign_mul]
        exact Int.natAbs_eq_iff.1 (Int.natAbs_sign_of_ne_zero (mul_ne_zero ha hb'))
      split
      · next hcoefficient =>
          have heq : a.value / b.value = (⟨1, a.scale - b.scale⟩ : Decimal).value := by
            rw [value, value, value, hcoefficient, mul_div_mul_left _ _ (Int.cast_ne_zero.2 hb'),
              zpow_neg_scale_sub, Int.cast_one, one_mul]
          rw [heq]
          exact RoundsTo.refl _ _
      · obtain ⟨q, hq, hdivides, hpos, hfull⟩ :=
          exists_quotient (Int.natAbs_pos.2 ha) (Int.natAbs_pos.2 hb')
        have hround := (hdivides.roundsTo hpos hfull (by decide)).mul hunit
          (-(a.scale - b.scale))
        have heq : (⟨a.coefficient.sign * b.coefficient.sign * q.rounded b.coefficient.natAbs,
            a.scale - b.scale + q.places⟩ : Decimal).value =
            ((a.coefficient.sign * b.coefficient.sign : ℤ) : ℚ) * 10 ^ (-(a.scale - b.scale)) *
              (10 ^ (-(q.places : ℤ)) * q.rounded b.coefficient.natAbs) := by
          rw [value, neg_add, zpow_add₀ ten_ne_zero, Int.cast_mul, Int.cast_natCast]
          ring
        rw [hq, value_div_value]
        exact heq ▸ hround

end Decimal

namespace Operator

open Decimal

/-- A division ends in a text that stands for the rounded quotient; a division by zero ends in an
error. -/
inductive EndsRounded (x y : ℚ) : Except EvalError Literal → Prop
  | byZero (hy : y = 0) : EndsRounded x y (.error .divisionByZero)
  | value {s z} (hy : y ≠ 0) (hs : numberValue? s = some z)
      (hz : RoundsTo quotientDigits (x / y) z) : EndsRounded x y (.ok (.number s))

theorem calculate_div_endsRounded (l r : Decimal) :
    EndsRounded l.value r.value (div.calculate l r >>= fun d => .ok (.number d.toText)) := by
  by_cases hr : r.isZero = true
  · rw [calculate, if_pos hr]
    exact .byZero ((value_eq_zero_iff r).2 hr)
  · rw [calculate, if_neg hr]
    refine .value (fun hzero => hr ((value_eq_zero_iff r).1 hzero)) (numberValue?_toText _) ?_
    exact roundsTo_div (Bool.eq_false_of_not_eq_true hr)

/-- A division of numbers fails exactly by zero. Otherwise it gives a number within half a unit of
the hundredth digit of the quotient, of the quotient's sign, and the quotient itself if that has no
more than a hundred digits. -/
theorem evaluate_div_on_numbers {left right : String} {x y : ℚ} (hl : numberValue? left = some x)
    (hr : numberValue? right = some y) :
    (div.evaluate left right .number = .error .divisionByZero ↔ y = 0) ∧
    (y ≠ 0 → ∃ s z, div.evaluate left right .number = .ok (.number s) ∧ numberValue? s = some z ∧
      |z - x / y| ≤ 1 / 2 * 10 ^ (-99 : ℤ) * |x / y| ∧
      SignType.sign z = SignType.sign (x / y) ∧ (FitsDigits 100 (x / y) → z = x / y)) := by
  have hends : EndsRounded x y (div.evaluate left right .number) := by
    rw [evaluate_of_isArithmetic rfl (by decide)]
    exact (endsOnNumbers_bind calculate_div_endsRounded left right).of_values hl hr
  generalize div.evaluate left right .number = out at hends ⊢
  cases hends with
  | byZero hy => exact ⟨iff_of_true rfl hy, fun hne => absurd hy hne⟩
  | value hy hs hz =>
      refine ⟨iff_of_false (fun h => by cases h) hy, fun _ => ⟨_, _, rfl, hs, ?_⟩⟩
      exact ⟨hz.near, hz.sign, hz.eq_of_fits⟩

/-- The quotient of 1 and -8 is exact, that of 2 and -0.3 has its hundredth digit rounded, and
there is none of 1 and 0.00. -/
theorem evaluate_div_on_numbers_eighth :
    (∃ s, div.evaluate "1" "-8.0" .number = .ok (.number s) ∧ numberValue? s = some (-1 / 8)) ∧
      (∃ s z, div.evaluate "2" "-0.3" .number = .ok (.number s) ∧ numberValue? s = some z ∧
        |z + 20 / 3| ≤ 1 / 2 * 10 ^ (-99 : ℤ) * (20 / 3) ∧ SignType.sign z = -1) ∧
      div.evaluate "1" "0.00" .number = .error .divisionByZero := by
  have one : numberValue? "1" = some 1 :=
    numberValue?_eq_some_iff.2 ⟨⟨1, 0⟩, by decide +kernel, by norm_num [value]⟩
  have eight : numberValue? "-8.0" = some (-8) :=
    numberValue?_eq_some_iff.2 ⟨⟨-80, 1⟩, by decide +kernel, by norm_num [value]⟩
  have two : numberValue? "2" = some 2 :=
    numberValue?_eq_some_iff.2 ⟨⟨2, 0⟩, by decide +kernel, by norm_num [value]⟩
  have threeTenths : numberValue? "-0.3" = some (-3 / 10) :=
    numberValue?_eq_some_iff.2 ⟨⟨-3, 1⟩, by decide +kernel, by norm_num [value]⟩
  have zero : numberValue? "0.00" = some 0 :=
    numberValue?_eq_some_iff.2 ⟨⟨0, 2⟩, by decide +kernel, by norm_num [value]⟩
  refine ⟨?_, ?_, (evaluate_div_on_numbers one zero).1.2 rfl⟩
  · obtain ⟨s, z, hs, hz, -, -, hexact⟩ := (evaluate_div_on_numbers one eight).2 (by norm_num)
    have hfits : FitsDigits 100 (1 / -8) := ⟨-125, -3, by norm_num, by norm_num⟩
    rw [hexact hfits] at hz
    exact ⟨s, hs, by rw [hz]; norm_num⟩
  · obtain ⟨s, z, hs, hz, hnear, hsign, -⟩ :=
      (evaluate_div_on_numbers two threeTenths).2 (by norm_num)
    have hquotient : (2 : ℚ) / (-3 / 10) = -(20 / 3) := by norm_num
    rw [hquotient, sub_neg_eq_add, abs_neg, abs_of_pos (by norm_num : (0 : ℚ) < 20 / 3)] at hnear
    exact ⟨s, z, hs, hz, hnear, hsign.trans (sign_neg (by norm_num))⟩

end Operator

end FormulaCode
