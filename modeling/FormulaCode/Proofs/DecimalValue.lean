import FormulaCode.Proofs.DecimalText
import Mathlib.Data.Rat.Floor
import Mathlib.Order.Compare
import Mathlib.Tactic.Linarith
import Mathlib.Tactic.Ring

/-! # The values of decimals

A decimal stands for a rational number. Bringing it to a finer scale keeps its value, and so do
the shortcuts for zero and one, which only choose another scale. So sums, differences, products
and remainders are exact, and decimals are ordered as their values are. The text of a decimal has
no exponent and reads as the same value at every scale. -/

namespace FormulaCode.Decimal

/-- The number that a decimal stands for. -/
def value (d : Decimal) : ℚ := d.coefficient * (10 : ℚ) ^ (-d.scale)

theorem ten_ne_zero : (10 : ℚ) ≠ 0 := by norm_num

theorem cast_powTen (n : ℕ) : (powTen n : ℚ) = (10 : ℚ) ^ (n : ℤ) := by
  rw [zpow_natCast]
  exact Nat.cast_pow 10 n

/-- At a finer scale a decimal has another coefficient and the same value. -/
theorem coefficientAt_mul (d : Decimal) {s : ℤ} (h : d.scale ≤ s) :
    (d.coefficientAt s : ℚ) * 10 ^ (-s) = d.value := by
  have hshift : ((s - d.scale).toNat : ℤ) = s - d.scale := Int.toNat_of_nonneg (by omega)
  calc
    (d.coefficientAt s : ℚ) * 10 ^ (-s)
      = d.coefficient * ((10 : ℚ) ^ (s - d.scale) * 10 ^ (-s)) := by
        rw [coefficientAt, Int.cast_mul, Int.cast_natCast, cast_powTen, hshift, mul_assoc]
    _ = d.value := by
        rw [← zpow_add₀ ten_ne_zero, value]
        congr 2
        ring

theorem value_eq_zero_iff (d : Decimal) : d.value = 0 ↔ d.isZero = true := by
  have hpow : (10 : ℚ) ^ (-d.scale) ≠ 0 := zpow_ne_zero _ ten_ne_zero
  rw [value, isZero, decide_eq_true_eq, mul_eq_zero, or_iff_left hpow, Int.cast_eq_zero]

theorem value_of_isNeutralOne {d : Decimal} (h : d.isNeutralOne = true) : d.value = 1 := by
  simp only [isNeutralOne, Bool.and_eq_true, decide_eq_true_eq] at h
  obtain ⟨⟨hlow, -⟩, hone⟩ := h
  rw [value, hone, Int.cast_natCast, cast_powTen, Int.toNat_of_nonneg hlow,
    ← zpow_add₀ ten_ne_zero, add_neg_cancel, zpow_zero]

/-! ## Operations -/

@[simp] theorem value_add (a b : Decimal) : (a.add b).value = a.value + b.value := by
  rw [← coefficientAt_mul a (le_max_left a.scale b.scale),
    ← coefficientAt_mul b (le_max_right a.scale b.scale), ← add_mul]
  simp only [value, add, commonScale, Int.cast_add]

@[simp] theorem value_sub (a b : Decimal) : (a.sub b).value = a.value - b.value := by
  unfold sub
  split
  · next hb => rw [(value_eq_zero_iff b).2 hb, sub_zero]
  · split
    · next ha =>
        rw [(value_eq_zero_iff a).2 ha, zero_sub]
        simp only [value, Int.cast_neg, neg_mul]
    · rw [← coefficientAt_mul a (le_max_left a.scale b.scale),
        ← coefficientAt_mul b (le_max_right a.scale b.scale), ← sub_mul]
      simp only [value, commonScale, Int.cast_sub]

@[simp] theorem value_mul (a b : Decimal) : (a.mul b).value = a.value * b.value := by
  unfold mul
  split
  · next ha => rw [value_of_isNeutralOne ha, one_mul]
  · split
    · next hb => rw [value_of_isNeutralOne hb, mul_one]
    · simp only [value, Int.cast_mul, neg_add, zpow_add₀ ten_ne_zero]
      ring

/-- A number without its places, so cut toward zero. -/
def truncate (x : ℚ) : ℤ := if 0 ≤ x then ⌊x⌋ else ⌈x⌉

theorem truncate_neg (x : ℚ) : truncate (-x) = -truncate x := by
  rcases lt_trichotomy x 0 with h | rfl | h
  · rw [truncate, truncate, if_pos (by linarith), if_neg (not_le.2 h), Int.floor_neg]
  · simp [truncate]
  · rw [truncate, truncate, if_neg (by linarith), if_pos h.le, Int.ceil_neg]

/-- Division of integers toward zero is the quotient cut toward zero. -/
theorem truncate_div (m n : ℤ) : truncate ((m : ℚ) / n) = m.tdiv n := by
  have nonneg : ∀ (m : ℤ) (n : ℕ), 0 ≤ m → truncate ((m : ℚ) / n) = m.tdiv n := by
    intro m n hm
    have hpos : (0 : ℚ) ≤ (m : ℚ) / n := div_nonneg (Int.cast_nonneg hm) (Nat.cast_nonneg n)
    rw [truncate, if_pos hpos, Rat.floor_intCast_div_natCast, Int.tdiv_eq_ediv_of_nonneg hm]
  have natural : ∀ (m : ℤ) (n : ℕ), truncate ((m : ℚ) / n) = m.tdiv n := by
    intro m n
    rcases le_total 0 m with hm | hm
    · exact nonneg m n hm
    · have hneg := nonneg (-m) n (by omega)
      rw [Int.cast_neg, neg_div, truncate_neg, Int.neg_tdiv] at hneg
      exact neg_injective hneg
  rcases Int.eq_nat_or_neg n with ⟨k, rfl | rfl⟩
  · simpa using natural m k
  · rw [Int.cast_neg, div_neg, truncate_neg, Int.tdiv_neg]
    simpa using congrArg (- ·) (natural m k)

theorem value_rem (a b : Decimal) :
    (a.rem b).value = a.value - b.value * truncate (a.value / b.value) := by
  have ha := coefficientAt_mul a (le_max_left a.scale b.scale)
  have hb := coefficientAt_mul b (le_max_right a.scale b.scale)
  have hpow : (10 : ℚ) ^ (-(max a.scale b.scale)) ≠ 0 := zpow_ne_zero _ ten_ne_zero
  have hquot : truncate (a.value / b.value) =
      (a.coefficientAt (max a.scale b.scale)).tdiv (b.coefficientAt (max a.scale b.scale)) := by
    rw [← ha, ← hb, mul_div_mul_right _ _ hpow, truncate_div]
  rw [hquot, ← ha, ← hb]
  simp only [value, rem, commonScale, Int.tmod_def, Int.cast_sub, Int.cast_mul]
  ring

/-! ## Order -/

/-- Integers are ordered as their multiples are. -/
theorem compares_mul_zpow {o : Ordering} {m n : ℤ} (h : o.Compares m n) (s : ℤ) :
    o.Compares ((m : ℚ) * 10 ^ s) ((n : ℚ) * 10 ^ s) := by
  have hpow : (0 : ℚ) < 10 ^ s := zpow_pos (by norm_num) s
  cases o with
  | lt => exact mul_lt_mul_of_pos_right (Int.cast_lt.2 h) hpow
  | eq => exact congrArg (fun k : ℤ => (k : ℚ) * 10 ^ s) h
  | gt => exact mul_lt_mul_of_pos_right (Int.cast_lt.2 h) hpow

/-- A number is below the power of ten that its digits count. -/
theorem lt_powTen_length (n : ℕ) : n < powTen (Text.digits n).length :=
  (Nat.length_toDigits_le_iff (by decide) Nat.length_toDigits_pos).1 (le_refl _)

/-- Zeros beyond the digits of the other side do not change an order. -/
theorem compares_orderScaled (m : ℤ) (zeros : ℕ) (n : ℤ) :
    (orderScaled m zeros n).Compares (m * powTen zeros) n := by
  rcases le_total zeros (Text.digits n.natAbs).length with hz | hz
  · rw [orderScaled, min_eq_left hz]
    exact (compare_iff _ _).1 rfl
  · rw [orderScaled, min_eq_right hz]
    have hn : (n.natAbs : ℤ) < powTen (Text.digits n.natAbs).length := by
      exact_mod_cast lt_powTen_length n.natAbs
    have hle : (powTen (Text.digits n.natAbs).length : ℤ) ≤ powTen zeros := by
      exact_mod_cast Nat.pow_le_pow_right (by decide) hz
    generalize (powTen (Text.digits n.natAbs).length : ℤ) = p at hn hle ⊢
    generalize (powTen zeros : ℤ) = p' at hle ⊢
    -- Both multiples of `m` are zero, or both are on one side of `n`.
    rcases lt_trichotomy m 0 with hm | rfl | hm
    · have below : ∀ q, p ≤ q → m * q < n := by
        intro q hq
        have : m * q ≤ -1 * q := mul_le_mul_of_nonneg_right (by omega) (by omega)
        omega
      rw [compare_lt_iff_lt.2 (below p le_rfl)]
      exact below p' hle
    · rw [zero_mul, zero_mul]
      exact (compare_iff _ _).1 rfl
    · have above : ∀ q, p ≤ q → n < m * q := by
        intro q hq
        have : 1 * q ≤ m * q := mul_le_mul_of_nonneg_right (by omega) (by omega)
        omega
      rw [compare_gt_iff_gt.2 (above p le_rfl)]
      exact above p' hle

/-- Decimals are ordered as their values are. -/
theorem compares_order (a b : Decimal) : (a.order b).Compares a.value b.value := by
  unfold order
  split
  · next h =>
      rw [← coefficientAt_mul a h]
      exact compares_mul_zpow (compares_orderScaled _ _ _) _
  · next h =>
      rw [Ordering.compares_swap, ← coefficientAt_mul b (not_le.1 h).le]
      exact compares_mul_zpow (compares_orderScaled _ _ _) _

/-! ## Texts -/

/-- A decimal written without a negative scale has the same value. -/
theorem value_mul_powTen (d : Decimal) :
    (⟨d.coefficient * powTen (-d.scale).toNat, d.scale.toNat⟩ : Decimal).value = d.value := by
  have hscale : ((-d.scale).toNat : ℤ) + -(d.scale.toNat : ℤ) = -d.scale := by omega
  rw [value, value, Int.cast_mul, Int.cast_natCast, cast_powTen, mul_assoc,
    ← zpow_add₀ ten_ne_zero, hscale]

end FormulaCode.Decimal

namespace FormulaCode

/-- The number that an accepted text stands for. -/
def numberValue? (s : String) : Option ℚ :=
  match readNumber s with
  | .ok d => some d.value
  | .error _ => none

theorem numberValue?_eq_some_iff {s : String} {x : ℚ} :
    numberValue? s = some x ↔ ∃ d, readNumber s = .ok d ∧ d.value = x := by
  unfold numberValue?
  cases readNumber s with
  | error e => simp
  | ok d => simp

/-- A text that stands for no number is reported as it is. -/
theorem numberValue?_eq_none_iff {s : String} :
    numberValue? s = none ↔ readNumber s = .error (.malformedValue .number s) := by
  unfold numberValue? readNumber
  cases Decimal.read? (Text.trim s.toList) with
  | none => simp
  | some d => simp

/-- A numeral stands for its digits, multiplied by the power of ten that its exponent and its places
leave. -/
theorem numberValue?_numeral (n : Numeral) {before behind : List Char}
    (hbefore : ∀ c ∈ before, Text.isBlank c = true)
    (hbehind : ∀ c ∈ behind, Text.isBlank c = true) :
    numberValue? (String.ofList (before ++ (n.text ++ behind))) =
      if n.fits then
        some (Decimal.signed n.sign.isMinus (Text.ofDigits n.digits) *
          (10 : ℚ) ^ (n.power - n.placeCount))
      else none := by
  rw [numberValue?, readNumber_numeral n hbefore hbehind]
  cases n.fits with
  | false => rfl
  | true =>
      have hscale : -((n.placeCount : ℤ) - n.power) = n.power - n.placeCount := by ring
      simp only [if_true, Numeral.value, Decimal.value, hscale]

/-- The text of a decimal stands for its value. -/
@[simp] theorem numberValue?_toText (d : Decimal) : numberValue? d.toText = some d.value := by
  rw [numberValue?, readNumber_toText]
  exact congrArg some d.value_mul_powTen

end FormulaCode
