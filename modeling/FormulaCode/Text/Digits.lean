/-! # Decimal digits

Natural numbers as digit texts of a least width. -/

namespace FormulaCode.Text

/-- The decimal digits of a number, most significant first; zero has one digit. -/
def digits (n : Nat) : List Char := Nat.toDigits 10 n

/-- The number that a text of decimal digits spells. -/
def ofDigits (cs : List Char) : Nat := Nat.ofDigitChars 10 cs 0

/-- The digits of a number with zeros in front, up to the given width. -/
def zeroPadded (width n : Nat) : List Char :=
  List.replicate (width - (digits n).length) '0' ++ digits n

/-- A string with spaces behind it, up to the given number of characters. -/
def padRight (width : Nat) (s : String) : String :=
  s ++ String.ofList (List.replicate (width - s.length) ' ')

theorem ofDigits_digits (n : Nat) : ofDigits (digits n) = n :=
  Nat.ofDigitChars_toDigits (by decide) (by decide)

theorem ofDigits_zeroPadded (width n : Nat) : ofDigits (zeroPadded width n) = n := by
  simp only [ofDigits, zeroPadded, Nat.ofDigitChars_append,
    Nat.ofDigitChars_replicate_zero, Nat.mul_zero]
  exact ofDigits_digits n

theorem isDigit_of_mem_digits {n : Nat} {c : Char} (h : c ∈ digits n) : c.isDigit = true :=
  Nat.isDigit_of_mem_toDigits (by decide) (by decide) h

theorem isDigit_of_mem_zeroPadded {width n : Nat} {c : Char} (h : c ∈ zeroPadded width n) :
    c.isDigit = true := by
  rcases List.mem_append.1 h with h | h
  · rw [List.eq_of_mem_replicate h]
    rfl
  · exact isDigit_of_mem_digits h

theorem toNat_of_isAlpha {c : Char} (h : c.isAlpha = true) :
    (65 ≤ c.toNat ∧ c.toNat ≤ 90) ∨ (97 ≤ c.toNat ∧ c.toNat ≤ 122) := by
  have upper : c.isUpper = true → 65 ≤ c.toNat ∧ c.toNat ≤ 90 := of_decide_eq_true
  have lower : c.isLower = true → 97 ≤ c.toNat ∧ c.toNat ≤ 122 :=
    fun h => (Bool.and_eq_true_iff.1 h).imp of_decide_eq_true of_decide_eq_true
  exact (Bool.or_eq_true_iff.1 h).imp upper lower

theorem toNat_of_isDigit {c : Char} (h : c.isDigit = true) : 48 ≤ c.toNat ∧ c.toNat ≤ 57 :=
  Char.isDigit_iff_toNat.1 h

/-- Letters are no digits. -/
theorem isDigit_of_isAlpha {c : Char} (h : c.isAlpha = true) : c.isDigit = false := by
  rw [Bool.eq_false_iff]
  intro hd
  have hletter := toNat_of_isAlpha h
  have hdigit := toNat_of_isDigit hd
  omega

/-- A run of characters of one kind ends where another kind follows. -/
theorem takeWhile_append_of_head? {P : Char → Bool} {cs rest : List Char}
    (hc : ∀ c ∈ cs, P c = true) (hr : ∀ c ∈ rest.head?, P c = false) :
    (cs ++ rest).takeWhile P = cs ∧ (cs ++ rest).dropWhile P = rest := by
  rw [List.takeWhile_append_of_pos hc, List.dropWhile_append_of_pos hc]
  cases rest with
  | nil => simp
  | cons d ds => simp [hr d rfl]

theorem digits_ne_nil (n : Nat) : digits n ≠ [] := Nat.toDigits_ne_nil

/-- A number above zero has no zero in front. -/
theorem exists_digits_eq_cons {n : Nat} (h : 0 < n) :
    ∃ c cs, digits n = c :: cs ∧ c ≠ '0' := by
  induction n using Nat.strongRecOn with
  | ind n ih =>
      by_cases hn : n < 10
      · rw [digits, Nat.toDigits_of_lt_base hn]
        have hzero : ∀ n < 10, 0 < n → Nat.digitChar n ≠ '0' := by decide
        exact ⟨_, [], rfl, hzero n hn h⟩
      · obtain ⟨c, cs, hd, hc⟩ := ih (n / 10) (by omega) (by omega)
        rw [digits] at hd
        rw [digits, Nat.toDigits_of_base_le (by decide) (by omega), hd]
        exact ⟨c, _, rfl, hc⟩

end FormulaCode.Text
