/-! # Blank characters

The characters with the White_Space property, and the removal of blanks at the
ends of a text. -/

namespace FormulaCode.Text

/-- The code points with the White_Space property, as closed intervals. -/
def blankRanges : List (Nat × Nat) :=
  [(0x0009, 0x000D), (0x0020, 0x0020), (0x0085, 0x0085), (0x00A0, 0x00A0),
    (0x1680, 0x1680), (0x2000, 0x200A), (0x2028, 0x2029), (0x202F, 0x202F),
    (0x205F, 0x205F), (0x3000, 0x3000)]

/-- A blank is a character with the White_Space property. -/
def isBlank (c : Char) : Bool :=
  blankRanges.any fun r => decide (r.1 ≤ c.toNat) && decide (c.toNat ≤ r.2)

/-- The text without the blanks it starts with. -/
def trimStart (cs : List Char) : List Char := cs.dropWhile isBlank

/-- The text without the blanks it ends with. -/
def trimEnd (cs : List Char) : List Char := (cs.reverse.dropWhile isBlank).reverse

/-- The text without the blanks at its ends. -/
def trim (cs : List Char) : List Char := trimEnd (trimStart cs)

/-- A string without the blanks at its ends. -/
def trimmed (s : String) : String := String.ofList (trim s.toList)

/-- A text of blanks only; the empty text is one. -/
def allBlank (cs : List Char) : Bool := cs.all isBlank

@[simp] theorem trimStart_nil : trimStart [] = [] := rfl

@[simp] theorem trim_nil : trim [] = [] := rfl

theorem trimStart_cons (c : Char) (cs : List Char) :
    trimStart (c :: cs) = if isBlank c then trimStart cs else c :: cs := by
  simp only [trimStart, List.dropWhile_cons]

/-- Nothing is left of a text exactly when it holds blanks only. -/
theorem trim_eq_nil_iff (cs : List Char) : trim cs = [] ↔ allBlank cs = true := by
  have dropWhile_nil : ∀ l : List Char,
      l.dropWhile isBlank = [] ↔ ∀ c ∈ l, isBlank c = true := by
    intro l
    induction l with
    | nil => simp
    | cons c l ih =>
        rw [List.dropWhile_cons]
        by_cases hc : isBlank c = true
        · simp [hc, ih]
        · simp [hc]
  simp only [trim, trimEnd, trimStart, List.reverse_eq_nil_iff, dropWhile_nil,
    List.mem_reverse, allBlank, List.all_eq_true]
  constructor
  · intro h
    apply (dropWhile_nil cs).1
    by_cases hd : cs.dropWhile isBlank = []
    · exact hd
    · cases hcons : cs.dropWhile isBlank with
      | nil => rfl
      | cons c rest =>
          have hc := h c (by simp [hcons])
          have := List.head_dropWhile_not isBlank (l := cs) (by simp [hcons])
          simp [hcons, hc] at this
  · intro h c hc
    exact h c ((List.dropWhile_sublist isBlank).subset hc)

end FormulaCode.Text
