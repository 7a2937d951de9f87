import FormulaCode.Proofs.GeneratedCode

/-! # Linked code

In the code of a tree the ids rise, references go back, and every result but the last is used
by exactly one later quadruple. So the last quadruple is the only one whose result nobody
takes: it cannot be a constant unless it stands alone. -/

namespace FormulaCode

open Program

/-- Every quadruple with something behind it, in the list or later, is used there exactly
once. -/
def Linked (later : List Quadruple) : List Quadruple → Prop
  | [] => True
  | q :: qs =>
      (qs ++ later = [] ∨ (qs ++ later).countP (·.refersTo q.id) = 1) ∧ Linked later qs

/-- The shape of the code of a tree: rising ids, references back, and every result but the
last one used exactly once. -/
structure Threaded (qs : List Quadruple) : Prop where
  ids : (qs.map Quadruple.id).Pairwise (· < ·)
  backward : referencesBackward [] qs = true
  linked : Linked [] qs
  ne_nil : qs ≠ []

theorem linked_append {later ps qs : List Quadruple} :
    Linked later (ps ++ qs) ↔ Linked (qs ++ later) ps ∧ Linked later qs := by
  induction ps with
  | nil => simp [Linked]
  | cons p ps ih => simp [Linked, ih, and_assoc]

theorem referencesBackward_cons {seen : List Nat} {q : Quadruple} {qs : List Quadruple} :
    referencesBackward seen (q :: qs) = true ↔
      (∀ k, q.refersTo k = true → k ∈ seen) ∧ referencesBackward (q.id :: seen) qs = true := by
  change (q.references.all (seen.contains ·) && referencesBackward (q.id :: seen) qs) = true ↔ _
  simp [Quadruple.refersTo]

theorem referencesBackward_append {seen : List Nat} {ps qs : List Quadruple} :
    referencesBackward seen (ps ++ qs) = true ↔ referencesBackward seen ps = true ∧
      referencesBackward ((ps.map Quadruple.id).reverse ++ seen) qs = true := by
  induction ps generalizing seen with
  | nil => simp [referencesBackward]
  | cons p ps ih => simp [referencesBackward_cons, ih, and_assoc]

/-- The last quadruple takes the result of the one before it. -/
theorem Linked.exists_refersTo {body : List Quadruple} {last : Quadruple}
    (h : Linked [] (body ++ [last])) (hb : body ≠ []) : ∃ k, last.refersTo k = true := by
  rcases List.eq_nil_or_concat body with rfl | ⟨init, q, rfl⟩
  · exact absurd rfl hb
  · rw [List.concat_eq_append, linked_append, linked_append] at h
    obtain ⟨⟨-, hq, -⟩, -⟩ := h
    refine ⟨q.id, ?_⟩
    simpa [List.countP_cons] using hq

/-- Numbered code that stays behind `count` refers back. -/
theorem Numbered.backward {count m : Nat} {seen : List Nat} {qs : List Quadruple}
    (h : Numbered m qs) (hseen : ∀ k, count < k → k ≤ m → k ∈ seen)
    (href : ∀ q ∈ qs, ∀ k, q.refersTo k = true → count < k ∧ k < q.id) :
    referencesBackward seen qs = true := by
  induction qs generalizing m seen with
  | nil => rfl
  | cons q qs ih =>
      obtain ⟨hid, hqs⟩ := Numbered.cons_iff.1 h
      refine referencesBackward_cons.2 ⟨?_, ih hqs ?_ ?_⟩
      · intro k hk
        have := href q List.mem_cons_self k hk
        exact hseen k this.1 (by omega)
      · intro k hk hm
        by_cases he : k = q.id
        · exact he ▸ List.mem_cons_self
        · exact List.mem_cons_of_mem _ (hseen k hk (by omega))
      · exact fun p hp => href p (List.mem_cons_of_mem q hp)

namespace Generates

variable {count : Nat} {s : Side} {x : Fragment}

/-- Code does not refer to what comes before it or behind it. -/
theorem countP_eq_zero (h : Generates count s x) {k : Nat}
    (hk : k ≤ count ∨ count + x.quadruples.length ≤ k) :
    x.quadruples.countP (·.refersTo k) = 0 := by
  rw [List.countP_eq_zero]
  intro q hq hr
  have := h.lt_of_refersTo hq hr
  have := (h.numbered.mem_ids_iff (k := q.id)).1 (List.mem_map_of_mem hq)
  omega

/-- Of the results of code its operand refers to the last. -/
theorem reference_iff (h : Generates count s x) {k : Nat} (hk : count < k)
    (hk' : k ≤ count + x.quadruples.length) :
    x.operand.reference? = some k ↔ k = count + x.quadruples.length := by
  rw [h.reference_eq]
  cases hs : s.isNested with
  | true => simp [eq_comm]
  | false =>
      have := h.quadruples_eq_nil hs
      simp only [this, List.length_nil] at hk'
      omega

/-- An operand does not refer to what comes before its code or behind it. -/
theorem reference_ne (h : Generates count s x) {k : Nat}
    (hk : k ≤ count ∨ count + x.quadruples.length < k) : x.operand.reference? ≠ some k := by
  intro he
  have := h.lt_of_reference he
  omega

/-- What comes behind code, if anything does, uses its result once and no other of its
results. -/
def UsedBy (count length : Nat) (later : List Quadruple) : Prop :=
  later = [] ∨ ∀ k, count < k → k ≤ count + length →
    later.countP (·.refersTo k) = if k = count + length then 1 else 0

/-- Only the last result of code is used behind it. -/
theorem UsedBy.countP_eq_zero {length : Nat} {later : List Quadruple}
    (h : UsedBy count length later) {k : Nat} (hk : count < k) (hk' : k < count + length) :
    later.countP (·.refersTo k) = 0 := by
  rcases h with rfl | h
  · rfl
  · rw [h k hk (by omega), if_neg (by omega)]

/-- The quadruple that closes code is used behind it. -/
theorem UsedBy.linked_close {n : Nat} {later : List Quadruple} (h : UsedBy count (n + 1) later)
    (left : Operand) (o : Operator) (right : Operand) :
    Linked later [⟨count + n + 1, left, right, o, .any⟩] := by
  rcases h with rfl | h
  · exact ⟨Or.inl rfl, trivial⟩
  · refine ⟨Or.inr ?_, trivial⟩
    simpa [Nat.add_assoc] using h (count + n + 1) (by omega) (by omega)

/-- Code is linked when what follows it uses its result. -/
theorem linked (h : Generates count s x) {later : List Quadruple}
    (hl : UsedBy count x.quadruples.length later) : Linked later x.quadruples := by
  induction h generalizing later with
  | literal | var => trivial
  | right h ih | left h ih =>
      simp only [Fragment.close_quadruples, List.length_append, List.length_cons,
        List.length_nil] at hl
      refine linked_append.2 ⟨ih (Or.inr fun k hk hk' => ?_), hl.linked_close _ _ _⟩
      have hlater := hl.countP_eq_zero hk (by omega)
      simp [List.countP_cons, hlater, Quadruple.refersTo_iff, h.reference_iff hk hk']
  | both h₁ h₂ ih₁ ih₂ =>
      simp only [Fragment.close_quadruples, List.length_append, List.length_cons,
        List.length_nil] at hl
      refine linked_append.2
        ⟨linked_append.2 ⟨ih₁ (Or.inr fun k hk hk' => ?_), ih₂ (Or.inr fun k hk hk' => ?_)⟩, ?_⟩
      · have hlater := hl.countP_eq_zero hk (by omega)
        simp [List.countP_cons, hlater, Quadruple.refersTo_iff, h₁.reference_iff hk hk',
          h₂.reference_ne (Or.inl hk'), h₂.countP_eq_zero (Or.inl hk')]
      · have hlater := hl.countP_eq_zero (k := k) (by omega) (by omega)
        simp [List.countP_cons, hlater, Quadruple.refersTo_iff, h₂.reference_iff hk hk',
          h₁.reference_ne (Or.inr hk)]
      · rw [List.length_append]
        exact hl.linked_close _ _ _

/-- The code of a tree is threaded. -/
theorem threaded (h : Generates 0 s x) (hs : s.isNested = true) : Threaded x.quadruples where
  ids := h.numbered.pairwise_lt
  backward := h.numbered.backward (fun k hk hk' => by omega) fun q hq k => h.lt_of_refersTo hq
  linked := h.linked (Or.inl rfl)
  ne_nil := by
    cases h with
    | literal | var => cases hs
    | right | left | both => simp

end Generates

end FormulaCode
