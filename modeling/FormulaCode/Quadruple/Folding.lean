import FormulaCode.Operator.Evaluation
import FormulaCode.Quadruple.Basic

/-! # Constant folding

A pass computes every quadruple with two literal operands, drops them, and puts their
results in the place of the references to them. Passes follow each other until nothing can
be computed. A pass that would drop everything keeps its list and notes the types of the
results instead. -/

namespace FormulaCode.Quadruple

/-- The outcome of folding: what is left, and what the passes before it dropped. -/
structure Folded where
  quadruples : List Quadruple
  passes : Nat
  dropped : Nat
deriving DecidableEq, Repr

/-- Computes the quadruples with two literal operands, in order, on top of known results. -/
def computeConstants (known : Results Literal) :
    List Quadruple → Except EvalError (Results Literal)
  | [] => .ok known
  | q :: qs =>
      match q.literals? with
      | none => computeConstants known qs
      | some (l, r) => do
          let value ← q.operator.apply l r
          computeConstants (known.insert q.id value) qs

/-- Drops the quadruples with known results and resolves the references to them. -/
def withoutConstants (qs : List Quadruple) (known : Results Literal) : List Quadruple :=
  (qs.filter fun q => !known.contains q.id).map (·.resolve known)

/-- Notes the type of a known result. -/
def noteType (known : Results Literal) (q : Quadruple) : Quadruple :=
  match known.get? q.id with
  | some value => { q with resultType := value.dataType }
  | none => q

/-- The computed ids are those known before and those of the quadruples with two literals. -/
theorem contains_computeConstants_iff {known results : Results Literal} {qs : List Quadruple}
    (h : computeConstants known qs = .ok results) {id : Nat} :
    results.contains id = true ↔
      known.contains id = true ∨ ∃ q ∈ qs, q.id = id ∧ q.literals?.isSome = true := by
  induction qs generalizing known with
  | nil =>
      obtain rfl := Except.ok.inj h
      simp
  | cons q qs ih =>
      simp only [computeConstants] at h
      split at h
      · next hlit => simp [ih h, hlit]
      · next l r hlit =>
          cases ha : q.operator.apply l r with
          | error e => simp [ha, bind, Except.bind] at h
          | ok value =>
              simp only [ha, bind, Except.bind] at h
              simp only [ih h, Results.contains_insert, Bool.or_eq_true, decide_eq_true_eq,
                List.mem_cons, or_and_right, exists_or, exists_eq_left, hlit, Option.isSome_some,
                and_true]
              rw [or_comm (a := id = q.id), or_assoc, eq_comm (a := id)]

/-- A pass that computes something leaves a shorter list. -/
theorem length_withoutConstants_lt {qs : List Quadruple} {known : Results Literal}
    (h : computeConstants .empty qs = .ok known) (hne : known.isEmpty = false) :
    (withoutConstants qs known).length < qs.length := by
  obtain ⟨id, hid⟩ := Results.exists_contains_of_isEmpty_eq_false hne
  rcases (contains_computeConstants_iff h).1 hid with hk | ⟨q, hq, rfl, -⟩
  · simp [Results.contains] at hk
  · simp only [withoutConstants, List.length_map]
    apply List.length_filter_lt_length_iff_exists.2
    exact ⟨q, hq, by simp [hid]⟩

/-- Folds until no quadruple has two literal operands, or only such quadruples are left. -/
def fold (qs : List Quadruple) : Except EvalError Folded :=
  match _h : computeConstants .empty qs with
  | .error e => .error e
  | .ok known =>
      if _hne : known.isEmpty then .ok ⟨qs, 0, 0⟩
      else if (withoutConstants qs known).isEmpty then .ok ⟨qs.map (noteType known), 0, 0⟩
      else do
        let rest ← fold (withoutConstants qs known)
        return ⟨rest.quadruples, rest.passes + 1, rest.dropped + known.size⟩
termination_by qs.length
decreasing_by exact length_withoutConstants_lt _h (by simpa using _hne)

end FormulaCode.Quadruple
