import FormulaCode.Proofs.FoldEquivalence

/-! # Folding reaches a fixed point

Folding of any list goes from pass to pass, and each pass leaves a shorter list, so the passes
come to an end. What is left then has no quadruple with two literals, or nothing but ids of such
quadruples, and folding it again changes nothing. Ids may be repeated and references may go
anywhere: one id can name a quadruple that is computed and one that is not, and a pass drops
both. -/

namespace FormulaCode.Quadruple

variable {known results : Results Literal} {qs rs : List Quadruple} {o : Folded}

/-- A pass that leaves something takes a list to what it leaves. -/
inductive Pass (qs : List Quadruple) : List Quadruple → Prop
  | mk {known : Results Literal} (hk : computeConstants .empty qs = .ok known)
      (he : known.isEmpty = false) (hw : withoutConstants qs known ≠ []) :
      Pass qs (withoutConstants qs known)

theorem Pass.length_lt (h : Pass qs rs) : rs.length < qs.length := by
  cases h with
  | mk hk he _ => exact length_withoutConstants_lt hk he

/-- Folding takes a pass where there is one, and counts it with what it computes. -/
theorem Pass.exists_fold_eq (h : Pass qs rs) : ∃ n, fold qs =
    fold rs >>= fun rest => .ok ⟨rest.quadruples, rest.passes + 1, rest.dropped + n⟩ := by
  cases h with
  | @mk known hk he hw =>
      exact ⟨known.size, by rw [fold_of_ok hk, if_neg (Bool.eq_false_iff.1 he), if_neg hw]⟩

/-- Where there is no pass to take, folding ends. -/
theorem fold_of_no_pass (h : ∀ rs, ¬Pass qs rs) :
    (∃ e, fold qs = .error e) ∨ ∃ ps, fold qs = .ok ⟨ps, 0, 0⟩ := by
  cases hk : computeConstants .empty qs with
  | error e => exact Or.inl ⟨e, fold_of_error hk⟩
  | ok known =>
      right
      rw [fold_of_ok hk]
      split
      · exact ⟨_, rfl⟩
      · next he =>
          split
          · exact ⟨_, rfl⟩
          · next hw => exact absurd (Pass.mk hk (Bool.eq_false_iff.2 he) hw) (h _)

/-- After `n` passes a list has lost `n` quadruples at least. -/
theorem length_add_le_of_passes {f : Nat → List Quadruple} {n : Nat}
    (h : ∀ i < n, Pass (f i) (f (i + 1))) : (f n).length + n ≤ (f 0).length := by
  induction n with
  | zero => exact Nat.le_refl _
  | succ n ih =>
      have hlast := (h n (Nat.lt_succ_self n)).length_lt
      have hbefore := ih fun i hi => h i (Nat.lt_succ_of_lt hi)
      omega

/-- Passes cannot follow each other for longer than the list has quadruples. -/
theorem exists_not_pass (f : Nat → List Quadruple) :
    ∃ n ≤ (f 0).length, ¬Pass (f n) (f (n + 1)) := by
  by_contra hall
  simp only [not_exists, not_and, not_not] at hall
  have hlen : (f ((f 0).length + 1)).length + ((f 0).length + 1) ≤ (f 0).length :=
    length_add_le_of_passes fun i hi => hall i (Nat.le_of_lt_succ hi)
  omega

theorem literals?_noteType (q : Quadruple) : (noteType known q).literals? = q.literals? :=
  apply_noteType (fun _ _ => rfl) q

theorem operator_noteType (q : Quadruple) : (noteType known q).operator = q.operator :=
  apply_noteType (fun _ _ => rfl) q

/-- Noted types play no role in a pass. -/
theorem computeConstants_noteType :
    computeConstants results (qs.map (noteType known)) = computeConstants results qs := by
  induction qs generalizing results with
  | nil => rfl
  | cons q qs ih =>
      simp only [List.map_cons, computeConstants, literals?_noteType, operator_noteType,
        noteType_id, ih]

theorem noteType_noteType (q : Quadruple) :
    noteType known (noteType known q) = noteType known q := by
  cases hv : known.get? q.id with
  | none => simp [noteType, hv]
  | some v => simp [noteType, hv]

/-- A pass leaves nothing exactly when it knows a result for every id. -/
theorem withoutConstants_eq_nil_iff_forall :
    withoutConstants qs known = [] ↔ ∀ q ∈ qs, known.contains q.id = true := by
  simp [withoutConstants]

namespace Folds

/-- Every pass computes something. -/
theorem passes_le_dropped (h : Folds qs o) : o.passes ≤ o.dropped := by
  induction h with
  | nothing | everything => exact Nat.le_refl _
  | pass _ he _ _ ih =>
      have := Results.size_pos he
      simp only
      omega

theorem ids_sublist (h : Folds qs o) :
    (o.quadruples.map Quadruple.id).Sublist (qs.map Quadruple.id) := by
  induction h with
  | nothing => exact List.Sublist.refl _
  | everything => simp [Function.comp_def]
  | pass _ _ _ _ ih => exact ih.trans ids_withoutConstants_sublist

/-- Folding leaves something of every list but the empty one. -/
theorem eq_nil (h : Folds qs o) (ho : o.quadruples = []) : qs = [] := by
  induction h with
  | nothing => exact ho
  | everything => exact List.map_eq_nil_iff.1 ho
  | pass _ _ hw _ ih => exact absurd (ih ho) hw

/-- What is left has no constants, or nothing but ids of constants. -/
theorem normal (h : Folds qs o) :
    (∀ q ∈ o.quadruples, q.literals? = none) ∨
      ∀ q ∈ o.quadruples, ∃ p ∈ o.quadruples, p.id = q.id ∧ p.literals?.isSome = true := by
  induction h with
  | @nothing qs known hk he =>
      left
      intro q hq
      have hnot := Results.contains_eq_false_of_isEmpty he q.id
      rw [Bool.eq_false_iff, Ne, contains_computeConstants_iff hk] at hnot
      simp only [not_or, not_exists, not_and] at hnot
      exact Option.not_isSome_iff_eq_none.1 (hnot.2 q hq rfl)
  | @everything qs known hk _ hw =>
      right
      intro noted hnoted
      obtain ⟨q, hq, rfl⟩ := List.mem_map.1 hnoted
      have hknown := withoutConstants_eq_nil_iff_forall.1 hw q hq
      rcases (contains_computeConstants_iff hk).1 hknown with hnone | ⟨p, hp, hid, hlit⟩
      · simp [Results.contains] at hnone
      · refine ⟨_, List.mem_map_of_mem hp, ?_, ?_⟩
        · rw [noteType_id, noteType_id, hid]
        · rw [literals?_noteType, hlit]
  | pass _ _ _ _ ih => exact ih

/-- What is left folds to itself, with nothing computed. -/
theorem again (h : Folds qs o) : Folds o.quadruples ⟨o.quadruples, 0, 0⟩ := by
  induction h with
  | nothing hk he => exact nothing hk he
  | @everything qs known hk he hw =>
      have hk' : computeConstants .empty (qs.map (noteType known)) = .ok known := by
        rw [computeConstants_noteType, hk]
      have hw' : withoutConstants (qs.map (noteType known)) known = [] := by
        rw [withoutConstants_eq_nil_iff_forall] at hw ⊢
        simpa using hw
      have hself : (qs.map (noteType known)).map (noteType known) = qs.map (noteType known) := by
        simp [Function.comp_def, noteType_noteType]
      have hfolds := everything hk' he hw'
      rwa [hself] at hfolds
  | pass _ _ _ _ ih => exact ih

end Folds

/-- Folding is a loop over passes, and the loop ends. -/
structure PassesEnd (qs : List Quadruple) : Prop where
  fold_of_pass : ∀ rs, Pass qs rs → ∃ n, fold qs =
    fold rs >>= fun rest => .ok ⟨rest.quadruples, rest.passes + 1, rest.dropped + n⟩
  fold_of_no_pass : (∀ rs, ¬Pass qs rs) →
    (∃ e, fold qs = .error e) ∨ ∃ ps, fold qs = .ok ⟨ps, 0, 0⟩
  ends : ∀ f : Nat → List Quadruple, f 0 = qs → ∃ n ≤ qs.length, ¬Pass (f n) (f (n + 1))

/-- An outcome of folding that further folding does not change. -/
structure Settled (qs : List Quadruple) (o : Folded) : Prop where
  passes_le : o.passes ≤ o.dropped
  ids : (o.quadruples.map Quadruple.id).Sublist (qs.map Quadruple.id)
  eq_nil : o.quadruples = [] → qs = []
  normal : (∀ q ∈ o.quadruples, q.literals? = none) ∨
    ∀ q ∈ o.quadruples, ∃ p ∈ o.quadruples, p.id = q.id ∧ p.literals?.isSome = true
  again : fold o.quadruples = .ok ⟨o.quadruples, 0, 0⟩
  length : (qs.map Quadruple.id).Nodup → o.dropped + o.quadruples.length = qs.length

/-- Folding of any list ends, and where it has an outcome the outcome is settled. -/
theorem fold_settles (qs : List Quadruple) :
    PassesEnd qs ∧ ∀ o, fold qs = .ok o → Settled qs o := by
  constructor
  · refine ⟨fun rs h => h.exists_fold_eq, fold_of_no_pass, ?_⟩
    rintro f rfl
    exact exists_not_pass f
  · intro o ho
    have h := Folds.of_fold ho
    exact
      { passes_le := h.passes_le_dropped
        ids := h.ids_sublist
        eq_nil := h.eq_nil
        normal := h.normal
        again := h.again.fold_eq
        length := h.dropped_add_length }

/-- Two quadruples with one id, of which only the first can be computed. -/
def sharedId : List Quadruple :=
  [⟨1, .literal (.number "1"), .literal (.number "2"), .add, .any⟩,
    ⟨1, .var "x" .any, .result 1, .add, .any⟩]

/-- A product of a sum and a result that no quadruple computes. -/
def danglingProduct : List Quadruple :=
  [⟨1, .literal (.number "1"), .literal (.number "2"), .add, .any⟩,
    ⟨2, .result 1, .result 3, .times, .any⟩]

/-- With a shared id nothing is dropped and both types are noted; with distinct ids the sum is
dropped and the product stays. -/
theorem fold_settles_sharedId :
    (∃ o, fold sharedId = .ok o ∧ o.quadruples.map Quadruple.resultType = [.number, .number] ∧
      fold o.quadruples = .ok ⟨o.quadruples, 0, 0⟩) ∧
    ∃ o, fold danglingProduct = .ok o ∧ o.dropped = 1 ∧
      o.dropped + o.quadruples.length = danglingProduct.length := by
  have shared : fold sharedId = .ok
      ⟨[⟨1, .literal (.number "1"), .literal (.number "2"), .add, .number⟩,
        ⟨1, .var "x" .any, .result 1, .add, .number⟩], 0, 0⟩ := by decide +kernel
  have dangling : fold danglingProduct = .ok
      ⟨[⟨2, .literal (.number "3"), .result 3, .times, .any⟩], 1, 1⟩ := by decide +kernel
  exact ⟨⟨_, shared, rfl, ((fold_settles sharedId).2 _ shared).again⟩,
    ⟨_, dangling, rfl, ((fold_settles danglingProduct).2 _ dangling).length (by decide)⟩⟩

end FormulaCode.Quadruple
