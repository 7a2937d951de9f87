import FormulaCode.Proofs.Linking
import FormulaCode.Proofs.Runs
import FormulaCode.Quadruple.Folding

/-! # One pass of folding

A pass is described by the results it knows: each of them is the value of a quadruple with
two literal operands. A run of the remaining quadruples keeps pace with a run of the whole
list, because a result that is missing in the one stands as a literal in the references of
the other. On threaded lists a pass keeps the last quadruple unless it drops everything, so
the result of the run is the same, and what remains is threaded again. -/

namespace FormulaCode

variable {α : Type}

theorem Results.size_insert {α : Type} {r : Results α} {id : Nat} (h : r.get? id = none) (a : α) :
    (r.insert id a).size = r.size + 1 := by
  have hall : ∀ e ∈ r.entries, (e.1 != id) = true := by
    simpa [Results.get?] using h
  rw [size, insert, List.filter_eq_self.2 hall, List.length_cons, size]

namespace Quadruple

theorem literals?_eq_some_iff {q : Quadruple} {l r : Literal} :
    q.literals? = some (l, r) ↔ q.left = .literal l ∧ q.right = .literal r := by
  obtain ⟨id, left, right, o, t⟩ := q
  cases left <;> cases right <;> simp [literals?, Operand.literal?]

/-- A quadruple with two literals refers to nothing. -/
theorem refersTo_eq_false {q : Quadruple} {l r : Literal} (h : q.literals? = some (l, r)) (k : Nat) :
    q.refersTo k = false := by
  obtain ⟨hl, hr⟩ := literals?_eq_some_iff.1 h
  rw [Bool.eq_false_iff]
  intro hk
  rcases refersTo_iff.1 hk with hk | hk
  · simp [hl, Operand.reference?] at hk
  · simp [hr, Operand.reference?] at hk

/-- The value of a quadruple with two literals is the same in every run. -/
theorem value_of_literals? {q : Quadruple} {l r : Literal} (h : q.literals? = some (l, r))
    (I : Interpretation α) (env : Bindings α) (done : Results α) :
    q.value I env done =
      (I.combine q.operator (I.ofLiteral l) (I.ofLiteral r)).mapError .evaluation := by
  obtain ⟨hl, hr⟩ := literals?_eq_some_iff.1 h
  simp [value, hl, hr, Operand.value]

section Constants

variable {known results : Results Literal} {q : Quadruple} {qs : List Quadruple}

/-- A pass computes nothing under other ids than those of its list. -/
theorem get?_computeConstants (h : computeConstants known qs = .ok results) {k : Nat}
    (hk : k ∉ qs.map Quadruple.id) : results.get? k = known.get? k := by
  induction qs generalizing known with
  | nil =>
      obtain rfl := Except.ok.inj h
      rfl
  | cons q qs ih =>
      simp only [List.map_cons, List.mem_cons, not_or] at hk
      simp only [computeConstants] at h
      split at h
      · exact ih h hk.2
      · obtain ⟨v, -, h⟩ := bind_eq_ok_iff.1 h
        rw [ih h hk.2, Results.get?_insert, if_neg hk.1]

/-- When no id is repeated, a pass knows the results of the quadruples with two literals and
no others. -/
theorem get?_of_computeConstants (hids : (qs.map Quadruple.id).Nodup)
    (h : computeConstants known qs = .ok results) (hq : q ∈ qs) :
    (q.literals? = none ∧ results.get? q.id = known.get? q.id) ∨
      ∃ l r v, q.literals? = some (l, r) ∧ q.operator.apply l r = .ok v ∧
        results.get? q.id = some v := by
  induction qs generalizing known with
  | nil => cases hq
  | cons p qs ih =>
      obtain ⟨hp, hids⟩ := List.nodup_cons.1 hids
      simp only [computeConstants] at h
      split at h
      · next hlit =>
          rcases List.mem_cons.1 hq with rfl | hq
          · exact Or.inl ⟨hlit, get?_computeConstants h hp⟩
          · exact ih hids h hq
      · next l r hlit =>
          obtain ⟨v, hv, h⟩ := bind_eq_ok_iff.1 h
          rcases List.mem_cons.1 hq with rfl | hq
          · refine Or.inr ⟨l, r, v, hlit, hv, ?_⟩
            rw [get?_computeConstants h hp, Results.get?_insert, if_pos rfl]
          · have hne : q.id ≠ p.id := fun he => hp (he ▸ List.mem_map_of_mem hq)
            have := ih hids h hq
            rwa [Results.get?_insert, if_neg hne] at this

/-- A pass knows one result for each quadruple that it drops. -/
theorem size_computeConstants (hids : (qs.map Quadruple.id).Nodup)
    (hnew : ∀ q ∈ qs, known.get? q.id = none) (h : computeConstants known qs = .ok results) :
    results.size = known.size + qs.countP (fun q => results.contains q.id) := by
  induction qs generalizing known with
  | nil =>
      obtain rfl := Except.ok.inj h
      rfl
  | cons q qs ih =>
      obtain ⟨hq, hids⟩ := List.nodup_cons.1 hids
      have hqn := hnew q List.mem_cons_self
      have htail : ∀ p ∈ qs, known.get? p.id = none :=
        fun p hp => hnew p (List.mem_cons_of_mem q hp)
      simp only [computeConstants] at h
      split at h
      · have hc : results.contains q.id = false := by
          rw [Results.contains, get?_computeConstants h hq, hqn, Option.isSome_none]
        rw [ih hids htail h, List.countP_cons, hc]
        rfl
      · obtain ⟨v, -, h⟩ := bind_eq_ok_iff.1 h
        have hc : results.contains q.id = true := by
          rw [Results.contains, get?_computeConstants h hq, Results.get?_insert, if_pos rfl,
            Option.isSome_some]
        have htail' : ∀ p ∈ qs, (known.insert q.id v).get? p.id = none := by
          intro p hp
          have hne : p.id ≠ q.id := fun he => hq (he ▸ List.mem_map_of_mem hp)
          rw [Results.get?_insert, if_neg hne, htail p hp]
        rw [ih hids htail' h, Results.size_insert hqn, List.countP_cons, hc, if_pos rfl]
        omega

theorem withoutConstants_nil : withoutConstants [] known = [] := rfl

theorem withoutConstants_cons_known {v : Literal} (h : known.get? q.id = some v) :
    withoutConstants (q :: qs) known = withoutConstants qs known := by
  simp [withoutConstants, Results.contains, h]

theorem withoutConstants_cons_unknown (h : known.get? q.id = none) :
    withoutConstants (q :: qs) known = q.resolve known :: withoutConstants qs known := by
  simp [withoutConstants, Results.contains, h]

theorem withoutConstants_append (ps : List Quadruple) :
    withoutConstants (ps ++ qs) known = withoutConstants ps known ++ withoutConstants qs known := by
  simp [withoutConstants]

/-- A pass drops as many quadruples as it knows results. -/
theorem length_withoutConstants_add_size (hids : (qs.map Quadruple.id).Nodup)
    (h : computeConstants .empty qs = .ok known) :
    (withoutConstants qs known).length + known.size = qs.length := by
  have hsize : known.size = qs.countP (fun q => known.contains q.id) := by
    rw [size_computeConstants hids (fun _ _ => rfl) h]
    exact Nat.zero_add _
  have hlen := qs.length_eq_countP_add_countP fun q => known.contains q.id
  rw [withoutConstants, List.length_map, ← List.countP_eq_length_filter, hsize, hlen]
  simp [Nat.add_comm]

end Constants

end Quadruple

/-- The known results are values, over some interpretation, of quadruples of the list that
have two literal operands. -/
def Certified (I : Interpretation α) (known : Results Literal) (qs : List Quadruple) : Prop :=
  ∀ q ∈ qs, ∀ v, known.get? q.id = some v → ∃ l r, q.literals? = some (l, r) ∧
    I.combine q.operator (I.ofLiteral l) (I.ofLiteral r) = .ok (I.ofLiteral v)

theorem Certified.tail {I : Interpretation α} {known : Results Literal} {q : Quadruple}
    {qs : List Quadruple} (h : Certified I known (q :: qs)) : Certified I known qs :=
  fun p hp => h p (List.mem_cons_of_mem q hp)

/-- Under the ids seen so far, a run of the whole list has the known results and those of a run
of what remains. -/
def KeepsPace (I : Interpretation α) (known : Results Literal) (seen : List Nat)
    (done done' : Results α) : Prop :=
  ∀ k ∈ seen, done.get? k = ((known.get? k).map I.ofLiteral).or (done'.get? k)

section Pace

variable {I : Interpretation α} {env : Bindings α} {known : Results Literal} {seen : List Nat}
  {done done' : Results α}

theorem KeepsPace.insert_known (h : KeepsPace I known seen done done') {id : Nat} {v : Literal}
    (hv : known.get? id = some v) :
    KeepsPace I known (id :: seen) (done.insert id (I.ofLiteral v)) done' := by
  intro k hk
  rw [Results.get?_insert]
  split
  · next he => simp [he, hv]
  · next hne => exact h k ((List.mem_cons.1 hk).resolve_left hne)

theorem KeepsPace.insert_unknown (h : KeepsPace I known seen done done') {id : Nat}
    (hn : known.get? id = none) (a : α) :
    KeepsPace I known (id :: seen) (done.insert id a) (done'.insert id a) := by
  intro k hk
  rw [Results.get?_insert, Results.get?_insert]
  split
  · next he => simp [he, hn]
  · next hne => exact h k ((List.mem_cons.1 hk).resolve_left hne)

/-- A resolved operand stands for what the operand stands for in the run of the whole list. -/
theorem Operand.value_resolve (h : KeepsPace I known seen done done') {x : Operand}
    (hx : ∀ k, x.reference? = some k → k ∈ seen) :
    (x.resolve known).value I env done' = x.value I env done := by
  cases x with
  | literal v => rfl
  | var name t => rfl
  | result k =>
      have hk := h k (hx k rfl)
      cases hv : known.get? k with
      | none => simp_all [Operand.resolve, Operand.value, Results.load]
      | some v => simp_all [Operand.resolve, Operand.value, Results.load]

theorem Quadruple.value_resolve (h : KeepsPace I known seen done done') {q : Quadruple}
    (hq : ∀ k, q.refersTo k = true → k ∈ seen) :
    (q.resolve known).value I env done' = q.value I env done := by
  have hl : (q.left.resolve known).value I env done' = q.left.value I env done :=
    Operand.value_resolve h fun k hk => hq k (refersTo_iff.2 (Or.inl hk))
  have hr : (q.right.resolve known).value I env done' = q.right.value I env done :=
    Operand.value_resolve h fun k hk => hq k (refersTo_iff.2 (Or.inr hk))
  simp only [Quadruple.value, Quadruple.resolve, hl, hr]

/-- A run of what a pass leaves keeps pace with the run of the whole list: whatever goes on
from states that keep pace ends in the same way after both. -/
theorem runFrom_withoutConstants {β : Type} {qs : List Quadruple} (hc : Certified I known qs)
    (hb : Program.referencesBackward seen qs = true) (h : KeepsPace I known seen done done')
    (f f' : Results α → Except RunError β)
    (hf : ∀ d d', KeepsPace I known ((qs.map Quadruple.id).reverse ++ seen) d d' → f d = f' d') :
    (runFrom I env done' (Quadruple.withoutConstants qs known) >>= f') =
      runFrom I env done qs >>= f := by
  induction qs generalizing seen done done' with
  | nil => exact (hf done done' h).symm
  | cons q qs ih =>
      obtain ⟨hq, hb⟩ := referencesBackward_cons.1 hb
      have hf' : ∀ d d', KeepsPace I known ((qs.map Quadruple.id).reverse ++ q.id :: seen) d d' →
          f d = f' d' := by
        intro d d' hd
        apply hf
        simpa using hd
      cases hv : known.get? q.id with
      | some v =>
          obtain ⟨l, r, hlit, hcomb⟩ := hc q List.mem_cons_self v hv
          rw [Quadruple.withoutConstants_cons_known hv, runFrom_cons,
            Quadruple.value_of_literals? hlit, hcomb, mapError_ok, ok_bind]
          exact ih hc.tail hb (h.insert_known hv) hf'
      | none =>
          rw [Quadruple.withoutConstants_cons_unknown hv, runFrom_cons, runFrom_cons,
            Quadruple.value_resolve h hq]
          cases q.value I env done with
          | error e => rfl
          | ok a => exact ih hc.tail hb (h.insert_unknown hv a) hf'

end Pace

/-- Resolving takes away the references to known results and no others. -/
theorem Operand.reference?_resolve {known : Results Literal} {x : Operand} {k : Nat} :
    (x.resolve known).reference? = some k ↔ x.reference? = some k ∧ known.get? k = none := by
  cases x with
  | literal v => simp [resolve, reference?]
  | var name t => simp [resolve, reference?]
  | result id =>
      cases hv : known.get? id with
      | none =>
          simp only [resolve, hv, reference?, Option.some.injEq, iff_self_and]
          rintro rfl
          exact hv
      | some v =>
          simp only [resolve, hv, reference?, Option.some.injEq, reduceCtorEq, false_iff, not_and]
          rintro rfl
          simp [hv]

theorem Quadruple.refersTo_resolve {known : Results Literal} {q : Quadruple} {k : Nat} :
    (q.resolve known).refersTo k = true ↔ q.refersTo k = true ∧ known.get? k = none := by
  simp only [refersTo_iff, resolve, Operand.reference?_resolve, or_and_right]

section Threads

variable {I : Interpretation α} {known : Results Literal} {qs later : List Quadruple}

/-- A pass keeps all uses of a result that it does not know. -/
theorem Certified.countP_withoutConstants (hc : Certified I known qs) {k : Nat}
    (hk : known.get? k = none) :
    (Quadruple.withoutConstants qs known).countP (·.refersTo k) = qs.countP (·.refersTo k) := by
  induction qs with
  | nil => rfl
  | cons q qs ih =>
      cases hv : known.get? q.id with
      | some v =>
          obtain ⟨l, r, hlit, -⟩ := hc q List.mem_cons_self v hv
          rw [Quadruple.withoutConstants_cons_known hv, ih hc.tail, List.countP_cons,
            Quadruple.refersTo_eq_false hlit]
          rfl
      | none =>
          have hr : (q.resolve known).refersTo k = q.refersTo k := by
            rw [Bool.eq_iff_iff, Quadruple.refersTo_resolve]
            simp [hk]
          rw [Quadruple.withoutConstants_cons_unknown hv, List.countP_cons, List.countP_cons,
            ih hc.tail, hr]

theorem Linked.withoutConstants (hc : Certified I known (qs ++ later)) (h : Linked later qs) :
    Linked (Quadruple.withoutConstants later known) (Quadruple.withoutConstants qs known) := by
  induction qs with
  | nil => trivial
  | cons q qs ih =>
      have hc' : Certified I known (qs ++ later) := hc.tail
      cases hv : known.get? q.id with
      | some v =>
          rw [Quadruple.withoutConstants_cons_known hv]
          exact ih hc' h.2
      | none =>
          rw [Quadruple.withoutConstants_cons_unknown hv]
          refine ⟨?_, ih hc' h.2⟩
          rw [← Quadruple.withoutConstants_append, Quadruple.resolve_id,
            hc'.countP_withoutConstants hv]
          exact h.1.imp_left fun he => by rw [he, Quadruple.withoutConstants_nil]

/-- References of what remains go back to what remains. -/
theorem referencesBackward_withoutConstants {seen seen' : List Nat}
    (h : Program.referencesBackward seen qs = true)
    (hs : ∀ k ∈ seen, known.get? k = none → k ∈ seen') :
    Program.referencesBackward seen' (Quadruple.withoutConstants qs known) = true := by
  induction qs generalizing seen seen' with
  | nil => rfl
  | cons q qs ih =>
      obtain ⟨hq, h⟩ := referencesBackward_cons.1 h
      cases hv : known.get? q.id with
      | some v =>
          rw [Quadruple.withoutConstants_cons_known hv]
          refine ih h fun k hk hn => ?_
          rcases List.mem_cons.1 hk with rfl | hk
          · simp [hv] at hn
          · exact hs k hk hn
      | none =>
          rw [Quadruple.withoutConstants_cons_unknown hv]
          refine referencesBackward_cons.2 ⟨fun k hk => ?_, ih h fun k hk hn => ?_⟩
          · obtain ⟨hk, hn⟩ := Quadruple.refersTo_resolve.1 hk
            exact hs k (hq k hk) hn
          · rcases List.mem_cons.1 hk with rfl | hk
            · exact List.mem_cons_self
            · exact List.mem_cons_of_mem _ (hs k hk hn)

theorem ids_withoutConstants_sublist :
    ((Quadruple.withoutConstants qs known).map Quadruple.id).Sublist (qs.map Quadruple.id) := by
  have he : (Quadruple.withoutConstants qs known).map Quadruple.id =
      (qs.filter fun q => !known.contains q.id).map Quadruple.id := by
    simp [Quadruple.withoutConstants, Function.comp_def]
  rw [he]
  exact List.filter_sublist.map _

/-- A pass over a threaded list leaves a threaded list, or nothing. -/
theorem Threaded.withoutConstants (h : Threaded qs) (hc : Certified I known qs)
    (hne : Quadruple.withoutConstants qs known ≠ []) :
    Threaded (Quadruple.withoutConstants qs known) where
  ids := h.ids.sublist ids_withoutConstants_sublist
  backward := referencesBackward_withoutConstants h.backward fun _ hk => by cases hk
  linked := Linked.withoutConstants (by simpa using hc) h.linked
  ne_nil := hne

/-- A pass over a threaded list keeps the last quadruple, unless it drops everything. -/
theorem Threaded.get?_last_eq_none {body : List Quadruple} {last : Quadruple}
    (h : Threaded (body ++ [last])) (hc : Certified I known (body ++ [last]))
    (hne : Quadruple.withoutConstants (body ++ [last]) known ≠ []) :
    known.get? last.id = none := by
  cases hv : known.get? last.id with
  | none => rfl
  | some v =>
      obtain ⟨l, r, hlit, -⟩ := hc last (by simp) v hv
      by_cases hb : body = []
      · subst hb
        exact absurd (Quadruple.withoutConstants_cons_known hv) hne
      · obtain ⟨k, hk⟩ := h.linked.exists_refersTo hb
        rw [Quadruple.refersTo_eq_false hlit] at hk
        cases hk

/-- A pass over a threaded list does not change the result of a run, unless it drops
everything. -/
theorem Threaded.run_withoutConstants (h : Threaded qs) (hc : Certified I known qs)
    (hne : Quadruple.withoutConstants qs known ≠ []) (env : Bindings α) :
    run I env (Quadruple.withoutConstants qs known) = run I env qs := by
  rcases List.eq_nil_or_concat qs with rfl | ⟨body, last, rfl⟩
  · exact absurd rfl hne
  · rw [List.concat_eq_append] at h hc hne ⊢
    have hlast := h.get?_last_eq_none hc hne
    obtain ⟨hbody, hback⟩ := referencesBackward_append.1 h.backward
    rw [Quadruple.withoutConstants_append, Quadruple.withoutConstants_cons_unknown hlast,
      Quadruple.withoutConstants_nil, run_concat, run_concat]
    refine runFrom_withoutConstants (fun q hq => hc q (List.mem_append_left _ hq)) hbody
      (fun _ hk => by cases hk) _ _ fun d d' hd => ?_
    exact (Quadruple.value_resolve hd (referencesBackward_cons.1 hback).1).symm

end Threads

end FormulaCode
