import FormulaCode.Proofs.FoldedCode
import FormulaCode.Proofs.InferenceCompleteness

/-! # Folding and inference

Inference on folded code reads the type of a literal where inference on the whole code infers
the type of a closed node. The two agree wherever the table of types declares what evaluation
computes, and that is everywhere except at the minus between texts. So the two inferences run
in step until one of them comes to the quadruple of a closed node that joins texts by a
minus, and there the inference on the whole code stops. -/

namespace FormulaCode

open Quadruple

/-- Inference on top of earlier results comes to the quadruple of a closed node that joins two
texts by a minus, and stops there. -/
def StopsAtMinus (t : Tree) (T : Bindings DataType) (done : Results DataType)
    (qs : List Quadruple) : Prop :=
  ∃ q u d, Reaches .types T done qs q d ∧ Codes t.node? u q ∧ u.isClosed = true ∧
    q.operator = .minus ∧ q.value .types T d = .error .minusOfTexts

section Steps

variable {t : Tree} {k : Nat} {T : Bindings DataType} {seen : List Nat}
  {done done' : Results DataType}

/-- One quadruple: the type of a known value is inferred from its node, or the node joins texts
by a minus. -/
theorem Codes.types_value_of_known {u : Side} {q : Quadruple} {v : Literal}
    (hc : Codes t.node? u q) (hv : (t.constants k).get? q.id = some v)
    (hp : KeepsPace .types (t.constants k) seen done done')
    (hq : ∀ i, q.refersTo i = true → i ∈ seen) :
    q.value .types T done = .ok v.dataType ∨
      (u.isClosed = true ∧ q.operator = .minus ∧
        q.value .types T done = .error .minusOfTexts) := by
  rw [Tree.get?_constants_of_node hc.node] at hv
  obtain ⟨l, r, ha, hl, hr⟩ := hc.applies
  obtain ⟨a, b, hla, hrb, happ⟩ :=
    ha.valueWithin_succ_eq_some_iff.1 (Side.valueWithin_succ_of_eq_some hv)
  -- Its operands stand as literals in the folded code, so `value_resolve` gives their types.
  have hlit := (literals?_resolve (Tree.get?_constants t k) hl hr).2 ⟨hla, hrb⟩
  obtain ⟨htype, hi⟩ := Operator.inferType_of_apply happ
  have hval : q.value .types T done =
      (q.operator.inferType a.dataType).mapError .evaluation := by
    rw [← value_resolve hp hq, value_of_literals? hlit, resolve_operator]
    change (Interpretation.types.combine _ a.dataType b.dataType).mapError _ = _
    rw [← htype, Interpretation.types_combine_self]
  rcases hi with ⟨hm, ht⟩ | hi
  · refine Or.inr ⟨Side.isClosed_of_value? (Side.valueWithin_eq_some_iff.1 hv).2, hm, ?_⟩
    rw [hval, hm, ht]
    rfl
  · exact Or.inl (by rw [hval, hi, mapError_ok])

/-- Every list: what goes on from states that keep pace ends in the same way after both
inferences, unless the one on the whole list stops. -/
theorem runFrom_types_withoutConstants {β : Type} {qs : List Quadruple}
    (hc : ∀ q ∈ qs, ∃ u, Codes t.node? u q) (hb : Program.referencesBackward seen qs = true)
    (h : KeepsPace .types (t.constants k) seen done done')
    (f f' : Results DataType → Except RunError β)
    (hf : ∀ d d', KeepsPace .types (t.constants k) ((qs.map Quadruple.id).reverse ++ seen) d d' →
      f d = f' d') :
    (runFrom .types T done' (withoutConstants qs (t.constants k)) >>= f') =
        runFrom .types T done qs >>= f ∨ StopsAtMinus t T done qs := by
  induction qs generalizing seen done done' with
  | nil => exact Or.inl (hf done done' h).symm
  | cons q qs ih =>
      obtain ⟨hq, hb⟩ := referencesBackward_cons.1 hb
      obtain ⟨u, hu⟩ := hc q List.mem_cons_self
      have hc' : ∀ p ∈ qs, ∃ u, Codes t.node? u p := fun p hp => hc p (List.mem_cons_of_mem q hp)
      have hf' : ∀ d d', KeepsPace .types (t.constants k)
          ((qs.map Quadruple.id).reverse ++ q.id :: seen) d d' → f d = f' d' := by
        intro d d' hd
        apply hf
        simpa using hd
      have later : ∀ {a}, q.value .types T done = .ok a →
          StopsAtMinus t T (done.insert q.id a) qs → StopsAtMinus t T done (q :: qs) := by
        rintro a ha ⟨p, w, d, hreach, hrest⟩
        exact ⟨p, w, d, .later ha hreach, hrest⟩
      -- Only a known result can tell the two apart: the folded code has no step for it.
      cases hv : (t.constants k).get? q.id with
      | some v =>
          rcases hu.types_value_of_known hv h hq with ha | ⟨hcl, hm, hstop⟩
          · rw [withoutConstants_cons_known hv, runFrom_cons, ha, ok_bind]
            exact (ih hc' hb (h.insert_known hv) hf').imp_right (later ha)
          · exact Or.inr ⟨q, u, done, .here, hu, hcl, hm, hstop⟩
      | none =>
          rw [withoutConstants_cons_unknown hv, runFrom_cons, runFrom_cons, value_resolve h hq]
          cases ha : q.value .types T done with
          | error e => exact Or.inl rfl
          | ok a => exact (ih hc' hb (h.insert_unknown hv a) hf').imp_right (later ha)

end Steps

theorem StopsAtMinus.append {t : Tree} {T : Bindings DataType} {done : Results DataType}
    {ps : List Quadruple} (h : StopsAtMinus t T done ps) (qs : List Quadruple) :
    StopsAtMinus t T done (ps ++ qs) := by
  obtain ⟨q, u, d, hreach, hrest⟩ := h
  exact ⟨q, u, d, hreach.append qs, hrest⟩

/-- The inference that stops has the error of the minus between texts. -/
theorem StopsAtMinus.run_eq {t : Tree} {T : Bindings DataType} {qs : List Quadruple}
    (h : StopsAtMinus t T .empty qs) : run .types T qs = .error .minusOfTexts := by
  obtain ⟨q, u, d, hreach, -, -, -, hstop⟩ := h
  rw [run, hreach.runFrom_eq hstop, error_bind]

/-- Inference on what folding leaves of a tree ends as it does on the whole code, unless that
one stops. -/
theorem Tree.EndsAt.run_types {t : Tree} {qs rest : List Quadruple} {k : Nat}
    (hq : t.generate = .ok qs) (h : t.EndsAt qs k rest) (T : Bindings DataType) :
    run .types T rest = run .types T qs ∨ StopsAtMinus t T .empty qs := by
  have hrest : run .types T rest = run .types T (withoutConstants qs (t.constants k)) := by
    have htypes := runFrom_map .types T (f := fun q => { q with resultType := t.foldedType })
      (fun _ => rfl) (fun _ _ => rfl) .empty (withoutConstants qs (t.constants k))
    rw [h.quadruples, run, htypes, run]
  have hthread := threaded_of_generate hq
  rw [hrest]
  rcases List.eq_nil_or_concat qs with rfl | ⟨body, last, rfl⟩
  · exact absurd rfl hthread.ne_nil
  · rw [List.concat_eq_append] at hq hthread ⊢
    have hid : last.id = t.nodeCount := by
      rw [(numbered_of_generate hq).id_last, ← length_nodes_root,
        (codes_of_generate hq).length_eq, List.length_append, List.length_singleton]
      omega
    have hlast : (t.constants k).get? last.id = none := by
      rw [hid, get?_constants_of_node (node?_nodeCount t), h.stage.root]
    obtain ⟨hbody, hback⟩ := referencesBackward_append.1 hthread.backward
    rw [withoutConstants_append, withoutConstants_cons_unknown hlast, withoutConstants_nil,
      run_concat, run_concat]
    refine (runFrom_types_withoutConstants
      (fun q hmem => exists_node hq (List.mem_append_left _ hmem)) hbody
      (fun _ hk => by cases hk) _ _ fun d d' hd => ?_).imp_right (·.append [last])
    exact (value_resolve hd (referencesBackward_cons.1 hback).1).symm

/-- Folding does not change what is inferred, except where inference on the unfolded program
stops at a closed node that joins two texts by a minus. So a type of the unfolded program is
the type of the folded one. -/
theorem infer_compile_fold {source : String} {p' : Program}
    (h : compile source { enableConstantFolding := true } = .ok p') :
    ∃ t p, Tree.parse source = .ok t ∧
      compile source { enableConstantFolding := false } = .ok p ∧ ∀ T : Bindings DataType,
        (p'.infer T = p.infer T ∨
          (p.infer T = .error (.evaluation (.unsupportedType .minus .text)) ∧
            StopsAtMinus t T .empty p.quadruples)) ∧
        ∀ type, p.infer T = .ok type → p'.infer T = .ok type := by
  obtain ⟨t, qs, ht, hq⟩ := exists_generate_of_compile h
  obtain ⟨o, ho, rfl⟩ := (compile_folded_eq_ok_iff ht hq).1 h
  refine ⟨t, _, ht, compile_unfolded ht hq, fun T => ?_⟩
  have hcases : run .types T o.quadruples = run .types T qs ∨
      (run .types T qs = .error .minusOfTexts ∧ StopsAtMinus t T .empty qs) :=
    ((Tree.endsAt_of_folds hq ho).run_types hq T).imp_right fun hstop => ⟨hstop.run_eq, hstop⟩
  refine ⟨hcases, fun type htype => ?_⟩
  rcases hcases with hsame | ⟨hstop, -⟩
  · exact hsame.trans htype
  · cases hstop.symm.trans htype

/-- Two texts joined by a minus and compared with a variable. -/
def joinedTexts : String := "('a'-'b')=x"

theorem parse_joinedTexts : Tree.parse joinedTexts = .ok
    ⟨.nested (.literal (.text "a")) .minus (.literal (.text "b")), .eq, .var "x" .any⟩ := by
  have scanned : Token.scan joinedTexts = .ok
      [.group [.literal (.text "a"), .operator "-", .literal (.text "b")], .operator "=",
        .var "x"] := by decide +kernel
  have joined : Derives (.minus :: Operator.minus.tighter)
      ([.literal (.text "a")] ++ .operator "-" :: [.literal (.text "b")]) _ :=
    .operate rfl .literal .literal
  have compared : Derives (.eq :: Operator.eq.tighter)
      ([.group [.literal (.text "a"), .operator "-", .literal (.text "b")]] ++
        .operator "=" :: [.var "x"]) _ :=
    .operate rfl joined.enclose .var
  rw [Tree.parse, scanned]
  exact (compared.ofTokens_eq (by decide)).2

/-- Here the two inferences differ: with a text for the variable the folded program compares
two texts, and the unfolded one stops at the minus. -/
theorem infer_compile_fold_joinedTexts :
    ∃ t p p', Tree.parse joinedTexts = .ok t ∧
      compile joinedTexts { enableConstantFolding := true } = .ok p' ∧
      compile joinedTexts { enableConstantFolding := false } = .ok p ∧
      p'.infer (fun _ => some .text) = .ok .bool ∧
      p.infer (fun _ => some .text) = .error (.evaluation (.unsupportedType .minus .text)) ∧
      StopsAtMinus t (fun _ => some .text) .empty p.quadruples := by
  have folds : fold
      [⟨1, .literal (.text "a"), .literal (.text "b"), .minus, .any⟩,
        ⟨2, .result 1, .var "x" .any, .eq, .any⟩] =
      .ok ⟨[⟨2, .literal (.text "ab"), .var "x" .any, .eq, .any⟩], 1, 1⟩ := by decide +kernel
  have folded := (compile_folded_eq_ok_iff parse_joinedTexts rfl).2 ⟨_, .of_fold folds, rfl⟩
  obtain ⟨t, p, ht, hp, h⟩ := infer_compile_fold folded
  refine ⟨t, p, _, ht, folded, hp, rfl, ?_⟩
  rcases (h fun _ => some .text).1 with hsame | hstop
  · obtain rfl := Except.ok.inj ((compile_unfolded parse_joinedTexts rfl).symm.trans hp)
    have hne : (Except.ok .bool : Except RunError DataType) = .error .minusOfTexts := hsame
    cases hne
  · exact hstop

end FormulaCode
