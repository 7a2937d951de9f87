import FormulaCode.Proofs.FoldedCode

/-! # Formulas that folding rejects

A pass stops at the first quadruple that fails, and by then all passes before it have values
for the closed nodes that are lower. So folding meets the failures of closed nodes by height,
and those of one height in the order of their quadruples, whereas a run meets them in the order
of the quadruples alone. Folding and running agree on whether there is a failure, but not on
which one is reported. -/

namespace FormulaCode

namespace Side

/-- The trees on the sides of a node. -/
def children : Side → List Side
  | nested l _ r => [l, r].filter isNested
  | _ => []

section Applies

variable {s l r w : Side} {o : Operator}

/-- A node is applied to its children. -/
theorem Applies.eq_of_mem_children (h : s.Applies l o r) (hw : w ∈ s.children) :
    w = l ∨ w = r := by
  cases h with
  | right | left | both =>
      obtain ⟨hmem, hn⟩ := List.mem_filter.mp hw
      simp only [List.mem_cons, List.not_mem_nil, or_false] at hmem
      rcases hmem with rfl | rfl <;> simp_all [isNested]

/-- Once the sides that a node is applied to have values, the operator decides. -/
theorem Applies.meaning_eq {α : Type} {I : Interpretation α} {env : Bindings α}
    (h : s.Applies l o r) {a b : α} (hl : l.meaning I env = .ok a) (hr : r.meaning I env = .ok b) :
    s.meaning I env = (I.combine o a b).mapError .evaluation := by
  cases h with
  | right =>
      obtain rfl : a = b := Except.ok.inj (hl.symm.trans hr)
      rw [meaning_of_left_empty, hl, ok_bind]
  | left hne =>
      obtain rfl : a = b := Except.ok.inj (hl.symm.trans hr)
      rw [meaning_of_right_empty I env _ hne, hl, ok_bind]
  | both hle hre =>
      by_cases hn : l.isNested = false ∧ r.isNested = true
      · rw [meaning_of_right_first I env o hle hn.1 hn.2, hr, ok_bind, hl, ok_bind]
      · rw [meaning_of_left_first I env o hle hre (by cases hln : l.isNested <;> simp_all), hl,
          ok_bind, hr, ok_bind]

end Applies

end Side

namespace Quadruple

/-- A pass that fails stops at a quadruple with two literals, and computes all those before. -/
theorem exists_of_computeConstants_error {known : Results Literal} {qs : List Quadruple}
    {e : EvalError} (h : computeConstants known qs = .error e) :
    ∃ ps q rs l r, qs = ps ++ q :: rs ∧ q.literals? = some (l, r) ∧
      q.operator.apply l r = .error e ∧
      ∀ p ∈ ps, ∀ l r, p.literals? = some (l, r) → ∃ v, p.operator.apply l r = .ok v := by
  induction qs generalizing known with
  | nil => cases h
  | cons q qs ih =>
      -- The first quadruple is passed over or computed; it joins those before the failure.
      have later : ∀ known', computeConstants known' qs = .error e →
          (∀ l r, q.literals? = some (l, r) → ∃ v, q.operator.apply l r = .ok v) →
          ∃ ps p rs l r, q :: qs = ps ++ p :: rs ∧ p.literals? = some (l, r) ∧
            p.operator.apply l r = .error e ∧
            ∀ p ∈ ps, ∀ l r, p.literals? = some (l, r) → ∃ v, p.operator.apply l r = .ok v := by
        intro known' h' hq
        obtain ⟨ps, p, rs, l, r, rfl, hlit, happ, hps⟩ := ih h'
        exact ⟨q :: ps, p, rs, l, r, rfl, hlit, happ, List.forall_mem_cons.mpr ⟨hq, hps⟩⟩
      simp only [computeConstants] at h
      split at h
      · next hnone =>
          apply later known h
          intro l r hlit
          cases hnone.symm.trans hlit
      · next l r hlit =>
          cases happ : q.operator.apply l r with
          | error e' =>
              rw [happ, error_bind] at h
              obtain rfl := Except.error.inj h
              exact ⟨[], q, qs, l, r, rfl, hlit, happ, by simp⟩
          | ok v =>
              rw [happ, ok_bind] at h
              apply later _ h
              intro l' r' hlit'
              obtain ⟨rfl, rfl⟩ := Prod.mk.inj (Option.some.inj (hlit.symm.trans hlit'))
              exact ⟨v, happ⟩

end Quadruple

namespace Tree

open Quadruple

/-- The failure that folding reports: a closed node that fails although its children have
values, with no failing node that is lower, and none of the same height before it. -/
structure FirstFailure (t : Tree) (id : Nat) (u : Side) (e : EvalError) : Prop where
  node : t.node? id = some u
  closed : u.isClosed = true
  fails : u.meaning .values (fun _ => none) = .error (.evaluation e)
  children : ∀ w ∈ u.children, ∃ v, w.value? = some v
  first : ∀ id' u', t.node? id' = some u' → u'.isClosed = true → u'.value? = none →
    u.height < u'.height ∨ u.height = u'.height ∧ id ≤ id'

variable {t : Tree} {id : Nat} {u : Side} {e : EvalError}

theorem FirstFailure.value?_eq_none (h : t.FirstFailure id u e) : u.value? = none := by
  rw [Side.value?, h.fails]
  rfl

/-- Folding has one failure to report at most. -/
theorem FirstFailure.unique (h : t.FirstFailure id u e) {id' : Nat} {u' : Side} {e' : EvalError}
    (h' : t.FirstFailure id' u' e') : e = e' := by
  have hle := h.first id' u' h'.node h'.closed h'.value?_eq_none
  have hge := h'.first id u h.node h.closed h.value?_eq_none
  obtain rfl : id = id' := by omega
  obtain rfl := Option.some.inj (h.node.symm.trans h'.node)
  simpa [h.fails] using h'.fails

section Passes

variable {qs : List Quadruple} (hq : t.generate = .ok qs) {k : Nat}
include hq

/-- The ids of a stage grow. -/
theorem pairwise_stage : (withoutConstants qs (t.constants k)).Pairwise (·.id < ·.id) :=
  List.pairwise_map.mp
    ((numbered_of_generate hq).pairwise_lt.sublist ids_withoutConstants_sublist)

/-- A pass that fails reports the first failure: the lower closed nodes have values, and those of
the same height before it are computed. -/
theorem HasValues.exists_firstFailure (hs : t.HasValues k)
    (h : computeConstants .empty (withoutConstants qs (t.constants k)) = .error e) :
    ∃ id u, t.FirstFailure id u e := by
  obtain ⟨ps, w, rs, a, b, hsplit, hlit, happ, hps⟩ := exists_of_computeConstants_error h
  obtain ⟨q, hmem, hnone, rfl⟩ := mem_withoutConstants_iff.mp
    (hsplit ▸ List.mem_append_right ps List.mem_cons_self)
  obtain ⟨u, hc⟩ := exists_node hq hmem
  obtain ⟨l, r, ha, hl, hr⟩ := hc.applies
  obtain ⟨hla, hrb⟩ := (Quadruple.literals?_resolve (get?_constants t k) hl hr).mp hlit
  obtain ⟨hlk, hla⟩ := Side.valueWithin_eq_some_iff.mp hla
  obtain ⟨hrk, hrb⟩ := Side.valueWithin_eq_some_iff.mp hrb
  have hcl : u.isClosed = true :=
    ha.isClosed_iff.mpr ⟨Side.isClosed_of_value? hla, Side.isClosed_of_value? hrb⟩
  have hfails : u.meaning .values (fun _ => none) = .error (.evaluation e) := by
    rw [ha.meaning_eq (Side.value?_eq_some_iff.mp hla) (Side.value?_eq_some_iff.mp hrb),
      Interpretation.values_combine]
    exact congrArg (Except.mapError RunError.evaluation) happ
  have hle : u.height ≤ k + 1 := by
    rw [ha.height_eq]
    omega
  refine ⟨q.id, u, hc.node, hcl, hfails, ?_, ?_⟩
  · intro w hw
    rcases ha.eq_of_mem_children hw with rfl | rfl
    · exact ⟨a, hla⟩
    · exact ⟨b, hrb⟩
  · intro id' u' hu' hcl' hval'
    have hlow' : k < u'.height := by
      refine Nat.lt_of_not_le fun hle' => ?_
      obtain ⟨v, hv⟩ := hs id' u' hu' hcl' hle'
      cases hval'.symm.trans (Side.valueWithin_eq_some_iff.mp hv).2
    by_cases hheight : u'.height = k + 1
    · obtain ⟨q', l', r', a', b', rfl, hmem', hlit', ha', hla', hrb'⟩ :=
        hs.exists_literals hq hu' hcl' hheight
      -- The quadruple of the other node fails as well, so it does not stand before this one.
      have hnot : q'.resolve (t.constants k) ∉ ps := by
        intro hin
        obtain ⟨v, hv⟩ := hps _ hin a' b' hlit'
        have hsome := Side.value?_eq_some_iff.mpr (ha'.meaning_eq_ok_iff.mpr
          ⟨a', b', Side.value?_eq_some_iff.mp hla', Side.value?_eq_some_iff.mp hrb', hv⟩)
        cases hval'.symm.trans hsome
      have hids := pairwise_stage hq (k := k)
      rw [hsplit] at hmem' hids
      have hbehind := (List.mem_append.mp hmem').resolve_left hnot
      have hle' : q.id ≤ q'.id := by
        rcases List.mem_cons.mp hbehind with heq | hrs
        · exact Nat.le_of_eq (congrArg Quadruple.id heq).symm
        · have hlt := (List.pairwise_cons.mp (List.pairwise_append.mp hids).2.1).1 _ hrs
          exact Nat.le_of_lt hlt
      omega
    · omega

/-- Folding the code of a stage reports the first failure, whichever pass meets it. -/
theorem HasValues.exists_firstFailure_of_fold (hs : t.HasValues k)
    (h : fold (withoutConstants qs (t.constants k)) = .error e) :
    ∃ id u, t.FirstFailure id u e := by
  generalize hw : withoutConstants qs (t.constants k) = ws at h
  induction ws using fold.induct generalizing k with
  | case1 ws e' hk =>
      rw [fold_of_error hk] at h
      obtain rfl := Except.error.inj h
      subst hw
      exact hs.exists_firstFailure hq hk
  | case2 ws known hk he =>
      rw [fold_of_ok hk, if_pos he] at h
      cases h
  | case3 ws known hk he hnil =>
      rw [fold_of_ok hk, if_neg he, if_pos (List.isEmpty_iff.mp hnil)] at h
      cases h
  | case4 ws known hk he hne ih =>
      rw [fold_of_ok hk, if_neg he, if_neg (mt List.isEmpty_iff.mpr hne)] at h
      subst hw
      cases hrest : fold (withoutConstants (withoutConstants qs (t.constants k)) known) with
      | error e' =>
          rw [hrest, error_bind] at h
          obtain rfl := Except.error.inj h
          exact ih (hs.pass hq hk) (withoutConstants_pass hq hk).symm hrest
      | ok rest =>
          rw [hrest, ok_bind] at h
          cases h

/-- Folding the code of a tree fails with the first failure of the tree, if there is one. -/
theorem fold_eq_error_iff : fold qs = .error e ↔ ∃ id u, t.FirstFailure id u e := by
  have report : ∀ e', fold qs = .error e' → ∃ id u, t.FirstFailure id u e' := by
    intro e' h
    apply (hasValues_zero hq).exists_firstFailure_of_fold hq
    rwa [withoutConstants_constants_zero hq]
  constructor
  · exact report e
  · rintro ⟨id, u, hfirst⟩
    cases hfold : fold qs with
    | error e' =>
        obtain ⟨id', u', hfirst'⟩ := report e' hfold
        rw [hfirst.unique hfirst']
    | ok o =>
        have hend := endsAt_of_folds hq (.of_fold hfold)
        obtain ⟨v, hv⟩ := (hend.isClosed_iff (mem_nodes_of_node? hfirst.node)).mp hfirst.closed
        cases hfirst.value?_eq_none.symm.trans hv

/-- Folding fails exactly when a closed node does. -/
theorem exists_fold_error_iff : (∃ e, fold qs = .error e) ↔
    ∃ u ∈ t.root.nodes, u.isClosed = true ∧ ∃ e, u.meaning .values (fun _ => none) = .error e := by
  constructor
  · rintro ⟨e, h⟩
    obtain ⟨id, u, hfirst⟩ := (fold_eq_error_iff hq).mp h
    exact ⟨u, mem_nodes_of_node? hfirst.node, hfirst.closed, _, hfirst.fails⟩
  · rintro ⟨u, hu, hcl, e, hfails⟩
    cases hfold : fold qs with
    | error e' => exact ⟨e', rfl⟩
    | ok o =>
        have hend := endsAt_of_folds hq (.of_fold hfold)
        obtain ⟨v, hv⟩ := (hend.isClosed_iff hu).mp hcl
        cases hfails.symm.trans (Side.value?_eq_some_iff.mp hv)

end Passes

end Tree

open Quadruple

/-- Once a formula has code, compiling fails as folding does. -/
theorem compile_folded_eq_error_iff {source : String} {t : Tree} {qs : List Quadruple}
    (ht : Tree.parse source = .ok t) (hq : t.generate = .ok qs) {e : EvalError} :
    compile source { enableConstantFolding := true } = .error (.evaluation e) ↔
      fold qs = .error e := by
  rw [compile_of_generate ht hq, CompileOptions.fold, if_pos rfl]
  cases fold qs with
  | error e' => simp
  | ok o => simp

/-- A formula that parses is rejected by folding exactly when a closed node of its tree fails on
its own. The error is that of the first failure by height, and then the program without
folding has no value under any bindings. -/
theorem compile_fold_eq_error_iff {source : String} {t : Tree} (h : Tree.parse source = .ok t) :
    ((∃ e, compile source { enableConstantFolding := true } = .error (.evaluation e)) ↔
        ∃ u ∈ t.root.nodes, u.isClosed = true ∧
          ∃ e, u.meaning .values (fun _ => none) = .error e) ∧
      ∀ e, (compile source { enableConstantFolding := true } = .error (.evaluation e) ↔
          ∃ id u, t.FirstFailure id u e) ∧
        (compile source { enableConstantFolding := true } = .error (.evaluation e) →
          ∃ p, compile source { enableConstantFolding := false } = .ok p ∧
            ∀ V, ∃ e', p.evaluate V = .error e') := by
  obtain ⟨qs, hq⟩ := Tree.exists_generate_of_parse h
  simp only [compile_folded_eq_error_iff h hq]
  refine ⟨Tree.exists_fold_error_iff hq, fun e => ⟨Tree.fold_eq_error_iff hq, fun he => ?_⟩⟩
  refine ⟨_, compile_unfolded h hq, fun V => ?_⟩
  cases hrun : run .values V qs with
  | error e' => exact ⟨e', hrun⟩
  | ok l =>
      obtain ⟨o, ho⟩ := (Tree.threaded_of_generate hq).exists_folds hrun
      cases he.symm.trans ho.fold_eq

/-- A difference that fails two levels up, before a quotient that fails at once. -/
def twoFailures : String := "(2*3-'a')+1/0"

theorem parse_twoFailures : Tree.parse twoFailures = .ok
    ⟨.nested (.nested (.literal (.number "2")) .times (.literal (.number "3"))) .minus
        (.literal (.text "a")), .add,
      .nested (.literal (.number "1")) .div (.literal (.number "0"))⟩ := by
  have scanned : Token.scan twoFailures = .ok
      [.group [.literal (.number "2"), .operator "*", .literal (.number "3"), .operator "-",
        .literal (.text "a")], .operator "+", .literal (.number "1"), .operator "/",
        .literal (.number "0")] := by decide +kernel
  have product : Derives (.times :: Operator.times.tighter)
      ([.literal (.number "2")] ++ .operator "*" :: [.literal (.number "3")]) _ :=
    .operate rfl .literal .literal
  have difference : Derives (.minus :: Operator.minus.tighter)
      ([.literal (.number "2"), .operator "*", .literal (.number "3")] ++
        .operator "-" :: [.literal (.text "a")]) _ :=
    .operate rfl product .literal
  have quotient : Derives (.div :: Operator.div.tighter)
      ([.literal (.number "1")] ++ .operator "/" :: [.literal (.number "0")]) _ :=
    .operate rfl .literal .literal
  have sum : Derives (.add :: Operator.add.tighter)
      ([.group [.literal (.number "2"), .operator "*", .literal (.number "3"), .operator "-",
        .literal (.text "a")]] ++ .operator "+" ::
          [.literal (.number "1"), .operator "/", .literal (.number "0")]) _ :=
    .operate rfl difference.enclose quotient
  rw [Tree.parse, scanned]
  exact (sum.ofTokens_eq (by decide)).2

/-- Folding reports the quotient, which is lower. A run stops at the difference, which comes
first. -/
theorem compile_fold_eq_error_iff_twoFailures :
    ∃ t p, Tree.parse twoFailures = .ok t ∧
      compile twoFailures { enableConstantFolding := true } = .error (.evaluation .divisionByZero) ∧
      (∃ id u, t.FirstFailure id u .divisionByZero) ∧
      compile twoFailures { enableConstantFolding := false } = .ok p ∧
      p.evaluate (fun _ => none) = .error (.evaluation (.typeMismatch .number .text)) ∧
      ∀ V, ∃ e, p.evaluate V = .error e := by
  have folds : fold
      [⟨1, .literal (.number "2"), .literal (.number "3"), .times, .any⟩,
        ⟨2, .result 1, .literal (.text "a"), .minus, .any⟩,
        ⟨3, .literal (.number "1"), .literal (.number "0"), .div, .any⟩,
        ⟨4, .result 2, .result 3, .add, .any⟩] = .error .divisionByZero := by decide +kernel
  have rejected : compile twoFailures { enableConstantFolding := true } =
      .error (.evaluation .divisionByZero) :=
    (compile_folded_eq_error_iff parse_twoFailures rfl).mpr folds
  obtain ⟨-, h⟩ := compile_fold_eq_error_iff parse_twoFailures
  obtain ⟨p, unfolded, hp⟩ := (h .divisionByZero).2 rejected
  obtain rfl := Except.ok.inj ((compile_unfolded parse_twoFailures rfl).symm.trans unfolded)
  exact ⟨_, _, parse_twoFailures, rejected, (h _).1.mp rejected, unfolded, by decide +kernel, hp⟩

end FormulaCode
