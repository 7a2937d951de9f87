import FormulaCode.Proofs.FoldEquivalence
import FormulaCode.Proofs.NodeTable
import FormulaCode.Proofs.TreeMeaning

/-! # Stages of folding

A node has a value of its own when no variable occurs below it and nothing below it fails.
After `k` passes the known results are the values of the nodes of height at most `k`: the
sides of a node are lower than the node, so by then they stand as literals in its quadruple.
Folding ends when no node of the next height is closed, or when only the root is left. -/

namespace FormulaCode

namespace Side

section Meaning

variable {α : Type} {I : Interpretation α} {env : Bindings α} {s l r : Side} {o : Operator}

/-- A copy stands for something exactly when two looks at its side do. -/
theorem copy_eq_ok_iff {c : α} :
    (s.meaning I env >>= fun a => (I.combine .copyLeft a a).mapError RunError.evaluation) =
        .ok c ↔
      ∃ a b, s.meaning I env = .ok a ∧ s.meaning I env = .ok b ∧
        I.combine .copyLeft a b = .ok c := by
  simp only [bind_eq_ok_iff, mapError_eq_ok_iff]
  constructor
  · rintro ⟨a, ha, hc⟩
    exact ⟨a, a, ha, ha, hc⟩
  · rintro ⟨a, b, ha, hb, hc⟩
    obtain rfl : a = b := Except.ok.inj (ha.symm.trans hb)
    exact ⟨a, ha, hc⟩

/-- A node stands for something exactly when the sides it is applied to do and the operator
combines them. -/
theorem Applies.meaning_eq_ok_iff (h : s.Applies l o r) {c : α} :
    s.meaning I env = .ok c ↔
      ∃ a b, l.meaning I env = .ok a ∧ r.meaning I env = .ok b ∧ I.combine o a b = .ok c := by
  cases h with
  | right =>
      rw [meaning_of_left_empty]
      exact copy_eq_ok_iff
  | left hl =>
      rw [meaning_of_right_empty I env _ hl]
      exact copy_eq_ok_iff
  | both hl hr =>
      by_cases hn : l.isNested = false ∧ r.isNested = true
      · rw [meaning_of_right_first I env o hl hn.1 hn.2]
        simp only [bind_eq_ok_iff, mapError_eq_ok_iff]
        constructor
        · rintro ⟨b, hb, a, ha, hc⟩
          exact ⟨a, b, ha, hb, hc⟩
        · rintro ⟨a, b, ha, hb, hc⟩
          exact ⟨b, hb, a, ha, hc⟩
      · rw [meaning_of_left_first I env o hl hr (by cases hln : l.isNested <;> simp_all)]
        simp only [bind_eq_ok_iff, mapError_eq_ok_iff, exists_and_left]

/-- Without variables the bindings play no role. -/
theorem meaning_eq_of_isClosed (hs : s.isClosed = true) (env' : Bindings α) :
    s.meaning I env = s.meaning I env' := by
  induction s with
  | literal v => rfl
  | empty => rfl
  | var name t => cases hs
  | nested l o r ihl ihr =>
      obtain ⟨hl, hr⟩ := Bool.and_eq_true_iff.1 hs
      simp only [meaning, ihl hl, ihr hr]

/-- A side that stands for something without bindings has no variables. -/
theorem isClosed_of_meaning {a : α} (h : s.meaning I (fun _ => none) = .ok a) :
    s.isClosed = true := by
  induction s generalizing a with
  | literal v => rfl
  | empty => rfl
  | var name t => cases h
  | nested l o r ihl ihr =>
      obtain ⟨l', o', r', ha, hl, hr⟩ := exists_applies l o r
      have below : ∀ x ∈ [l, r], ∀ b, x.meaning I (fun _ => none) = .ok b → x.isClosed = true := by
        intro x hx b hb
        simp only [List.mem_cons, List.not_mem_nil, or_false] at hx
        rcases hx with rfl | rfl
        · exact ihl hb
        · exact ihr hb
      obtain ⟨b, c, hb, hc, -⟩ := ha.meaning_eq_ok_iff.1 h
      exact ha.isClosed_iff.2 ⟨below l' hl b hb, below r' hr c hc⟩

end Meaning

/-- The value of a side on its own, without values for variables. -/
def value? (s : Side) : Option Literal := (s.meaning .values fun _ => none).toOption

/-- The value of a side whose height is at most `k`. -/
def valueWithin (k : Nat) (s : Side) : Option Literal := if s.height ≤ k then s.value? else none

variable {s l r : Side} {o : Operator} {v : Literal} {k : Nat}

theorem value?_eq_some_iff : s.value? = some v ↔ s.meaning .values (fun _ => none) = .ok v := by
  rw [value?]
  cases s.meaning .values fun _ => none with
  | error e => simp [Except.toOption]
  | ok a => simp [Except.toOption]

theorem isClosed_of_value? (h : s.value? = some v) : s.isClosed = true :=
  isClosed_of_meaning (value?_eq_some_iff.1 h)

theorem valueWithin_eq_some_iff : s.valueWithin k = some v ↔ s.height ≤ k ∧ s.value? = some v := by
  rw [valueWithin]
  by_cases h : s.height ≤ k
  · simp [h]
  · simp [h]

theorem valueWithin_eq_none_of_lt (h : k < s.height) : s.valueWithin k = none := by
  rw [valueWithin, if_neg (Nat.not_le_of_lt h)]

theorem valueWithin_succ_of_eq_some (h : s.valueWithin k = some v) :
    s.valueWithin (k + 1) = some v := by
  obtain ⟨hle, hv⟩ := valueWithin_eq_some_iff.1 h
  exact valueWithin_eq_some_iff.2 ⟨Nat.le_succ_of_le hle, hv⟩

/-- The value of a node is that of its operator on the values of lower sides. -/
theorem Applies.valueWithin_succ_eq_some_iff (h : s.Applies l o r) :
    s.valueWithin (k + 1) = some v ↔
      ∃ a b, l.valueWithin k = some a ∧ r.valueWithin k = some b ∧ o.apply a b = .ok v := by
  simp only [valueWithin_eq_some_iff, value?_eq_some_iff, h.meaning_eq_ok_iff,
    Interpretation.values_combine, h.height_eq, Nat.succ_le_succ_iff, Nat.max_le]
  constructor
  · rintro ⟨⟨hl, hr⟩, a, b, ha, hb, hv⟩
    exact ⟨a, b, ⟨hl, ha⟩, ⟨hr, hb⟩, hv⟩
  · rintro ⟨a, b, ⟨hl, ha⟩, ⟨hr, hb⟩, hv⟩
    exact ⟨⟨hl, hr⟩, a, b, ha, hb, hv⟩

end Side

namespace Results

variable {α : Type} (f : Nat → Option α)

/-- The results that a function gives under the ids of a list. -/
def tabulate : List Nat → Results α
  | [] => empty
  | id :: ids =>
      match f id with
      | some a => (tabulate ids).insert id a
      | none => tabulate ids

theorem get?_tabulate (ids : List Nat) (k : Nat) :
    (tabulate f ids).get? k = if k ∈ ids then f k else none := by
  induction ids with
  | nil => rfl
  | cons id ids ih =>
      rw [tabulate]
      by_cases hk : k = id
      · subst hk
        cases hf : f k with
        | none => simp [ih, hf]
        | some a => simp
      · cases f id with
        | none => simp [ih, hk]
        | some a => simp [ih, hk]

end Results

section Resolving

variable {node? : Nat → Option Side} {k : Nat} {known : Results Literal}
  (hk : ∀ id, known.get? id = (node? id).bind (Side.valueWithin k))
include hk

/-- When the values of low nodes are known, an operand is a literal exactly when its side is
low and has a value. -/
theorem StandsFor.literal?_resolve {x : Operand} {s : Side} (h : StandsFor node? x s) :
    (x.resolve known).literal? = s.valueWithin k := by
  cases h with
  | literal => rfl
  | var => rfl
  | @result id s hs =>
      have hid : known.get? id = s.valueWithin k := by rw [hk, hs, Option.bind_some]
      cases hv : s.valueWithin k with
      | none => simp [Operand.resolve, Operand.literal?, hid, hv]
      | some v => simp [Operand.resolve, Operand.literal?, hid, hv]

theorem Quadruple.literals?_resolve {q : Quadruple} {l r : Side} (hl : StandsFor node? q.left l)
    (hr : StandsFor node? q.right r) {a b : Literal} :
    (q.resolve known).literals? = some (a, b) ↔
      l.valueWithin k = some a ∧ r.valueWithin k = some b := by
  rw [← hl.literal?_resolve hk, ← hr.literal?_resolve hk]
  simp [Quadruple.literals?, Quadruple.resolve, Option.bind_eq_some_iff]

end Resolving

section Passes

variable {known later both : Results Literal}
  (h : ∀ id, both.get? id = (known.get? id).or (later.get? id))
include h

theorem Operand.resolve_resolve (x : Operand) :
    (x.resolve known).resolve later = x.resolve both := by
  cases x with
  | literal v => rfl
  | var name t => rfl
  | result id =>
      cases hk : known.get? id with
      | none => simp [Operand.resolve, h, hk]
      | some v => simp [Operand.resolve, h, hk]

/-- Two passes one after the other do what one pass does that knows the results of both. -/
theorem Quadruple.withoutConstants_withoutConstants (qs : List Quadruple) :
    withoutConstants (withoutConstants qs known) later = withoutConstants qs both := by
  induction qs with
  | nil => rfl
  | cons q qs ih =>
      cases hk : known.get? q.id with
      | some v =>
          have hb : both.get? q.id = some v := by rw [h, hk, Option.some_or]
          rw [withoutConstants_cons_known hk, withoutConstants_cons_known hb, ih]
      | none =>
          have hb : both.get? q.id = later.get? q.id := by rw [h, hk, Option.none_or]
          rw [withoutConstants_cons_unknown hk]
          cases hl : later.get? q.id with
          | some v =>
              rw [withoutConstants_cons_known (q := q.resolve known) hl,
                withoutConstants_cons_known (hb.trans hl), ih]
          | none =>
              rw [withoutConstants_cons_unknown (q := q.resolve known) hl,
                withoutConstants_cons_unknown (hb.trans hl), ih]
              simp only [Quadruple.resolve, Operand.resolve_resolve h]

end Passes

namespace Quadruple

variable {known : Results Literal} {q : Quadruple} {qs : List Quadruple}

/-- What remains are the quadruples without a known result, resolved. -/
theorem mem_withoutConstants_iff :
    q ∈ withoutConstants qs known ↔ ∃ p ∈ qs, known.get? p.id = none ∧ p.resolve known = q := by
  simp [withoutConstants, Results.contains, and_assoc]

theorem withoutConstants_eq_self (h : ∀ id, known.get? id = none) :
    withoutConstants qs known = qs := by
  have hx : ∀ x : Operand, x.resolve known = x := by
    intro x
    cases x with
    | literal v => rfl
    | var name t => rfl
    | result id => simp [Operand.resolve, h]
  simp [withoutConstants, Results.contains, h, Quadruple.resolve, hx]

end Quadruple

namespace Tree

open Quadruple

/-- The values of the nodes whose height is at most `k`, under the ids of the nodes. -/
def constants (t : Tree) (k : Nat) : Results Literal :=
  .tabulate (fun id => (t.node? id).bind (Side.valueWithin k)) (List.range (t.nodeCount + 1))

variable {t : Tree} {k id : Nat} {u : Side}

theorem get?_constants (t : Tree) (k id : Nat) :
    (t.constants k).get? id = (t.node? id).bind (Side.valueWithin k) := by
  rw [constants, Results.get?_tabulate]
  split
  · rfl
  · next h =>
      rw [List.mem_range] at h
      rw [node?_eq_none (by omega), Option.bind_none]

theorem get?_constants_of_node (hu : t.node? id = some u) :
    (t.constants k).get? id = u.valueWithin k := by
  rw [get?_constants, hu, Option.bind_some]

section Pass

variable {qs : List Quadruple} (hq : t.generate = .ok qs)
include hq

theorem height_pos (hu : t.node? id = some u) : 0 < u.height := by
  obtain ⟨q, -, -, hc⟩ := exists_quadruple hq hu
  obtain ⟨l, r, ha, -, -⟩ := hc.applies
  rw [ha.height_eq]
  exact Nat.succ_pos _

/-- Before the first pass nothing is known. -/
theorem withoutConstants_constants_zero : withoutConstants qs (t.constants 0) = qs := by
  refine withoutConstants_eq_self fun id => ?_
  rw [get?_constants]
  cases hu : t.node? id with
  | none => rfl
  | some u =>
      rw [Option.bind_some, Side.valueWithin_eq_none_of_lt (height_pos hq hu)]

/-- The quadruple of a node stays in the list until the value of the node is known. -/
theorem exists_mem_stage (hu : t.node? id = some u) (hv : u.valueWithin k = none) :
    ∃ q, q.id = id ∧ q.resolve (t.constants k) ∈ withoutConstants qs (t.constants k) ∧
      Codes t.node? u q := by
  obtain ⟨q, hmem, rfl, hc⟩ := exists_quadruple hq hu
  refine ⟨q, rfl, mem_withoutConstants_iff.2 ⟨q, hmem, ?_, rfl⟩, hc⟩
  rw [get?_constants_of_node hu, hv]

theorem nodup_stage : ((withoutConstants qs (t.constants k)).map Quadruple.id).Nodup :=
  ((numbered_of_generate hq).pairwise_lt.imp Nat.ne_of_lt).sublist ids_withoutConstants_sublist

variable {known : Results Literal}
  (hk : computeConstants .empty (withoutConstants qs (t.constants k)) = .ok known)
include hk

/-- A pass computes the values of the nodes that are one higher. -/
theorem get?_pass_of_node (hu : t.node? id = some u) (hv : u.valueWithin k = none) :
    known.get? id = u.valueWithin (k + 1) := by
  obtain ⟨q, rfl, hmem, hc⟩ := exists_mem_stage hq hu hv
  obtain ⟨l, r, ha, hl, hr⟩ := hc.applies
  -- Both literals are there exactly when both sides have values, which decides the two cases.
  have hlit := fun a b =>
    Quadruple.literals?_resolve (get?_constants t k) hl hr (a := a) (b := b)
  rcases get?_of_computeConstants (nodup_stage hq) hk hmem with
    ⟨hnone, hget⟩ | ⟨a, b, v, hsome, happ, hget⟩
  · rw [resolve_id] at hget
    rw [hget]
    cases hv' : u.valueWithin (k + 1) with
    | none => rfl
    | some v =>
        obtain ⟨a, b, hab⟩ := ha.valueWithin_succ_eq_some_iff.1 hv'
        rw [(hlit a b).2 ⟨hab.1, hab.2.1⟩] at hnone
        cases hnone
  · rw [resolve_id] at hget
    obtain ⟨hla, hrb⟩ := (hlit a b).1 hsome
    rw [hget, ha.valueWithin_succ_eq_some_iff.2 ⟨a, b, hla, hrb, happ⟩]

/-- A pass knows only values of nodes that are one higher than those known before. -/
theorem exists_node_of_pass {v : Literal} (hv : known.get? id = some v) :
    ∃ u, t.node? id = some u ∧ u.height = k + 1 ∧ u.value? = some v := by
  have hid : id ∈ (withoutConstants qs (t.constants k)).map Quadruple.id := by
    refine Classical.byContradiction fun hid => ?_
    rw [get?_computeConstants hk hid] at hv
    cases hv
  obtain ⟨w, hw, rfl⟩ := List.mem_map.1 hid
  obtain ⟨q, hqs, hnone, rfl⟩ := mem_withoutConstants_iff.1 hw
  obtain ⟨u, hc⟩ := exists_node hq hqs
  rw [get?_constants_of_node hc.node] at hnone
  rw [resolve_id, get?_pass_of_node hq hk hc.node hnone, Side.valueWithin_eq_some_iff] at hv
  have hlt : ¬u.height ≤ k := by
    intro hle
    rw [Side.valueWithin_eq_some_iff.2 ⟨hle, hv.2⟩] at hnone
    cases hnone
  exact ⟨u, hc.node, by omega, hv.2⟩

/-- What is known after a pass is what was known before and what the pass computed. -/
theorem get?_constants_succ (id : Nat) : (t.constants (k + 1)).get? id =
    ((t.constants k).get? id).or (known.get? id) := by
  cases hu : t.node? id with
  | none =>
      have hn : known.get? id = none := by
        cases hv : known.get? id with
        | none => rfl
        | some v =>
            obtain ⟨u, hu', -⟩ := exists_node_of_pass hq hk hv
            cases hu.symm.trans hu'
      simp [get?_constants, hu, hn]
  | some u =>
      rw [get?_constants_of_node hu, get?_constants_of_node hu]
      cases hv : u.valueWithin k with
      | none => rw [Option.none_or, get?_pass_of_node hq hk hu hv]
      | some v => rw [Option.some_or, Side.valueWithin_succ_of_eq_some hv]

/-- A pass leads from one stage to the next. -/
theorem withoutConstants_pass :
    withoutConstants (withoutConstants qs (t.constants k)) known =
      withoutConstants qs (t.constants (k + 1)) :=
  withoutConstants_withoutConstants (get?_constants_succ hq hk) qs

end Pass

/-- Every closed node whose height is at most `k` has a value. -/
def HasValues (t : Tree) (k : Nat) : Prop :=
  ∀ id u, t.node? id = some u → u.isClosed = true → u.height ≤ k → ∃ v, u.valueWithin k = some v

/-- An operand that stands for a low closed side stands for a value. -/
theorem HasValues.exists_of_standsFor (h : t.HasValues k) {x : Operand} {s : Side}
    (hx : StandsFor t.node? x s) (hs : s.isClosed = true) (hle : s.height ≤ k) :
    ∃ a, s.valueWithin k = some a := by
  cases hx with
  | @literal v => exact ⟨v, rfl⟩
  | var => cases hs
  | @result id s hn => exact h id s hn hs hle

section Stages

variable {qs : List Quadruple} (hq : t.generate = .ok qs)
include hq

theorem hasValues_zero : t.HasValues 0 := by
  intro id u hu _ hle
  have := height_pos hq hu
  omega

/-- The quadruple of a closed node that is one higher is still there, with the values of the
sides that the node is applied to. -/
theorem HasValues.exists_literals (h : t.HasValues k) (hu : t.node? id = some u)
    (hcl : u.isClosed = true) (hheight : u.height = k + 1) :
    ∃ (q : Quadruple) (l r : Side) (a b : Literal), q.id = id ∧
      q.resolve (t.constants k) ∈ withoutConstants qs (t.constants k) ∧
      (q.resolve (t.constants k)).literals? = some (a, b) ∧ u.Applies l q.operator r ∧
      l.value? = some a ∧ r.value? = some b := by
  have hv : u.valueWithin k = none := Side.valueWithin_eq_none_of_lt (by omega)
  obtain ⟨q, hid, hmem, hc⟩ := exists_mem_stage hq hu hv
  obtain ⟨l, r, ha, hl, hr⟩ := hc.applies
  have hsides : max l.height r.height = k := by
    rw [ha.height_eq] at hheight
    exact Nat.succ.inj hheight
  obtain ⟨hlcl, hrcl⟩ := ha.isClosed_iff.1 hcl
  obtain ⟨a, hla⟩ := h.exists_of_standsFor hl hlcl (by omega)
  obtain ⟨b, hrb⟩ := h.exists_of_standsFor hr hrcl (by omega)
  have hlit := (Quadruple.literals?_resolve (get?_constants t k) hl hr).2 ⟨hla, hrb⟩
  exact ⟨q, l, r, a, b, hid, hmem, hlit, ha, (Side.valueWithin_eq_some_iff.1 hla).2,
    (Side.valueWithin_eq_some_iff.1 hrb).2⟩

/-- A pass that does not fail has a value for every closed node that is one higher. -/
theorem HasValues.pass (h : t.HasValues k) {known : Results Literal}
    (hk : computeConstants .empty (withoutConstants qs (t.constants k)) = .ok known) :
    t.HasValues (k + 1) := by
  intro id u hu hcl hle
  by_cases hlow : u.height ≤ k
  · obtain ⟨v, hv⟩ := h id u hu hcl hlow
    exact ⟨v, Side.valueWithin_succ_of_eq_some hv⟩
  have hv : u.valueWithin k = none := Side.valueWithin_eq_none_of_lt (Nat.lt_of_not_le hlow)
  obtain ⟨q, l, r, a, b, rfl, hmem, hlit, -⟩ := h.exists_literals hq hu hcl (by omega)
  rcases get?_of_computeConstants (nodup_stage hq) hk hmem with ⟨hnone, -⟩ | ⟨_, _, v, -, -, hget⟩
  · cases hlit.symm.trans hnone
  · rw [resolve_id, get?_pass_of_node hq hk hu hv] at hget
    exact ⟨v, hget⟩

/-- Below a closed node there are closed nodes of all lower heights. -/
theorem exists_closed_of_height (hu : t.node? id = some u) (hcl : u.isClosed = true) {j : Nat}
    (hj : 0 < j) (hle : j ≤ u.height) :
    ∃ id' u', t.node? id' = some u' ∧ u'.isClosed = true ∧ u'.height = j := by
  induction hn : u.height using Nat.strongRecOn generalizing id u with
  | ind n ih =>
      subst hn
      by_cases he : u.height = j
      · exact ⟨id, u, hu, hcl, he⟩
      obtain ⟨q, -, -, hc⟩ := exists_quadruple hq hu
      obtain ⟨l, r, ha, hl, hr⟩ := hc.applies
      obtain ⟨hlcl, hrcl⟩ := ha.isClosed_iff.1 hcl
      -- A side with a height is nested, so its operand leads to a node.
      have below : ∀ {x : Operand} {s : Side}, StandsFor t.node? x s → s.isClosed = true →
          j ≤ s.height → s.height < u.height →
          ∃ id' u', t.node? id' = some u' ∧ u'.isClosed = true ∧ u'.height = j := by
        intro x s hx hs hjs hlt
        cases hx with
        | literal => exact absurd hjs (Nat.not_le_of_lt hj)
        | var => exact absurd hjs (Nat.not_le_of_lt hj)
        | result hs' => exact ih _ hlt hs' hs hjs rfl
      have hh := ha.height_eq
      by_cases hjl : j ≤ l.height
      · exact below hl hlcl hjl (by omega)
      · exact below hr hrcl (by omega) (by omega)

end Stages

end Tree

end FormulaCode
