import FormulaCode.Proofs.FoldStages
import Mathlib.Data.List.MinMax
import Mathlib.Order.Nat

/-! # The shape of folded code

Folding a formula leaves the quadruples of the root and of the nodes with variables, with
the values of all other nodes in the place of the references to them. The induction over the
passes carries a stage: after `k` passes the closed nodes of height at most `k` have values,
the root is not among them, and some node below the root has height `k`. Both exits of the
loop then give the same description, and the counters follow from it. -/

namespace FormulaCode

namespace Tree

/-- Whether an id belongs to a closed node below the root. -/
def isFolded (t : Tree) (id : Nat) : Bool := id != t.nodeCount && (t.node? id).any Side.isClosed

/-- The value that folding puts in the place of a reference. -/
def foldedValue? (t : Tree) (id : Nat) : Option Literal :=
  if t.isFolded id then (t.node? id).bind Side.value? else none

/-- An operand with the reference to a folded node replaced by the value of the node. -/
def foldOperand (t : Tree) : Operand → Operand
  | .result id =>
      match t.foldedValue? id with
      | some value => .literal value
      | none => .result id
  | operand => operand

/-- The type of the value of a closed tree; for other trees it stays open. -/
def foldedType (t : Tree) : DataType := (t.root.value?.map Literal.dataType).getD .any

/-- What folding leaves of the code of a tree. -/
def foldedCode (t : Tree) (qs : List Quadruple) : List Quadruple :=
  (qs.filter fun q => !t.isFolded q.id).map fun q =>
    { q with
      left := t.foldOperand q.left
      right := t.foldOperand q.right
      resultType := t.foldedType }

/-- The largest height of a closed node below the root, zero if there is none. -/
def closedHeight (t : Tree) : Nat :=
  ((t.innerNodes.filter Side.isClosed).map Side.height).foldr max 0

open Quadruple

variable {t : Tree} {qs : List Quadruple} {k : Nat}

theorem foldedType_of_isClosed_eq_false (h : t.root.isClosed = false) : t.foldedType = .any := by
  have hroot : t.root.value? = none := by
    refine Option.eq_none_iff_forall_ne_some.2 fun v hv => ?_
    cases h.symm.trans (Side.isClosed_of_value? hv)
  rw [foldedType, hroot]
  rfl

/-- What holds after `k` passes. -/
structure Stage (t : Tree) (k : Nat) : Prop where
  values : t.HasValues k
  root : t.root.valueWithin k = none
  newest : k = 0 ∨ ∃ u ∈ t.innerNodes, u.isClosed = true ∧ u.height = k

section Stages

variable (hq : t.generate = .ok qs)
include hq

theorem stage_zero : t.Stage 0 where
  values := hasValues_zero hq
  root := Side.valueWithin_eq_none_of_lt (height_pos hq (node?_nodeCount t))
  newest := Or.inl rfl

/-- Once the root has a value, nothing is left. -/
theorem withoutConstants_eq_nil_iff (h : t.HasValues k) :
    withoutConstants qs (t.constants k) = [] ↔ ∃ v, t.root.valueWithin k = some v := by
  constructor
  · intro hnil
    refine Option.ne_none_iff_exists'.1 fun hroot => ?_
    obtain ⟨q, -, hmem, -⟩ := exists_mem_stage hq (node?_nodeCount t) hroot
    rw [hnil] at hmem
    cases hmem
  · rintro ⟨v, hv⟩
    obtain ⟨hle, hv⟩ := Side.valueWithin_eq_some_iff.1 hv
    refine List.eq_nil_iff_forall_not_mem.2 fun w hw => ?_
    obtain ⟨q, hmem, hnone, -⟩ := mem_withoutConstants_iff.1 hw
    obtain ⟨u, hc⟩ := exists_node hq hmem
    have hu : u ∈ t.root.nodes := mem_nodes_of_node? hc.node
    have hcl := Side.isClosed_of_mem_nodes hu (Side.isClosed_of_value? hv)
    obtain ⟨a, ha⟩ := h _ u hc.node hcl (Nat.le_trans (Side.height_le_of_mem_nodes hu) hle)
    rw [get?_constants_of_node hc.node, ha] at hnone
    cases hnone

/-- A pass that computes something and does not drop everything leads to the next stage. -/
theorem Stage.pass (h : t.Stage k) {known : Results Literal}
    (hk : computeConstants .empty (withoutConstants qs (t.constants k)) = .ok known)
    (he : known.isEmpty = false)
    (hw : withoutConstants (withoutConstants qs (t.constants k)) known ≠ []) : t.Stage (k + 1) := by
  have hvalues := h.values.pass hq hk
  have hroot : t.root.valueWithin (k + 1) = none := by
    rw [withoutConstants_pass hq hk, Ne, withoutConstants_eq_nil_iff hq hvalues] at hw
    exact Option.eq_none_iff_forall_ne_some.2 fun v hv => hw ⟨v, hv⟩
  refine ⟨hvalues, hroot, Or.inr ?_⟩
  obtain ⟨id, hid⟩ := Results.exists_contains_of_isEmpty_eq_false he
  obtain ⟨v, hv⟩ := Option.isSome_iff_exists.1 hid
  obtain ⟨u, hu, hheight, hval⟩ := exists_node_of_pass hq hk hv
  have hne : id ≠ t.nodeCount := by
    rintro rfl
    obtain rfl := Option.some.inj ((node?_nodeCount t).symm.trans hu)
    rw [Side.valueWithin_eq_some_iff.2 ⟨Nat.le_of_eq hheight, hval⟩] at hroot
    cases hroot
  exact ⟨u, mem_innerNodes_iff.2 ⟨id, hne, hu⟩, Side.isClosed_of_value? hval, hheight⟩

/-- The type of a quadruple is open until folding ends. -/
theorem resultType_of_mem_stage {w : Quadruple}
    (hw : w ∈ withoutConstants qs (t.constants k)) : w.resultType = .any := by
  obtain ⟨q, hmem, -, rfl⟩ := mem_withoutConstants_iff.1 hw
  obtain ⟨u, hc⟩ := exists_node hq hmem
  exact hc.resultType

end Stages

/-- What holds when folding ends after `k` passes: there is no closed node left below the
root, and the rest is the code of that stage with the type of the tree. -/
structure EndsAt (t : Tree) (qs : List Quadruple) (k : Nat) (rest : List Quadruple) : Prop where
  stage : t.Stage k
  inner : ∀ u ∈ t.innerNodes, u.isClosed = true → u.height ≤ k
  root : t.root.isClosed = true → ∃ v, t.root.value? = some v
  quadruples : rest = (withoutConstants qs (t.constants k)).map
    fun q => { q with resultType := t.foldedType }

section Exits

variable (hq : t.generate = .ok qs) (h : t.Stage k) {known : Results Literal}
  (hk : computeConstants .empty (withoutConstants qs (t.constants k)) = .ok known)
include hq h hk

/-- When a pass computes nothing, no closed node is higher than those with known values. -/
theorem Stage.height_le_of_isEmpty (he : known.isEmpty = true) {id : Nat} {u : Side}
    (hu : t.node? id = some u) (hcl : u.isClosed = true) : u.height ≤ k := by
  refine Nat.le_of_not_lt fun hlt => ?_
  obtain ⟨id', u', hu', hcl', hheight⟩ :=
    exists_closed_of_height hq hu hcl (Nat.succ_pos k) hlt
  obtain ⟨v, hv⟩ := h.values.pass hq hk id' u' hu' hcl' (Nat.le_of_eq hheight)
  have hlow : u'.valueWithin k = none := Side.valueWithin_eq_none_of_lt (by omega)
  have hget : known.get? id' = some v := by rw [get?_pass_of_node hq hk hu' hlow, hv]
  have hnot := Results.contains_eq_false_of_isEmpty he id'
  simp [Results.contains, hget] at hnot

/-- When a pass computes nothing, the code of the stage is what folding leaves. -/
theorem Stage.endsAt_of_isEmpty (he : known.isEmpty = true) :
    t.EndsAt qs k (withoutConstants qs (t.constants k)) := by
  have hle : ∀ id u, t.node? id = some u → u.isClosed = true → u.height ≤ k :=
    fun _ _ => h.height_le_of_isEmpty hq hk he
  have hopen : t.root.isClosed = false := by
    rw [Bool.eq_false_iff]
    intro hcl
    obtain ⟨v, hv⟩ := h.values _ _ (node?_nodeCount t) hcl (hle _ _ (node?_nodeCount t) hcl)
    cases h.root.symm.trans hv
  have hsame : ∀ w ∈ withoutConstants qs (t.constants k),
      { w with resultType := t.foldedType } = w := by
    intro w hw
    rw [foldedType_of_isClosed_eq_false hopen, ← resultType_of_mem_stage hq hw]
  refine ⟨h, fun u hu hcl => ?_, fun hcl => ?_, ?_⟩
  · obtain ⟨id, -, hid⟩ := mem_innerNodes_iff.1 hu
    exact hle id u hid hcl
  · cases hopen.symm.trans hcl
  · exact ((List.map_congr_left hsame).trans (List.map_id' _)).symm

/-- When a pass computes everything, the root is all that was left. -/
theorem Stage.endsAt_of_eq_nil
    (hw : withoutConstants (withoutConstants qs (t.constants k)) known = []) :
    t.EndsAt qs k ((withoutConstants qs (t.constants k)).map (noteType known)) := by
  rw [withoutConstants_pass hq hk, withoutConstants_eq_nil_iff hq (h.values.pass hq hk)] at hw
  obtain ⟨v, hv⟩ := hw
  obtain ⟨hle, hval⟩ := Side.valueWithin_eq_some_iff.1 hv
  have hcl := Side.isClosed_of_value? hval
  have inner : ∀ u ∈ t.innerNodes, u.height ≤ k := by
    intro u hu
    have := height_lt_of_mem_innerNodes hu
    omega
  refine ⟨h, fun u hu _ => inner u hu, fun _ => ⟨v, hval⟩, List.map_congr_left fun w hw => ?_⟩
  -- Every node below the root is lower than the root, so its value is known already.
  obtain ⟨q, hmem, hnone, rfl⟩ := mem_withoutConstants_iff.1 hw
  obtain ⟨u, hc⟩ := exists_node hq hmem
  rw [get?_constants_of_node hc.node] at hnone
  have hid : q.id = t.nodeCount := by
    refine Classical.byContradiction fun hne => ?_
    have hu := inner u (mem_innerNodes_iff.2 ⟨q.id, hne, hc.node⟩)
    obtain ⟨a, ha⟩ := h.values _ u hc.node
      (Side.isClosed_of_mem_nodes (mem_nodes_of_node? hc.node) hcl) hu
    cases hnone.symm.trans ha
  have hget : known.get? (q.resolve (t.constants k)).id = some v := by
    rw [resolve_id, hid, get?_pass_of_node hq hk (node?_nodeCount t) h.root, hv]
  rw [noteType, hget, foldedType, hval]
  rfl

end Exits

/-- Folding the code of a stage ends after as many further passes as it counts. -/
theorem Stage.endsAt (hq : t.generate = .ok qs) (hs : t.Stage k) {o : Folded}
    (h : Folds (withoutConstants qs (t.constants k)) o) :
    t.EndsAt qs (k + o.passes) o.quadruples := by
  -- The list of the next pass is the code of the next stage, so the induction is on the passes
  -- with the stage left open.
  generalize hw : withoutConstants qs (t.constants k) = ws at h
  induction h generalizing k with
  | nothing hk he =>
      subst hw
      exact hs.endsAt_of_isEmpty hq hk he
  | everything hk he hnil =>
      subst hw
      exact hs.endsAt_of_eq_nil hq hk hnil
  | @pass ws known rest hk he hne h ih =>
      subst hw
      have hend := ih (hs.pass hq hk he hne) (withoutConstants_pass hq hk).symm
      rwa [Nat.add_assoc, Nat.add_comm 1] at hend

/-- Folding the code of a tree ends after the passes that it counts. -/
theorem endsAt_of_folds (hq : t.generate = .ok qs) {o : Folded} (h : Folds qs o) :
    t.EndsAt qs o.passes o.quadruples := by
  have hend := (stage_zero hq).endsAt hq (o := o)
  rw [withoutConstants_constants_zero hq, Nat.zero_add] at hend
  exact hend h

section Shape

variable {rest : List Quadruple} (h : t.EndsAt qs k rest)
include h

/-- The results known in the end are the values of the folded nodes. -/
theorem EndsAt.get?_cases (id : Nat) :
    (t.isFolded id = true ∧
        ∃ v, (t.constants k).get? id = some v ∧ t.foldedValue? id = some v) ∨
      (t.isFolded id = false ∧ (t.constants k).get? id = none ∧ t.foldedValue? id = none) := by
  rw [get?_constants, foldedValue?, isFolded]
  cases hu : t.node? id with
  | none => simp
  | some u =>
      by_cases hid : id = t.nodeCount
      · subst hid
        obtain rfl := Option.some.inj ((node?_nodeCount t).symm.trans hu)
        simp [h.stage.root]
      · cases hcl : u.isClosed with
        | true =>
            have hle := h.inner u (mem_innerNodes_iff.2 ⟨id, hid, hu⟩) hcl
            obtain ⟨v, hv⟩ := h.stage.values id u hu hcl hle
            simp [hid, hcl, hv, (Side.valueWithin_eq_some_iff.1 hv).2]
        | false =>
            have hnone : u.valueWithin k = none := by
              refine Option.eq_none_iff_forall_ne_some.2 fun v hv => ?_
              have := Side.isClosed_of_value? (Side.valueWithin_eq_some_iff.1 hv).2
              simp [hcl] at this
            simp [hcl, hnone]

/-- What folding leaves is described by the tree. -/
theorem EndsAt.eq_foldedCode : rest = t.foldedCode qs := by
  have hcontains : ∀ id, (t.constants k).contains id = t.isFolded id := by
    intro id
    rcases h.get?_cases id with ⟨hid, v, hv, -⟩ | ⟨hid, hv, -⟩
    · rw [hid, Results.contains, hv, Option.isSome_some]
    · rw [hid, Results.contains, hv, Option.isSome_none]
  have hop : ∀ x : Operand, x.resolve (t.constants k) = t.foldOperand x := by
    intro x
    cases x with
    | literal v => rfl
    | var name t => rfl
    | result id =>
        rcases h.get?_cases id with ⟨-, v, hv, hf⟩ | ⟨-, hv, hf⟩
        · simp only [Operand.resolve, foldOperand, hv, hf]
        · simp only [Operand.resolve, foldOperand, hv, hf]
  rw [h.quadruples, foldedCode, withoutConstants, List.map_map]
  simp only [hcontains, Quadruple.resolve, hop, Function.comp_def]

/-- In the end exactly the closed nodes have values. -/
theorem EndsAt.isClosed_iff {u : Side} (hu : u ∈ t.root.nodes) :
    u.isClosed = true ↔ ∃ v, u.value? = some v := by
  constructor
  · intro hcl
    rw [nodes_root, List.mem_append, List.mem_singleton] at hu
    rcases hu with hu | rfl
    · obtain ⟨id, -, hid⟩ := mem_innerNodes_iff.1 hu
      obtain ⟨v, hv⟩ := h.stage.values id u hid hcl (h.inner u hu hcl)
      exact ⟨v, (Side.valueWithin_eq_some_iff.1 hv).2⟩
    · exact h.root hcl
  · rintro ⟨v, hv⟩
    exact Side.isClosed_of_value? hv

/-- The number of passes is the largest height of a folded node. -/
theorem EndsAt.eq_closedHeight : k = t.closedHeight := by
  apply Nat.le_antisymm
  · rcases h.stage.newest with rfl | ⟨u, hu, hcl, rfl⟩
    · exact Nat.zero_le _
    · exact List.le_max_of_le
        (List.mem_map_of_mem (List.mem_filter.2 ⟨hu, hcl⟩)) (Nat.le_refl _)
  · refine List.max_le_of_forall_le _ k fun j hj => ?_
    obtain ⟨u, hu, rfl⟩ := List.mem_map.1 hj
    obtain ⟨hu, hcl⟩ := List.mem_filter.1 hu
    exact h.inner u hu hcl

end Shape

/-- The ids below that of the root lead to the nodes below it. -/
theorem map_node?_range' (t : Tree) :
    (List.range' 1 t.innerNodes.length).map t.node? = t.innerNodes.map some := by
  refine List.ext_getElem? fun i => ?_
  rw [List.getElem?_map, List.getElem?_map]
  by_cases hi : i < t.innerNodes.length
  · rw [List.getElem?_range' hi, List.getElem?_eq_getElem hi, Option.map_some, Option.map_some,
      Nat.one_mul, Nat.add_comm 1, node?, nodes_root, List.getElem?_append_left hi,
      List.getElem?_eq_getElem hi]
  · rw [List.getElem?_eq_none (by simpa using hi), List.getElem?_eq_none (by simpa using hi)]
    rfl

/-- The folded ids are as many as the closed nodes below the root. -/
theorem countP_isFolded (hq : t.generate = .ok qs) :
    qs.countP (fun q => t.isFolded q.id) = t.innerNodes.countP Side.isClosed := by
  have hlen : qs.length = t.innerNodes.length + 1 := by
    rw [← (codes_of_generate hq).length_eq, nodes_root, List.length_append, List.length_singleton]
  have hroot : t.isFolded (1 + t.innerNodes.length) = false := by
    rw [Nat.add_comm, length_innerNodes]
    simp [isFolded]
  calc qs.countP (fun q => t.isFolded q.id)
      = (qs.map Quadruple.id).countP t.isFolded := by rw [List.countP_map]; rfl
    _ = (List.range' 1 (t.innerNodes.length + 1)).countP t.isFolded := by
        rw [numbered_of_generate hq, hlen]
    _ = (List.range' 1 t.innerNodes.length).countP t.isFolded := by
        rw [List.range'_concat, List.countP_append]
        simp [hroot]
    _ = (List.range' 1 t.innerNodes.length).countP (fun id => (t.node? id).any Side.isClosed) := by
        refine List.countP_congr fun id hid => ?_
        have hne : id ≠ t.nodeCount := by
          rw [List.mem_range'_1] at hid
          have := t.length_innerNodes
          omega
        simp [isFolded, hne]
    _ = ((List.range' 1 t.innerNodes.length).map t.node?).countP
          (fun u => u.any Side.isClosed) := by rw [List.countP_map]; rfl
    _ = t.innerNodes.countP Side.isClosed := by
        rw [map_node?_range', List.countP_map]
        rfl

theorem length_foldedCode (hq : t.generate = .ok qs) :
    (t.foldedCode qs).length + t.innerNodes.countP Side.isClosed = t.nodeCount := by
  have hlen := qs.length_eq_countP_add_countP fun q => t.isFolded q.id
  rw [← (codes_of_generate hq).length_eq, length_nodes_root, countP_isFolded hq] at hlen
  rw [foldedCode, List.length_map, ← List.countP_eq_length_filter, hlen, Nat.add_comm]
  simp

/-- All types of what is left are the type of the tree. -/
theorem resultType_of_mem_foldedCode {q : Quadruple} (h : q ∈ t.foldedCode qs) :
    q.resultType = t.foldedType := by
  obtain ⟨p, -, rfl⟩ := List.mem_map.1 h
  rfl

/-- Of a closed tree folding leaves one quadruple, which has the type of the value. -/
theorem EndsAt.eq_singleton (hq : t.generate = .ok qs) {rest : List Quadruple}
    (h : t.EndsAt qs k rest) (hcl : t.root.isClosed = true) :
    ∃ q v, rest = [q] ∧ t.root.value? = some v ∧ q.resultType = v.dataType := by
  have hall : ∀ u ∈ t.innerNodes, u.isClosed = true := by
    intro u hu
    refine Side.isClosed_of_mem_nodes ?_ hcl
    rw [nodes_root]
    exact List.mem_append_left _ hu
  have hlen := length_foldedCode hq
  rw [List.countP_eq_length.2 hall, ← length_innerNodes, Nat.add_comm, Nat.add_left_cancel_iff,
    ← h.eq_foldedCode, List.length_eq_one_iff] at hlen
  obtain ⟨q, hrest⟩ := hlen
  obtain ⟨v, hv⟩ := h.root hcl
  have hmem : q ∈ t.foldedCode qs := by
    rw [← h.eq_foldedCode, hrest]
    exact List.mem_singleton_self q
  refine ⟨q, v, hrest, hv, ?_⟩
  rw [resultType_of_mem_foldedCode hmem, foldedType, hv]
  rfl

end Tree

open Quadruple

/-- What folding makes of the program of a tree. The program has one quadruple for each node;
folding keeps those of the root and of the nodes with variables, and its counters are read
off the tree. -/
structure Folding (t : Tree) (p p' : Program) : Prop where
  codes : List.Forall₂ (Codes t.node?) t.root.nodes p.quadruples
  values : ∀ u ∈ t.root.nodes, u.isClosed = true ↔ ∃ v, u.value? = some v
  quadruples : p'.quadruples = t.foldedCode p.quadruples
  folded : p'.metadata.foldedQuadruples = t.innerNodes.countP Side.isClosed
  size : p'.metadata.foldedQuadruples + p'.size = t.nodeCount
  passes : p'.metadata.optimizationPasses = t.closedHeight
  typeOfOpen : t.root.isClosed = false → ∀ q ∈ p'.quadruples, q.resultType = .any
  typeOfClosed : t.root.isClosed = true → ∃ q v, p'.quadruples = [q] ∧
    q.resultType = v.dataType ∧ ∀ V, p'.evaluate V = .ok v

/-- A formula that can be folded has the folded program that its tree describes. -/
theorem exists_folding_of_compile {source : String} {p' : Program}
    (h : compile source { enableConstantFolding := true } = .ok p') :
    ∃ t p, Tree.parse source = .ok t ∧
      compile source { enableConstantFolding := false } = .ok p ∧ Folding t p p' := by
  obtain ⟨t, qs, ht, hq⟩ := exists_generate_of_compile h
  obtain ⟨o, ho, rfl⟩ := (compile_folded_eq_ok_iff ht hq).1 h
  have hend := Tree.endsAt_of_folds hq ho
  have hthread := Tree.threaded_of_generate hq
  have hcode := hend.eq_foldedCode
  have hlen := Tree.length_foldedCode hq
  have hsize : o.dropped + o.quadruples.length = t.nodeCount := by
    rw [ho.dropped_add_length (hthread.ids.imp Nat.ne_of_lt),
      ← (Tree.codes_of_generate hq).length_eq, Tree.length_nodes_root]
  rw [← hcode] at hlen
  refine ⟨t, _, ht, compile_unfolded ht hq, ?_⟩
  exact {
    codes := Tree.codes_of_generate hq
    values := fun u hu => hend.isClosed_iff hu
    quadruples := hcode
    folded := by
      simp only
      omega
    size := hsize
    passes := hend.eq_closedHeight
    typeOfOpen := by
      intro hopen q hmem
      simp only [hcode] at hmem
      rw [Tree.resultType_of_mem_foldedCode hmem, Tree.foldedType_of_isClosed_eq_false hopen]
    typeOfClosed := by
      intro hcl
      obtain ⟨q, v, hrest, hv, htype⟩ := hend.eq_singleton hq hcl
      refine ⟨q, v, hrest, htype, fun V => ?_⟩
      calc run .values V o.quadruples
          = run .values V qs := ho.run_eq hthread
        _ = t.root.meaning .values V := Tree.run_of_generate hq
        _ = t.root.meaning .values fun _ => none := Side.meaning_eq_of_isClosed hcl _
        _ = .ok v := Side.value?_eq_some_iff.1 hv }

/-- A product without variables, one of whose factors is a sum. -/
def closedProduct : String := "(1+2)*3"

theorem parse_closedProduct : Tree.parse closedProduct = .ok
    ⟨.nested (.literal (.number "1")) .add (.literal (.number "2")), .times,
      .literal (.number "3")⟩ := by
  have scanned : Token.scan closedProduct = .ok
      [.group [.literal (.number "1"), .operator "+", .literal (.number "2")], .operator "*",
        .literal (.number "3")] := by decide +kernel
  have sum : Derives (.add :: Operator.add.tighter)
      ([.literal (.number "1")] ++ .operator "+" :: [.literal (.number "2")]) _ :=
    .operate rfl .literal .literal
  have product : Derives (.times :: Operator.times.tighter)
      ([.group [.literal (.number "1"), .operator "+", .literal (.number "2")]] ++
        .operator "*" :: [.literal (.number "3")]) _ :=
    .operate rfl sum.enclose .literal
  rw [Tree.parse, scanned]
  exact (product.ofTokens_eq (by decide)).2

/-- One pass drops the sum. The product stays although its operands are known, and has the
type of its value. -/
theorem exists_folding_of_compile_closedProduct :
    ∃ p', compile closedProduct { enableConstantFolding := true } = .ok p' ∧
      p'.quadruples =
        [⟨2, .literal (.number "3"), .literal (.number "3"), .times, .number⟩] ∧
      p'.metadata.optimizationPasses = 1 ∧ p'.metadata.foldedQuadruples = 1 ∧
      ∃ t p, Tree.parse closedProduct = .ok t ∧
        compile closedProduct { enableConstantFolding := false } = .ok p ∧ Folding t p p' := by
  have folds : fold
      [⟨1, .literal (.number "1"), .literal (.number "2"), .add, .any⟩,
        ⟨2, .result 1, .literal (.number "3"), .times, .any⟩] =
      .ok ⟨[⟨2, .literal (.number "3"), .literal (.number "3"), .times, .number⟩], 1, 1⟩ := by
    decide +kernel
  have folded := (compile_folded_eq_ok_iff parse_closedProduct rfl).2 ⟨_, .of_fold folds, rfl⟩
  exact ⟨_, folded, rfl, rfl, rfl, exists_folding_of_compile folded⟩

end FormulaCode
