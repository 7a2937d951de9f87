import FormulaCode.Proofs.GeneratedCode
import Mathlib.Data.List.Forall2

/-! # Nodes and their quadruples

Generation makes one quadruple for each node of a tree, the nodes of its sides before the node
itself, so the ids count the nodes. The table that leads from an id to its node says what a
quadruple stands for without the recursion that made it: its operands stand for the sides of
its node, and its operator is the one that the node applies to them. -/

namespace FormulaCode

namespace Side

/-- Whether no variable occurs on a side. -/
def isClosed : Side → Bool
  | literal _ => true
  | var _ _ => false
  | nested l _ r => l.isClosed && r.isClosed
  | empty => true

/-- The height of the tree on a side, which is one where neither of its sides is nested. -/
def height : Side → Nat
  | nested l _ r => max l.height r.height + 1
  | _ => 0

/-- The trees on a side, at all depths, in the order of their quadruples. -/
def nodes : Side → List Side
  | nested l o r => l.nodes ++ r.nodes ++ [nested l o r]
  | _ => []

theorem nodes_left (l : Side) (o : Operator) :
    (nested l o empty).nodes = l.nodes ++ [nested l o empty] := by
  simp only [nodes, List.append_nil]

theorem length_nodes (s : Side) : s.nodes.length = s.nodeCount := by
  induction s with
  | literal | var | empty => rfl
  | nested l o r ihl ihr =>
      simp only [nodes, nodeCount, List.length_append, List.length_singleton, ihl, ihr]

theorem height_le_of_mem_nodes {s u : Side} (h : u ∈ s.nodes) : u.height ≤ s.height := by
  induction s with
  | literal | var | empty => cases h
  | nested l o r ihl ihr =>
      simp only [nodes, List.mem_append, List.mem_singleton] at h
      rcases h with (h | h) | rfl
      · exact Nat.le_succ_of_le (Nat.le_trans (ihl h) (Nat.le_max_left _ _))
      · exact Nat.le_succ_of_le (Nat.le_trans (ihr h) (Nat.le_max_right _ _))
      · exact Nat.le_refl _

theorem isClosed_of_mem_nodes {s u : Side} (h : u ∈ s.nodes) (hs : s.isClosed = true) :
    u.isClosed = true := by
  induction s with
  | literal | var | empty => cases h
  | nested l o r ihl ihr =>
      have hlr : l.isClosed = true ∧ r.isClosed = true := Bool.and_eq_true_iff.1 hs
      simp only [nodes, List.mem_append, List.mem_singleton] at h
      rcases h with (h | h) | rfl
      · exact ihl h hlr.1
      · exact ihr h hlr.2
      · exact hs

/-- What a node applies: its operator to its sides, or the copy to its only side. -/
inductive Applies : Side → Side → Operator → Side → Prop
  | right {o r} : Applies (.nested .empty o r) r .copyLeft r
  | left {l o} (hl : l.isEmpty = false) : Applies (.nested l o .empty) l .copyLeft l
  | both {l o r} (hl : l.isEmpty = false) (hr : r.isEmpty = false) : Applies (.nested l o r) l o r

namespace Applies

variable {s l r : Side} {o : Operator}

theorem isClosed_iff (h : Applies s l o r) :
    s.isClosed = true ↔ l.isClosed = true ∧ r.isClosed = true := by
  cases h with
  | right | left | both => simp [isClosed]

theorem height_eq (h : Applies s l o r) : s.height = max l.height r.height + 1 := by
  cases h with
  | right | left | both => simp [height]

end Applies

/-- Every node applies an operator to sides of its own. -/
theorem exists_applies (l : Side) (o : Operator) (r : Side) :
    ∃ l' o' r', Applies (nested l o r) l' o' r' ∧ l' ∈ [l, r] ∧ r' ∈ [l, r] := by
  cases hl : l.isEmpty with
  | true =>
      obtain rfl := eq_empty_of_isEmpty hl
      exact ⟨_, _, _, .right, by simp, by simp⟩
  | false =>
      cases hr : r.isEmpty with
      | true =>
          obtain rfl := eq_empty_of_isEmpty hr
          exact ⟨_, _, _, .left hl, by simp, by simp⟩
      | false => exact ⟨_, _, _, .both hl hr, by simp, by simp⟩

end Side

namespace Tree

/-- A tree as the node above all others. -/
def root (t : Tree) : Side := .nested t.left t.operator t.right

/-- The nodes below the root, in the order of their quadruples. -/
def innerNodes (t : Tree) : List Side := t.left.nodes ++ t.right.nodes

/-- The node with an id, which counts the nodes from one. -/
def node? (t : Tree) : Nat → Option Side
  | 0 => none
  | i + 1 => t.root.nodes[i]?

variable {t : Tree} {u : Side}

theorem nodes_root (t : Tree) : t.root.nodes = t.innerNodes ++ [t.root] := rfl

theorem length_innerNodes (t : Tree) : t.innerNodes.length + 1 = t.nodeCount := by
  simp only [innerNodes, nodeCount, List.length_append, Side.length_nodes]

theorem length_nodes_root (t : Tree) : t.root.nodes.length = t.nodeCount := t.root.length_nodes

theorem height_lt_of_mem_innerNodes (h : u ∈ t.innerNodes) : u.height < t.root.height := by
  rcases List.mem_append.1 h with h | h
  · have hu := Side.height_le_of_mem_nodes h
    exact Nat.lt_succ_of_le (Nat.le_trans hu (Nat.le_max_left _ _))
  · have hu := Side.height_le_of_mem_nodes h
    exact Nat.lt_succ_of_le (Nat.le_trans hu (Nat.le_max_right _ _))

theorem node?_nodeCount (t : Tree) : t.node? t.nodeCount = some t.root := by
  rw [← length_innerNodes, node?, nodes_root, List.getElem?_concat_length]

theorem node?_eq_none {id : Nat} (h : t.nodeCount < id) : t.node? id = none := by
  cases id with
  | zero => rfl
  | succ i =>
      rw [node?, List.getElem?_eq_none_iff, length_nodes_root]
      exact Nat.le_of_lt_succ h

theorem mem_nodes_of_node? {id : Nat} (h : t.node? id = some u) : u ∈ t.root.nodes := by
  cases id with
  | zero => cases h
  | succ i => exact List.mem_of_getElem? h

theorem mem_innerNodes_iff : u ∈ t.innerNodes ↔ ∃ id, id ≠ t.nodeCount ∧ t.node? id = some u := by
  rw [← length_innerNodes, List.mem_iff_getElem?]
  constructor
  · rintro ⟨i, hi⟩
    have hlt := (List.getElem?_eq_some_iff.1 hi).1
    refine ⟨i + 1, by omega, ?_⟩
    rw [node?, nodes_root, List.getElem?_append_left hlt, hi]
  · rintro ⟨_ | i, hne, hi⟩
    · cases hi
    · have hlt : i < t.innerNodes.length + 1 := by
        simpa [nodes_root] using (List.getElem?_eq_some_iff.1 hi).1
      refine ⟨i, ?_⟩
      rwa [node?, nodes_root, List.getElem?_append_left (by omega)] at hi

end Tree

/-- An operand stands for a side: it is the side, or the result of the node there. -/
inductive StandsFor (node? : Nat → Option Side) : Operand → Side → Prop
  | literal {v} : StandsFor node? (.literal v) (.literal v)
  | var {name t} : StandsFor node? (.var name t) (.var name t)
  | result {id s} (h : node? id = some s) : StandsFor node? (.result id) s

/-- A quadruple is the one of a node: it has the id of the node, its operator is the one that
the node applies, its operands stand for the sides that it is applied to, and its type is
open. -/
structure Codes (node? : Nat → Option Side) (s : Side) (q : Quadruple) : Prop where
  node : node? q.id = some s
  applies : ∃ l r, s.Applies l q.operator r ∧ StandsFor node? q.left l ∧ StandsFor node? q.right r
  resultType : q.resultType = .any

/-- The table has the nodes of a list under the ids that count on from `count`. -/
def Tabulated (node? : Nat → Option Side) (count : Nat) (us : List Side) : Prop :=
  ∀ i u, us[i]? = some u → node? (count + i + 1) = some u

section Codes

variable {node? : Nat → Option Side} {count : Nat} {us vs : List Side}

theorem Tabulated.of_append (h : Tabulated node? count (us ++ vs)) :
    Tabulated node? count us ∧ Tabulated node? (count + us.length) vs := by
  refine ⟨fun i u hu => h i u ?_, fun i u hu => ?_⟩
  · rwa [List.getElem?_append_left (List.getElem?_eq_some_iff.1 hu).1]
  · have hv : (us ++ vs)[us.length + i]? = some u := by
      rwa [List.getElem?_append_right (Nat.le_add_right _ _), Nat.add_sub_cancel_left]
    rw [Nat.add_assoc count]
    exact h _ u hv

/-- The quadruple that closes code is the one of a node that applies its operator to its
operands. -/
theorem Codes.close {qs : List Quadruple} {left right : Operand} {o : Operator} {s l r : Side}
    (h : List.Forall₂ (Codes node?) us qs) (hn : Tabulated node? count (us ++ [s]))
    (ha : s.Applies l o r) (hl : StandsFor node? left l) (hr : StandsFor node? right r) :
    List.Forall₂ (Codes node?) (us ++ [s]) (Fragment.close count qs left o right).quadruples ∧
      StandsFor node? (Fragment.close count qs left o right).operand s := by
  have hs : node? (count + qs.length + 1) = some s := by
    rw [← h.length_eq]
    exact hn _ s List.getElem?_concat_length
  refine ⟨List.rel_append h (.cons ⟨hs, ⟨l, r, ha, hl, hr⟩, rfl⟩ .nil), .result hs⟩

/-- The quadruples of a side are those of its nodes, in order, and its operand stands for
it. -/
theorem Generates.codes {s : Side} {x : Fragment} (h : Generates count s x)
    (hn : Tabulated node? count s.nodes) :
    List.Forall₂ (Codes node?) s.nodes x.quadruples ∧ StandsFor node? x.operand s := by
  induction h with
  | literal => exact ⟨.nil, .literal⟩
  | var => exact ⟨.nil, .var⟩
  | right h ih =>
      obtain ⟨hx, hs⟩ := ih hn.of_append.1
      exact Codes.close hx hn .right hs hs
  | left h ih =>
      rw [Side.nodes_left] at hn ⊢
      obtain ⟨hx, hs⟩ := ih hn.of_append.1
      exact Codes.close hx hn (.left h.isEmpty_eq_false) hs hs
  | both hl hr ihl ihr =>
      obtain ⟨hlr, -⟩ := hn.of_append
      obtain ⟨hln, hrn⟩ := hlr.of_append
      obtain ⟨hx, hxs⟩ := ihl hln
      rw [hx.length_eq] at hrn
      obtain ⟨hy, hys⟩ := ihr hrn
      exact Codes.close (List.rel_append hx hy) hn
        (.both hl.isEmpty_eq_false hr.isEmpty_eq_false) hxs hys

end Codes

namespace Tree

variable {t : Tree} {qs : List Quadruple}

/-- The code of a tree has the quadruples of its nodes, in order. -/
theorem codes_of_generate (h : t.generate = .ok qs) :
    List.Forall₂ (Codes t.node?) t.root.nodes qs := by
  obtain ⟨operand, h⟩ := generate_eq_ok_iff.1 h
  have hn : Tabulated t.node? 0 t.root.nodes := by
    intro i u hu
    rwa [Nat.zero_add]
  exact (h.codes hn).1

/-- The code of a tree has one quadruple for each node. -/
theorem length_of_generate (h : t.generate = .ok qs) : qs.length = t.nodeCount := by
  rw [← (codes_of_generate h).length_eq, length_nodes_root]

/-- The ids of the code of a tree count its quadruples. -/
theorem numbered_of_generate (h : t.generate = .ok qs) : Numbered 0 qs := by
  obtain ⟨operand, h⟩ := generate_eq_ok_iff.1 h
  exact h.numbered

/-- Every quadruple is the one of a node. -/
theorem exists_node (h : t.generate = .ok qs) {q : Quadruple} (hq : q ∈ qs) :
    ∃ u, Codes t.node? u q := by
  obtain ⟨hlen, hget⟩ := List.forall₂_iff_get.1 (codes_of_generate h)
  obtain ⟨i, rfl⟩ := List.get_of_mem hq
  exact ⟨_, hget i (Nat.lt_of_lt_of_eq i.isLt hlen.symm) i.isLt⟩

/-- Every node has a quadruple under its id. -/
theorem exists_quadruple (h : t.generate = .ok qs) {id : Nat} {u : Side}
    (hu : t.node? id = some u) : ∃ q ∈ qs, q.id = id ∧ Codes t.node? u q := by
  cases id with
  | zero => cases hu
  | succ i =>
      obtain ⟨hi, rfl⟩ := List.getElem?_eq_some_iff.1 hu
      obtain ⟨hlen, hget⟩ := List.forall₂_iff_get.1 (codes_of_generate h)
      have hi' : i < qs.length := hlen ▸ hi
      refine ⟨qs.get ⟨i, hi'⟩, List.get_mem _ _, ?_, hget i hi hi'⟩
      have hid : (qs.map Quadruple.id)[i]? = some (i + 1) := by
        rw [numbered_of_generate h, List.getElem?_range' hi']
        simp [Nat.add_comm]
      simpa [hi'] using hid

end Tree

end FormulaCode
