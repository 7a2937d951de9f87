import FormulaCode.Program.Basic
import FormulaCode.Proofs.Outcome
import FormulaCode.Quadruple.Generation

/-! # The code of a tree

What generation can produce is said once, as a relation with one rule for each kind of side.
From it follow, by induction on the rules, the ids of a fragment, the place of its result and
the references inside it. All of them are stated for a fragment behind `count` others, so
that the code of the sides of a tree can be put together. -/

namespace FormulaCode

/-- The fragments of the sides, with `count` quadruples before them. -/
inductive Generates : Nat → Side → Fragment → Prop
  | literal {count v} : Generates count (.literal v) ⟨[], .literal v⟩
  | var {count name t} : Generates count (.var name t) ⟨[], .var name t⟩
  | right {count o r x} (h : Generates count r x) :
      Generates count (.nested .empty o r)
        (.close count x.quadruples x.operand .copyLeft x.operand)
  | left {count l o x} (h : Generates count l x) :
      Generates count (.nested l o .empty)
        (.close count x.quadruples x.operand .copyLeft x.operand)
  | both {count l o r x y} (hl : Generates count l x)
      (hr : Generates (count + x.quadruples.length) r y) :
      Generates count (.nested l o r)
        (.close count (x.quadruples ++ y.quadruples) x.operand o y.operand)

/-- The operands that a quadruple takes from other quadruples. -/
def Quadruple.references (q : Quadruple) : List Nat := q.operands.filterMap Operand.reference?

/-- Whether a quadruple takes an operand from the one with this id. -/
def Quadruple.refersTo (q : Quadruple) (k : Nat) : Bool := decide (k ∈ q.references)

theorem Quadruple.refersTo_iff {q : Quadruple} {k : Nat} :
    q.refersTo k = true ↔ q.left.reference? = some k ∨ q.right.reference? = some k := by
  simp [refersTo, references, operands]

namespace Fragment

variable (count : Nat) (qs : List Quadruple) (left : Operand) (o : Operator) (right : Operand)

@[simp] theorem close_quadruples : (close count qs left o right).quadruples =
    qs ++ [⟨count + qs.length + 1, left, right, o, .any⟩] := rfl

@[simp] theorem close_operand :
    (close count qs left o right).operand = .result (count + qs.length + 1) := rfl

end Fragment

@[simp] theorem Side.isEmpty_empty : Side.empty.isEmpty = true := rfl

theorem Side.eq_empty_of_isEmpty {s : Side} (h : s.isEmpty = true) : s = .empty := by
  cases s <;> simp_all [Side.isEmpty]

namespace Generates

/-- Generation succeeds only by the rules. -/
theorem of_generate {s : Side} {count : Nat} {x : Fragment} (h : s.generate count = .ok x) :
    Generates count s x := by
  induction s generalizing count x with
  | literal v =>
      obtain rfl := Except.ok.inj h
      exact .literal
  | var name t =>
      obtain rfl := Except.ok.inj h
      exact .var
  | empty => cases h
  | nested l o r ihl ihr =>
      simp only [Side.generate] at h
      split at h
      · next hl =>
          obtain rfl := Side.eq_empty_of_isEmpty hl
          obtain ⟨y, hy, h⟩ := bind_eq_ok_iff.1 h
          obtain rfl := Except.ok.inj h
          exact .right (ihr hy)
      · split at h
        · next hr =>
            obtain rfl := Side.eq_empty_of_isEmpty hr
            obtain ⟨y, hy, h⟩ := bind_eq_ok_iff.1 h
            obtain rfl := Except.ok.inj h
            exact .left (ihl hy)
        · obtain ⟨y, hy, h⟩ := bind_eq_ok_iff.1 h
          obtain ⟨z, hz, h⟩ := bind_eq_ok_iff.1 h
          obtain rfl := Except.ok.inj h
          exact .both (ihl hy) (ihr hz)

variable {count : Nat} {s : Side} {x : Fragment}

theorem isEmpty_eq_false (h : Generates count s x) : s.isEmpty = false := by
  cases h <;> rfl

/-- Generation follows the rules. -/
theorem generate_eq (h : Generates count s x) : s.generate count = .ok x := by
  induction h with
  | literal | var => rfl
  | right _ ih =>
      rw [Side.generate, if_pos Side.isEmpty_empty, ih]
      rfl
  | left h ih =>
      rw [Side.generate, if_neg (by simp [h.isEmpty_eq_false]), if_pos Side.isEmpty_empty, ih]
      rfl
  | both hl hr ihl ihr =>
      rw [Side.generate, if_neg (by simp [hl.isEmpty_eq_false]),
        if_neg (by simp [hr.isEmpty_eq_false]), ihl, ok_bind, ihr]
      rfl

end Generates

/-- The code of a tree is that of its root, by the rules. -/
theorem Tree.generate_eq_ok_iff {t : Tree} {qs : List Quadruple} : t.generate = .ok qs ↔
    ∃ operand, Generates 0 (.nested t.left t.operator t.right) ⟨qs, operand⟩ := by
  constructor
  · intro h
    obtain ⟨⟨_, operand⟩, hx, h⟩ := bind_eq_ok_iff.1 h
    obtain rfl := Except.ok.inj h
    exact ⟨operand, .of_generate hx⟩
  · rintro ⟨operand, h⟩
    rw [generate, h.generate_eq]
    rfl

/-- The ids of the quadruples count on from `count`. -/
def Numbered (count : Nat) (qs : List Quadruple) : Prop :=
  qs.map Quadruple.id = List.range' (count + 1) qs.length

namespace Numbered

variable {count : Nat} {q : Quadruple} {ps qs : List Quadruple}

theorem cons_iff : Numbered count (q :: qs) ↔ q.id = count + 1 ∧ Numbered (count + 1) qs := by
  simp [Numbered, List.range'_succ]

theorem append (hp : Numbered count ps) (hq : Numbered (count + ps.length) qs) :
    Numbered count (ps ++ qs) := by
  have hs : count + ps.length + 1 = count + 1 + ps.length := by omega
  simp only [Numbered] at hp hq ⊢
  rw [List.map_append, hp, hq, hs, List.length_append, List.range'_append_1]

theorem concat (h : Numbered count qs) (left : Operand) (o : Operator) (right : Operand) :
    Numbered count (qs ++ [⟨count + qs.length + 1, left, right, o, .any⟩]) :=
  h.append rfl

theorem id_last (h : Numbered count (qs ++ [q])) : q.id = count + qs.length + 1 := by
  simp only [Numbered, List.map_append, List.map_cons, List.map_nil, List.length_append,
    List.length_cons, List.length_nil, List.range'_concat] at h
  have hlast := (List.append_inj' h rfl).2
  simp only [List.cons.injEq, and_true] at hlast
  omega

theorem mem_ids_iff (h : Numbered count qs) {k : Nat} :
    k ∈ qs.map Quadruple.id ↔ count < k ∧ k ≤ count + qs.length := by
  rw [h, List.mem_range'_1]
  omega

theorem pairwise_lt (h : Numbered count qs) : (qs.map Quadruple.id).Pairwise (· < ·) := by
  rw [h]
  exact List.pairwise_lt_range'

end Numbered

namespace Generates

variable {count : Nat} {s : Side} {x : Fragment}

/-- The ids count on from the quadruples before. -/
theorem numbered (h : Generates count s x) : Numbered count x.quadruples := by
  induction h with
  | literal | var => rfl
  | right _ ih | left _ ih => exact ih.concat _ _ _
  | both _ _ ihl ihr => exact (ihl.append ihr).concat _ _ _

/-- The operand of a side is its last quadruple, if it has one. -/
theorem reference_eq (h : Generates count s x) : x.operand.reference? =
    if s.isNested then some (count + x.quadruples.length) else none := by
  cases h with
  | literal | var => rfl
  | right | left | both => simp [Operand.reference?, Side.isNested, Nat.add_assoc]

/-- A side without a tree has no quadruples. -/
theorem quadruples_eq_nil (h : Generates count s x) (hs : s.isNested = false) :
    x.quadruples = [] := by
  cases h with
  | literal | var => rfl
  | right | left | both => cases hs

/-- An operand refers into the fragment it stands for. -/
theorem lt_of_reference (h : Generates count s x) {k : Nat} (hk : x.operand.reference? = some k) :
    count < k ∧ k ≤ count + x.quadruples.length := by
  cases h with
  | literal | var => cases hk
  | right | left | both =>
      simp only [Fragment.close_operand, Operand.reference?, Option.some.injEq] at hk
      simp only [Fragment.close_quadruples, List.length_append, List.length_cons,
        List.length_nil] at hk ⊢
      omega

/-- Every reference stays inside the fragment and goes back. -/
theorem lt_of_refersTo (h : Generates count s x) {q : Quadruple} (hq : q ∈ x.quadruples) {k : Nat}
    (hk : q.refersTo k = true) : count < k ∧ k < q.id := by
  induction h with
  | literal | var => cases hq
  | right h ih | left h ih =>
      simp only [Fragment.close_quadruples, List.mem_append, List.mem_singleton] at hq
      rcases hq with hq | rfl
      · exact ih hq
      · have := h.lt_of_reference (by simpa [Quadruple.refersTo_iff] using hk)
        simp only
        omega
  | both hl hr ihl ihr =>
      simp only [Fragment.close_quadruples, List.mem_append, List.mem_singleton] at hq
      rcases hq with (hq | hq) | rfl
      · exact ihl hq
      · have := ihr hq
        omega
      · simp only [List.length_append]
        rcases Quadruple.refersTo_iff.1 hk with hk | hk
        · have := hl.lt_of_reference hk
          omega
        · have := hr.lt_of_reference hk
          omega

end Generates

end FormulaCode
