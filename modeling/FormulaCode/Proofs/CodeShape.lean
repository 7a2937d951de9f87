import FormulaCode.Proofs.FoldEquivalence
import FormulaCode.Proofs.NodeTable
import FormulaCode.Proofs.Resolution

/-! # The shape of code

A tree has code unless some node has nothing on both sides. The code has a quadruple for each
node, the ids count them, references go back, and every result but the last is taken by exactly
one later quadruple: on one side, or on both sides by the copy of a single operand. Folding keeps
the last id, the order and the uses of what it leaves. So the run of a compiled formula never
meets a reference without a result. -/

namespace FormulaCode

/-! ## Trees with code -/

/-- No node of a side with code has nothing on both sides. -/
theorem Generates.not_mem_nodes {count : Nat} {s : Side} {x : Fragment}
    (h : Generates count s x) (o : Operator) : .nested .empty o .empty ∉ s.nodes := by
  intro hmem
  induction h with
  | literal | var => cases hmem
  | right h ih =>
      simp only [Side.nodes, List.nil_append, List.mem_append, List.mem_singleton] at hmem
      rcases hmem with hmem | hmem
      · exact ih hmem
      · cases hmem
        cases h
  | left h ih =>
      simp only [Side.nodes, List.append_nil, List.mem_append, List.mem_singleton] at hmem
      rcases hmem with hmem | hmem
      · exact ih hmem
      · cases hmem
        cases h
  | both hl hr ihl ihr =>
      simp only [Side.nodes, List.mem_append, List.mem_singleton] at hmem
      rcases hmem with (hmem | hmem) | hmem
      · exact ihl hmem
      · exact ihr hmem
      · cases hmem
        cases hl

/-- Any other side that is not empty has code. -/
theorem Side.exists_generates_of_nodes {s : Side} (hs : s ≠ .empty)
    (h : ∀ o, .nested .empty o .empty ∉ s.nodes) (count : Nat) : ∃ x, Generates count s x := by
  induction s generalizing count with
  | literal => exact ⟨_, .literal⟩
  | var => exact ⟨_, .var⟩
  | empty => exact absurd rfl hs
  | nested l o r ihl ihr =>
      simp only [nodes, List.mem_append, List.mem_singleton, not_or] at h
      have right : r ≠ .empty → ∀ count, ∃ x, Generates count r x :=
        fun hr => ihr hr fun p => (h p).1.2
      by_cases hl : l = .empty
      · subst hl
        have hr : r ≠ .empty := by
          rintro rfl
          exact (h o).2 rfl
        obtain ⟨x, hx⟩ := right hr count
        exact ⟨_, .right hx⟩
      · obtain ⟨x, hx⟩ := ihl hl (fun p => (h p).1.1) count
        by_cases hr : r = .empty
        · subst hr
          exact ⟨_, .left hx⟩
        · obtain ⟨y, hy⟩ := right hr (count + x.quadruples.length)
          exact ⟨_, .both hx hy⟩

/-- Generation fails on exactly the trees with a node that has nothing on both sides. -/
theorem Tree.exists_generate_error_iff (t : Tree) :
    (∃ e, t.generate = .error e) ↔ ∃ o, .nested .empty o .empty ∈ t.root.nodes := by
  constructor
  · rintro ⟨e, he⟩
    refine Classical.byContradiction fun hno => ?_
    obtain ⟨x, hx⟩ := Side.exists_generates_of_nodes (s := t.root) Side.noConfusion
      (fun o ho => hno ⟨o, ho⟩) 0
    have hok := generate_eq_ok_iff.2 ⟨x.operand, hx⟩
    cases hok.symm.trans he
  · rintro ⟨o, ho⟩
    cases hg : t.generate with
    | error e => exact ⟨e, rfl⟩
    | ok qs =>
        obtain ⟨operand, hx⟩ := generate_eq_ok_iff.1 hg
        exact absurd ho (hx.not_mem_nodes o)

/-! ## How operands are taken -/

/-- Whether a node has one operand only. -/
def Side.isSingle : Side → Bool
  | nested l _ r => l.isEmpty != r.isEmpty
  | _ => false

/-- How the quadruple of a node takes its operands: the copy of a single operand takes it on both
sides, and any other quadruple takes no result twice. -/
structure TakesOperands (s : Side) (q : Quadruple) : Prop where
  single : s.isSingle = true → q.operator = .copyLeft ∧ q.left = q.right
  other : s.isSingle = false → ∀ k, q.left.reference? = some k → q.right.reference? ≠ some k

/-- The quadruples of a side take the operands of its nodes. -/
theorem Generates.takesOperands {count : Nat} {s : Side} {x : Fragment}
    (h : Generates count s x) : List.Forall₂ TakesOperands s.nodes x.quadruples := by
  induction h with
  | literal | var => exact .nil
  | @right count o r x h ih =>
      have hs : (Side.nested .empty o r).isSingle = true := by
        simp [Side.isSingle, h.isEmpty_eq_false]
      refine List.rel_append ih (.cons ⟨fun _ => ⟨rfl, rfl⟩, fun hn => ?_⟩ .nil)
      cases hs.symm.trans hn
  | @left count l o x h ih =>
      have hs : (Side.nested l o .empty).isSingle = true := by
        simp [Side.isSingle, h.isEmpty_eq_false]
      rw [Side.nodes_left]
      refine List.rel_append ih (.cons ⟨fun _ => ⟨rfl, rfl⟩, fun hn => ?_⟩ .nil)
      cases hs.symm.trans hn
  | @both count l o r x y hl hr ihl ihr =>
      have hs : (Side.nested l o r).isSingle = false := by
        simp [Side.isSingle, hl.isEmpty_eq_false, hr.isEmpty_eq_false]
      refine List.rel_append (List.rel_append ihl ihr)
        (.cons ⟨fun hn => ?_, fun _ k hk hk' => ?_⟩ .nil)
      · cases hs.symm.trans hn
      · -- The left operand refers into code that comes before the code of the right one.
        have hleft := hl.lt_of_reference hk
        have hright := hr.lt_of_reference hk'
        omega

/-- The quadruple of a node takes its operands. -/
theorem Tree.takesOperands_of_generate {t : Tree} {qs : List Quadruple}
    (h : t.generate = .ok qs) {q : Quadruple} (hq : q ∈ qs) :
    ∃ u, t.node? q.id = some u ∧ TakesOperands u q := by
  obtain ⟨-, hcodes⟩ := List.forall₂_iff_get.1 (codes_of_generate h)
  obtain ⟨operand, hx⟩ := generate_eq_ok_iff.1 h
  obtain ⟨hlen, htakes⟩ := List.forall₂_iff_get.1 hx.takesOperands
  obtain ⟨i, rfl⟩ := List.get_of_mem hq
  have hi := Nat.lt_of_lt_of_eq i.isLt hlen.symm
  exact ⟨_, (hcodes i hi i.isLt).node, htakes i hi i.isLt⟩

/-! ## Results that are taken once -/

/-- The id of the last quadruple. -/
def lastId? (qs : List Quadruple) : Option Nat := qs.getLast?.map Quadruple.id

/-- Exactly one quadruple of a list takes the result of an id, and it has a higher id. -/
structure TakenOnce (qs : List Quadruple) (k : Nat) (q : Quadruple) : Prop where
  mem : q ∈ qs
  lt : k < q.id
  refersTo : q.refersTo k = true
  unique : ∀ p ∈ qs, p.refersTo k = true → p = q

namespace Threaded

variable {qs : List Quadruple}

/-- What stands before a quadruple has a lower id. -/
theorem id_lt_of_mem {body later : List Quadruple} {b q : Quadruple}
    (h : Threaded (body ++ q :: later)) (hb : b ∈ body) : b.id < q.id := by
  have hids := h.ids
  rw [List.map_append, List.map_cons, List.pairwise_append] at hids
  exact hids.2.2 b.id (List.mem_map_of_mem hb) q.id List.mem_cons_self

/-- References go back to lower ids. -/
theorem lt_of_refersTo (h : Threaded qs) {q : Quadruple} (hq : q ∈ qs) {k : Nat}
    (hk : q.refersTo k = true) : k < q.id := by
  obtain ⟨body, later, rfl⟩ := List.append_of_mem hq
  obtain ⟨-, hlater⟩ := referencesBackward_append.1 h.backward
  have hseen := (referencesBackward_cons.1 hlater).1 k hk
  rw [List.append_nil, List.mem_reverse] at hseen
  obtain ⟨b, hb, rfl⟩ := List.mem_map.1 hseen
  exact h.id_lt_of_mem hb

/-- In a threaded list every result but the last is taken once. -/
theorem exists_takenOnce (h : Threaded qs) {p : Quadruple} (hp : p ∈ qs)
    (hlast : lastId? qs ≠ some p.id) : ∃ q, TakenOnce qs p.id q := by
  obtain ⟨body, later, rfl⟩ := List.append_of_mem hp
  have hlater : later ≠ [] := by
    rintro rfl
    exact hlast (by simp [lastId?])
  have hlinked := (linked_append.1 h.linked).2.1
  rw [List.append_nil, List.countP_eq_length_filter, List.length_eq_one_iff] at hlinked
  obtain ⟨q, hfilter⟩ := hlinked.resolve_left hlater
  have hq : q ∈ later.filter (·.refersTo p.id) := by
    rw [hfilter]
    exact List.mem_singleton_self q
  obtain ⟨hq, hrefers⟩ := List.mem_filter.1 hq
  have hmem : q ∈ body ++ p :: later := List.mem_append_right _ (List.mem_cons_of_mem p hq)
  refine ⟨q, hmem, h.lt_of_refersTo hmem hrefers, hrefers, fun b hb hbr => ?_⟩
  have hlt := h.lt_of_refersTo hb hbr
  rcases List.mem_append.1 hb with hb | hb
  · exact absurd hlt (Nat.lt_asymm (h.id_lt_of_mem hb))
  · rcases List.mem_cons.1 hb with rfl | hb
    · exact absurd hlt (Nat.lt_irrefl _)
    · have hb' : b ∈ later.filter (·.refersTo p.id) := List.mem_filter.2 ⟨hb, hbr⟩
      rwa [hfilter, List.mem_singleton] at hb'

end Threaded

/-! ## Threads under folding -/

section Threads

open Quadruple

variable {f : Quadruple → Quadruple} {qs later : List Quadruple} {known : Results Literal}

/-- What keeps ids and references keeps uses. -/
theorem Linked.map (hid : ∀ q, (f q).id = q.id) (href : ∀ q k, (f q).refersTo k = q.refersTo k)
    (h : Linked later qs) : Linked (later.map f) (qs.map f) := by
  induction qs with
  | nil => trivial
  | cons q qs ih =>
      have huse : (fun p => p.refersTo (f q).id) ∘ f = (·.refersTo q.id) := by
        funext p
        rw [Function.comp_apply, hid, href]
      refine ⟨?_, ih h.2⟩
      rw [← List.map_append, List.map_eq_nil_iff, List.countP_map, huse]
      exact h.1

theorem referencesBackward_map (hid : ∀ q, (f q).id = q.id)
    (href : ∀ q k, (f q).refersTo k = q.refersTo k) {seen : List Nat}
    (h : Program.referencesBackward seen qs = true) :
    Program.referencesBackward seen (qs.map f) = true := by
  induction qs generalizing seen with
  | nil => rfl
  | cons q qs ih =>
      obtain ⟨hq, h⟩ := referencesBackward_cons.1 h
      rw [List.map_cons, referencesBackward_cons, hid]
      exact ⟨fun k hk => hq k (href q k ▸ hk), ih h⟩

theorem Threaded.map (h : Threaded qs) (hid : ∀ q, (f q).id = q.id)
    (href : ∀ q k, (f q).refersTo k = q.refersTo k) : Threaded (qs.map f) where
  ids := by
    rw [List.map_map, Function.comp_def]
    simpa only [hid] using h.ids
  backward := referencesBackward_map hid href h.backward
  linked := Linked.map hid href h.linked
  ne_nil := by simpa using h.ne_nil

@[simp] theorem Quadruple.refersTo_noteType (q : Quadruple) (k : Nat) :
    (noteType known q).refersTo k = q.refersTo k :=
  apply_noteType (f := fun q => q.refersTo k) (fun _ _ => rfl) q

/-- A pass keeps a last id that it does not know. -/
theorem lastId?_withoutConstants {k : Nat} (hlast : lastId? qs = some k)
    (hk : known.contains k = false) : lastId? (Quadruple.withoutConstants qs known) = some k := by
  obtain ⟨q, hq, rfl⟩ := Option.map_eq_some_iff.1 hlast
  obtain ⟨body, rfl⟩ := List.getLast?_eq_some_iff.1 hq
  rw [withoutConstants_append, withoutConstants_cons_unknown (by simpa [Results.contains] using hk),
    withoutConstants_nil]
  simp [lastId?]

/-- A pass over a threaded list keeps the last id, unless it drops everything. -/
theorem Threaded.lastId?_withoutConstants (h : Threaded qs) (hc : Certified .values known qs)
    (hne : Quadruple.withoutConstants qs known ≠ []) :
    lastId? (Quadruple.withoutConstants qs known) = lastId? qs := by
  rcases List.eq_nil_or_concat qs with rfl | ⟨body, last, rfl⟩
  · exact absurd rfl hne
  · rw [List.concat_eq_append] at h hc hne ⊢
    have hunknown : known.contains last.id = false := by
      rw [Results.contains, h.get?_last_eq_none hc hne, Option.isSome_none]
    have hlast : lastId? (body ++ [last]) = some last.id := by simp [lastId?]
    rw [lastId?_withoutConstants hlast hunknown, hlast]

/-- Folding a threaded list leaves a threaded list with the same last id. -/
theorem Quadruple.Folds.threaded {o : Folded} (h : Folds qs o) (ht : Threaded qs) :
    Threaded o.quadruples ∧ lastId? o.quadruples = lastId? qs := by
  induction h with
  | nothing => exact ⟨ht, rfl⟩
  | everything =>
      refine ⟨ht.map noteType_id refersTo_noteType, ?_⟩
      simp [lastId?, Function.comp_def]
  | pass hk _ hw _ ih =>
      have hc := ht.certified hk
      obtain ⟨hthread, hlast⟩ := ih (ht.withoutConstants hc hw)
      exact ⟨hthread, hlast.trans (ht.lastId?_withoutConstants hc hw)⟩

end Threads

/-! ## The whole shape -/

/-- The shape of the code of a tree. -/
structure GeneratedShape (t : Tree) (qs : List Quadruple) : Prop where
  /-- There is a quadruple for each node. -/
  length : qs.length = t.nodeCount
  /-- The ids count the nodes. -/
  ids : qs.map Quadruple.id = List.range' 1 t.nodeCount
  /-- References go back to ids of the code. -/
  back : ∀ q ∈ qs, ∀ k, q.refersTo k = true → 1 ≤ k ∧ k < q.id
  /-- Every result but the last is taken once. -/
  taken : ∀ k, 1 ≤ k → k < t.nodeCount → ∃ q, TakenOnce qs k q
  /-- It is taken on one side, or on both sides by the copy of a single operand. -/
  operands : ∀ q ∈ qs, ∃ u, t.node? q.id = some u ∧ TakesOperands u q

/-- The shape of what folding leaves of a list with the last id `n`. -/
structure FoldedShape (n : Nat) (qs : List Quadruple) : Prop where
  ids : (qs.map Quadruple.id).Pairwise (· < ·)
  last : lastId? qs = some n
  wellOrdered : ∀ m, (Program.mk qs m).isWellOrdered = true
  taken : ∀ p ∈ qs, p.id ≠ n → ∃ q, TakenOnce qs p.id q

/-- What is said of the code of a tree, before and after folding. -/
structure CodeShape (t : Tree) : Prop where
  fails_iff : (∃ e, t.generate = .error e) ↔ ∃ o, .nested .empty o .empty ∈ t.root.nodes
  generated : ∀ qs, t.generate = .ok qs → GeneratedShape t qs
  folded : ∀ qs o, t.generate = .ok qs → Quadruple.fold qs = .ok o →
    FoldedShape t.nodeCount o.quadruples

/-- No run of a program meets a reference without a result, or nothing to run. -/
structure Program.Resolves (p : Program) : Prop where
  evaluate : ∀ V e, p.evaluate V = .error e → e.isStructural = false
  infer : ∀ T e, p.infer T = .error e → e.isStructural = false

namespace Tree

variable {t : Tree} {qs : List Quadruple}

theorem ids_of_generate (h : t.generate = .ok qs) :
    qs.map Quadruple.id = List.range' 1 t.nodeCount := by
  rw [numbered_of_generate h, length_of_generate h]

theorem lastId?_of_generate (h : t.generate = .ok qs) : lastId? qs = some t.nodeCount := by
  rw [lastId?, ← List.getLast?_map, ids_of_generate h, ← length_innerNodes, List.range'_concat,
    List.getLast?_concat, Nat.one_mul, Nat.add_comm]

theorem generatedShape (h : t.generate = .ok qs) : GeneratedShape t qs where
  length := length_of_generate h
  ids := ids_of_generate h
  back := by
    obtain ⟨operand, h⟩ := generate_eq_ok_iff.1 h
    exact fun q hq k hk => h.lt_of_refersTo hq hk
  taken := by
    intro k hk hlt
    have hmem : k ∈ qs.map Quadruple.id := by
      rw [ids_of_generate h, List.mem_range'_1]
      omega
    obtain ⟨p, hp, rfl⟩ := List.mem_map.1 hmem
    refine (threaded_of_generate h).exists_takenOnce hp fun hlast => ?_
    rw [lastId?_of_generate h, Option.some.injEq] at hlast
    omega
  operands := fun q hq => takesOperands_of_generate h hq

end Tree

theorem Threaded.foldedShape {qs : List Quadruple} {n : Nat} (h : Threaded qs)
    (hn : lastId? qs = some n) : FoldedShape n qs where
  ids := h.ids
  last := hn
  wellOrdered := fun _ => h.backward
  taken := fun _ hp hne => h.exists_takenOnce hp fun hlast =>
    hne (Option.some.inj (hlast.symm.trans hn))

theorem Threaded.resolves {p : Program} (h : Threaded p.quadruples) : p.Resolves where
  evaluate := fun _ _ he => (run_resolves h.backward h.ne_nil).of_error he
  infer := fun _ _ he => (run_resolves h.backward h.ne_nil).of_error he

theorem threaded_of_compile {source : String} {options : CompileOptions} {p : Program}
    (h : compile source options = .ok p) : Threaded p.quadruples := by
  obtain ⟨t, qs, ht, hq⟩ := exists_generate_of_compile h
  have hthread := Tree.threaded_of_generate hq
  rcases quadruples_of_compile ht hq h with hp | ⟨o, ho, hp⟩
  · rwa [hp]
  · rw [hp]
    exact (ho.threaded hthread).1

/-- The code of every tree has the shape that its nodes give it, folding keeps what remains in
order and in use, and so every run of a compiled formula finds the results it refers to. -/
theorem codeShape_and_resolves : (∀ t : Tree, CodeShape t) ∧
    ∀ source options p, compile source options = .ok p → p.Resolves := by
  refine ⟨fun t => ⟨t.exists_generate_error_iff, fun _ => Tree.generatedShape, ?_⟩,
    fun _ _ _ h => (threaded_of_compile h).resolves⟩
  intro qs o hq ho
  obtain ⟨hthread, hlast⟩ :=
    (Quadruple.Folds.of_fold ho).threaded (Tree.threaded_of_generate hq)
  exact hthread.foldedShape (hlast.trans (Tree.lastId?_of_generate hq))

/-- A product of a sum that stands alone in its tree and a difference. -/
def copiedSum : Tree where
  left := .nested .empty .rem (.nested (.literal (.number "1")) .add (.literal (.number "2")))
  operator := .times
  right := .nested (.var "x" .any) .minus (.literal (.number "3"))

/-- The sum is taken by its copy, on both sides. Folding drops both, and the difference is still
taken by the product. -/
theorem codeShape_and_resolves_copiedSum :
    ∃ qs o p, copiedSum.generate = .ok qs ∧ GeneratedShape copiedSum qs ∧
      Quadruple.fold qs = .ok o ∧ o.quadruples.map Quadruple.id = [3, 4] ∧
      FoldedShape 4 o.quadruples ∧
      compile hiddenZero { enableConstantFolding := false } = .ok p ∧ p.Resolves := by
  have folds : Quadruple.fold
      [⟨1, .literal (.number "1"), .literal (.number "2"), .add, .any⟩,
        ⟨2, .result 1, .result 1, .copyLeft, .any⟩,
        ⟨3, .var "x" .any, .literal (.number "3"), .minus, .any⟩,
        ⟨4, .result 2, .result 3, .times, .any⟩] =
      .ok ⟨[⟨3, .var "x" .any, .literal (.number "3"), .minus, .any⟩,
        ⟨4, .literal (.number "3"), .result 3, .times, .any⟩], 2, 2⟩ := by decide +kernel
  obtain ⟨shape, resolves⟩ := codeShape_and_resolves
  have compiled := compile_unfolded parse_hiddenZero rfl
  exact ⟨_, _, _, rfl, (shape copiedSum).generated _ rfl, folds, rfl,
    (shape copiedSum).folded _ _ rfl folds, compiled, resolves _ _ _ compiled⟩

end FormulaCode
