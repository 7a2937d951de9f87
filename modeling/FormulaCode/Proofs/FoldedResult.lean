import FormulaCode.Proofs.CodeShape
import FormulaCode.Proofs.FoldFixpoint
import Mathlib.Data.ENat.Lattice

/-! # The result of a folded list

A list need not be the code of a tree: its results may be taken twice or by nobody. A pass drops
every quadruple with two literals as long as anything else remains, so it may drop the last one.
How many passes a quadruple outlasts is its height, which has no bound where a variable stands
below. A pass lowers all heights by one, so folding keeps the last quadruple exactly when no other
is higher. Whichever quadruple is last in the end, its value is the one that a run of the whole
list gives it. -/

namespace FormulaCode

open Quadruple

/-! ## Heights -/

/-- The height of an operand over the heights of results. -/
def Operand.height (h : Nat → ℕ∞) : Operand → ℕ∞
  | literal _ => 0
  | var _ _ => ⊤
  | result k => h k

/-- A quadruple stands one above the higher of its operands. -/
def Quadruple.height (h : Nat → ℕ∞) (q : Quadruple) : ℕ∞ :=
  -- the maximum is written out because that of the complete order does not compute
  (if q.left.height h ≤ q.right.height h then q.right.height h else q.left.height h) + 1

/-- The heights of the results of a list, on top of earlier heights. -/
def heightsFrom (h : Nat → ℕ∞) : List Quadruple → Nat → ℕ∞
  | [] => h
  | q :: qs => heightsFrom (Function.update h q.id (q.height h)) qs

/-- The heights of the results of a list; an id without a quadruple has no bound. -/
def heights (qs : List Quadruple) : Nat → ℕ∞ := heightsFrom (fun _ => ⊤) qs

/-- No result of a list stands higher than the last one. -/
def EndsHighest (qs : List Quadruple) : Prop :=
  ∀ k ∈ qs.map Quadruple.id, ∀ last ∈ lastId? qs, heights qs k ≤ heights qs last

instance (qs : List Quadruple) : Decidable (EndsHighest qs) :=
  inferInstanceAs (Decidable (∀ k ∈ qs.map Quadruple.id, ∀ last ∈ lastId? qs,
    heights qs k ≤ heights qs last))

variable {qs : List Quadruple} {known : Results Literal} {seen : List Nat} {h h' : Nat → ℕ∞}

theorem Quadruple.height_eq_max (h : Nat → ℕ∞) (q : Quadruple) :
    q.height h = max (q.left.height h) (q.right.height h) + 1 :=
  congrArg (· + 1) (max_def _ _).symm

theorem Quadruple.height_of_literals? {q : Quadruple} {l r : Literal}
    (hlit : q.literals? = some (l, r)) (h : Nat → ℕ∞) : q.height h = 1 := by
  obtain ⟨hl, hr⟩ := literals?_eq_some_iff.1 hlit
  simp [height, hl, hr, Operand.height]

/-- A quadruple without two literals has an operand that is none. -/
theorem Quadruple.operand_of_literals? {q : Quadruple} (hlit : q.literals? = none) :
    q.left.literal? = none ∨ q.right.literal? = none := by
  obtain ⟨id, left, right, o, t⟩ := q
  cases left <;> cases right <;> simp_all [literals?, Operand.literal?]

theorem one_le_heightsFrom (hone : ∀ k, 1 ≤ h k) (qs : List Quadruple) (k : Nat) :
    1 ≤ heightsFrom h qs k := by
  induction qs generalizing h with
  | nil => exact hone k
  | cons q qs ih =>
      apply ih
      intro i
      by_cases hi : i = q.id
      · subst hi
        rw [Function.update_self]
        exact le_add_self
      · rw [Function.update_of_ne hi]
        exact hone i

/-- Every result stands above the literals. -/
theorem one_le_heights (qs : List Quadruple) (k : Nat) : 1 ≤ heights qs k :=
  one_le_heightsFrom (fun _ => le_top) qs k

/-- Without a constant to start from no height has a bound. -/
theorem heights_eq_top (hlit : ∀ q ∈ qs, q.literals? = none) : heights qs = fun _ => ⊤ := by
  have operand : ∀ x : Operand, x.literal? = none → x.height (fun _ => ⊤) = ⊤ := by
    intro x hx
    cases x with
    | literal v => cases hx
    | var name t => rfl
    | result k => rfl
  induction qs with
  | nil => rfl
  | cons q qs ih =>
      have hq : q.height (fun _ => ⊤) = ⊤ := by
        rcases operand_of_literals? (hlit q List.mem_cons_self) with hx | hx
        · simp [height_eq_max, operand _ hx]
        · simp [height_eq_max, operand _ hx]
      rw [heights, heightsFrom, hq, Function.update_eq_self]
      exact ih fun p hp => hlit p (List.mem_cons_of_mem q hp)

/-! ## Heights along a pass -/

/-- Under the ids seen so far a known result stands at one, and every other stands one higher in
the whole list than in what remains. -/
def LowersHeights (known : Results Literal) (seen : List Nat) (h h' : Nat → ℕ∞) : Prop :=
  ∀ k ∈ seen, h k = if known.contains k then 1 else h' k + 1

/-- A pass knows the results of the quadruples with two literals and no others. -/
def KnowsConstants (known : Results Literal) (qs : List Quadruple) : Prop :=
  ∀ q ∈ qs, known.contains q.id = q.literals?.isSome

theorem knowsConstants_of_computeConstants (hids : (qs.map Quadruple.id).Nodup)
    (hk : computeConstants .empty qs = .ok known) : KnowsConstants known qs := by
  intro q hq
  rcases get?_of_computeConstants hids hk hq with ⟨hlit, hget⟩ | ⟨l, r, v, hlit, -, hget⟩
  · rw [Results.contains, hget, hlit, Results.get?_empty, Option.isSome_none, Option.isSome_none]
  · rw [Results.contains, hget, hlit, Option.isSome_some, Option.isSome_some]

theorem LowersHeights.update_known (hh : LowersHeights known seen h h') {id : Nat}
    (hid : known.contains id = true) :
    LowersHeights known (id :: seen) (Function.update h id 1) h' := by
  intro k hk
  by_cases he : k = id
  · subst he
    rw [Function.update_self, if_pos hid]
  · rw [Function.update_of_ne he]
    exact hh k ((List.mem_cons.1 hk).resolve_left he)

theorem LowersHeights.update_unknown (hh : LowersHeights known seen h h') {id : Nat}
    (hid : known.contains id = false) (n : ℕ∞) :
    LowersHeights known (id :: seen) (Function.update h id (n + 1)) (Function.update h' id n) := by
  intro k hk
  by_cases he : k = id
  · subst he
    rw [Function.update_self, Function.update_self, hid, if_neg Bool.false_ne_true]
  · rw [Function.update_of_ne he, Function.update_of_ne he]
    exact hh k ((List.mem_cons.1 hk).resolve_left he)

theorem Operand.height_resolve (hh : LowersHeights known seen h h') {x : Operand}
    (hx : ∀ k, x.reference? = some k → k ∈ seen) (hlit : x.literal? = none) :
    x.height h = (x.resolve known).height h' + 1 := by
  cases x with
  | literal v => cases hlit
  | var name t => rfl
  | result k =>
      have hk := hh k (hx k rfl)
      cases hv : known.get? k with
      | none => simpa [Operand.height, Operand.resolve, Results.contains, hv] using hk
      | some v => simpa [Operand.height, Operand.resolve, Results.contains, hv] using hk

theorem Operand.height_of_literal {x : Operand} (hlit : x.literal? ≠ none) :
    x.height h = 0 ∧ (x.resolve known).height h' = 0 := by
  cases x with
  | literal v => exact ⟨rfl, rfl⟩
  | var name t => exact absurd rfl hlit
  | result k => exact absurd rfl hlit

/-- A quadruple that a pass does not compute comes down by one. -/
theorem Quadruple.height_resolve (hh : LowersHeights known seen h h') {q : Quadruple}
    (hq : ∀ k, q.refersTo k = true → k ∈ seen) (hlit : q.literals? = none) :
    q.height h = (q.resolve known).height h' + 1 := by
  have left : q.left.literal? = none →
      q.left.height h = (q.left.resolve known).height h' + 1 :=
    Operand.height_resolve hh fun k hk => hq k (refersTo_iff.2 (Or.inl hk))
  have right : q.right.literal? = none →
      q.right.height h = (q.right.resolve known).height h' + 1 :=
    Operand.height_resolve hh fun k hk => hq k (refersTo_iff.2 (Or.inr hk))
  -- A literal stays where it is, at the bottom, so the other operand decides.
  have hmax : max (q.left.height h) (q.right.height h) =
      max ((q.left.resolve known).height h') ((q.right.resolve known).height h') + 1 := by
    by_cases hl : q.left.literal? = none
    · by_cases hr : q.right.literal? = none
      · rw [left hl, right hr, max_add_add_right]
      · obtain ⟨h₁, h₂⟩ : q.right.height h = 0 ∧ (q.right.resolve known).height h' = 0 :=
          Operand.height_of_literal hr
        rw [left hl, h₁, h₂, max_eq_left zero_le, max_eq_left zero_le]
    · have hr := (operand_of_literals? hlit).resolve_left hl
      obtain ⟨h₁, h₂⟩ : q.left.height h = 0 ∧ (q.left.resolve known).height h' = 0 :=
        Operand.height_of_literal hl
      rw [right hr, h₁, h₂, max_eq_right zero_le, max_eq_right zero_le]
  rw [height_eq_max, height_eq_max, hmax]
  rfl

/-- What a pass leaves stands one lower than in the whole list. -/
theorem heightsFrom_withoutConstants (hk : KnowsConstants known qs)
    (hb : Program.referencesBackward seen qs = true) (hh : LowersHeights known seen h h') :
    LowersHeights known ((qs.map Quadruple.id).reverse ++ seen) (heightsFrom h qs)
      (heightsFrom h' (withoutConstants qs known)) := by
  induction qs generalizing seen h h' with
  | nil => exact hh
  | cons q qs ih =>
      obtain ⟨hq, hb⟩ := referencesBackward_cons.1 hb
      have hcontains := hk q List.mem_cons_self
      have htail : KnowsConstants known qs := fun p hp => hk p (List.mem_cons_of_mem q hp)
      rw [List.map_cons, List.reverse_cons, List.append_assoc, List.singleton_append, heightsFrom]
      cases hv : known.get? q.id with
      | some v =>
          rw [Results.contains, hv, Option.isSome_some] at hcontains
          obtain ⟨⟨l, r⟩, hlit⟩ := Option.isSome_iff_exists.1 hcontains.symm
          rw [withoutConstants_cons_known hv, height_of_literals? hlit]
          apply ih htail hb
          apply hh.update_known
          rw [Results.contains, hv, Option.isSome_some]
      | none =>
          rw [Results.contains, hv, Option.isSome_none] at hcontains
          have hlit : q.literals? = none := by simpa using hcontains.symm
          rw [withoutConstants_cons_unknown hv, height_resolve hh hq hlit]
          apply ih htail hb
          apply hh.update_unknown
          rw [Results.contains, hv, Option.isSome_none]

/-- What a pass leaves is what it does not know. -/
theorem mem_ids_withoutConstants {k : Nat} :
    k ∈ (withoutConstants qs known).map Quadruple.id ↔
      k ∈ qs.map Quadruple.id ∧ known.contains k = false := by
  simp only [withoutConstants, List.map_map, List.mem_map, List.mem_filter, Function.comp_apply,
    resolve_id, Bool.not_eq_true']
  constructor
  · rintro ⟨q, ⟨hq, hk⟩, rfl⟩
    exact ⟨⟨q, hq, rfl⟩, hk⟩
  · rintro ⟨⟨q, hq, rfl⟩, hk⟩
    exact ⟨q, ⟨hq, hk⟩, rfl⟩

theorem exists_lastId? (hne : qs ≠ []) : ∃ last, lastId? qs = some last := by
  obtain ⟨q, hq⟩ := Option.isSome_iff_exists.1 (List.getLast?_isSome.2 hne)
  exact ⟨q.id, by rw [lastId?, hq, Option.map_some]⟩

theorem mem_ids_of_lastId? {k : Nat} (hlast : lastId? qs = some k) : k ∈ qs.map Quadruple.id := by
  obtain ⟨q, hq, rfl⟩ := Option.map_eq_some_iff.1 hlast
  exact List.mem_map_of_mem (List.mem_of_getLast? hq)

theorem endsHighest_iff {last : Nat} (hlast : lastId? qs = some last) :
    EndsHighest qs ↔ ∀ k ∈ qs.map Quadruple.id, heights qs k ≤ heights qs last := by
  simp [EndsHighest, hlast]

section Pass

variable (hids : (qs.map Quadruple.id).Nodup) (hb : Program.referencesBackward [] qs = true)

include hids hb

/-- A pass computes what stands at one and lowers the rest by one. -/
theorem heights_withoutConstants (hk : computeConstants .empty qs = .ok known) {k : Nat}
    (hmem : k ∈ qs.map Quadruple.id) : heights qs k =
      if known.contains k then 1 else heights (withoutConstants qs known) k + 1 := by
  refine heightsFrom_withoutConstants (knowsConstants_of_computeConstants hids hk) hb
    (fun k hseen => by cases hseen) k ?_
  rw [List.append_nil, List.mem_reverse]
  exact hmem

/-- A pass that leaves the last quadruple leaves its rank. -/
theorem endsHighest_withoutConstants (hk : computeConstants .empty qs = .ok known) {last : Nat}
    (hlast : lastId? qs = some last) (hunknown : known.contains last = false) :
    EndsHighest (withoutConstants qs known) ↔ EndsHighest qs := by
  have lower : ∀ k ∈ qs.map Quadruple.id, known.contains k = false →
      heights qs k = heights (withoutConstants qs known) k + 1 := by
    intro k hmem hkn
    rw [heights_withoutConstants hids hb hk hmem, hkn, if_neg Bool.false_ne_true]
  have htop := lower last (mem_ids_of_lastId? hlast) hunknown
  rw [endsHighest_iff hlast, endsHighest_iff (lastId?_withoutConstants hlast hunknown)]
  constructor
  · intro h k hmem
    by_cases hkn : known.contains k = true
    · rw [heights_withoutConstants hids hb hk hmem, if_pos hkn]
      exact one_le_heights qs last
    · rw [Bool.not_eq_true] at hkn
      rw [lower k hmem hkn, htop]
      apply add_le_add_left
      exact h k (mem_ids_withoutConstants.2 ⟨hmem, hkn⟩)
  · intro h k hmem
    obtain ⟨hmem, hkn⟩ := mem_ids_withoutConstants.1 hmem
    have hle := h k hmem
    rw [lower k hmem hkn, htop] at hle
    exact (ENat.add_le_add_iff_right ENat.one_ne_top).1 hle

/-- A pass that drops the last quadruple leaves a higher one. -/
theorem not_endsHighest (hk : computeConstants .empty qs = .ok known) {last : Nat}
    (hlast : lastId? qs = some last) (hknown : known.contains last = true)
    (hne : withoutConstants qs known ≠ []) : ¬EndsHighest qs := by
  rw [endsHighest_iff hlast]
  intro h
  obtain ⟨q, rest, hrest⟩ := List.exists_cons_of_ne_nil hne
  have hmem : q.id ∈ (withoutConstants qs known).map Quadruple.id := by simp [hrest]
  obtain ⟨hmem, hkn⟩ := mem_ids_withoutConstants.1 hmem
  have hle := h q.id hmem
  rw [heights_withoutConstants hids hb hk hmem, hkn, if_neg Bool.false_ne_true,
    heights_withoutConstants hids hb hk (mem_ids_of_lastId? hlast), if_pos hknown] at hle
  have hzero : heights (withoutConstants qs known) q.id ≤ 0 :=
    (ENat.add_le_add_iff_right ENat.one_ne_top).1 (by rwa [zero_add])
  exact absurd ((one_le_heights _ _).trans hzero) (by decide)

end Pass

/-- Folding keeps the last quadruple exactly when no other stands higher. -/
theorem Quadruple.Folds.lastId?_eq_iff {o : Folded} (h : Folds qs o)
    (hids : (qs.map Quadruple.id).Nodup) (hb : Program.referencesBackward [] qs = true) :
    lastId? o.quadruples = lastId? qs ↔ EndsHighest qs := by
  induction h with
  | @nothing qs known hk he =>
      refine iff_of_true rfl fun k _ last _ => ?_
      have hlit : ∀ q ∈ qs, q.literals? = none := by
        intro q hq
        have hq' := knowsConstants_of_computeConstants hids hk q hq
        rw [Results.contains_eq_false_of_isEmpty he] at hq'
        simpa using hq'.symm
      rw [heights_eq_top hlit]
  | @everything qs known hk _ hw =>
      refine iff_of_true (by simp [lastId?, Function.comp_def]) fun k hmem last hlast => ?_
      have one : ∀ k ∈ qs.map Quadruple.id, heights qs k = 1 := by
        intro k hmem
        obtain ⟨q, hq, rfl⟩ := List.mem_map.1 hmem
        rw [heights_withoutConstants hids hb hk hmem,
          if_pos (withoutConstants_eq_nil_iff_forall.1 hw q hq)]
      rw [one k hmem, one last (mem_ids_of_lastId? hlast)]
  | @pass qs known rest hk he hw hrest ih =>
      have ih := ih (hids.sublist ids_withoutConstants_sublist)
        (referencesBackward_withoutConstants hb fun _ hseen => by cases hseen)
      have hne : qs ≠ [] := by
        rintro rfl
        exact hw withoutConstants_nil
      obtain ⟨last, hlast⟩ := exists_lastId? hne
      cases hkn : known.contains last with
      | false =>
          rw [lastId?_withoutConstants hlast hkn,
            endsHighest_withoutConstants hids hb hk hlast hkn] at ih
          rwa [hlast]
      | true =>
          refine iff_of_false ?_ (not_endsHighest hids hb hk hlast hkn hw)
          rw [hlast]
          intro hkept
          have hmem := hrest.ids_sublist.subset (mem_ids_of_lastId? hkept)
          rw [mem_ids_withoutConstants, hkn] at hmem
          cases hmem.2

/-! ## Values along folding -/

section Values

variable {V : Bindings Literal} {d : Results Literal} {o : Folded}

/-- A run of what a pass leaves gives the remaining ids the values of the whole run. -/
theorem exists_runFrom_withoutConstants (hids : (qs.map Quadruple.id).Nodup)
    (hb : Program.referencesBackward [] qs = true) (hk : computeConstants .empty qs = .ok known)
    (hd : runFrom .values V .empty qs = .ok d) :
    ∃ d', runFrom .values V .empty (withoutConstants qs known) = .ok d' ∧
      ∀ k ∈ (withoutConstants qs known).map Quadruple.id, d'.get? k = d.get? k := by
  -- Both runs are followed by reading off all remaining ids at once.
  let rest := { k // k ∈ (withoutConstants qs known).map Quadruple.id }
  let values (d : Results Literal) : Except RunError (rest → Option Literal) :=
    .ok fun k => d.get? k
  have hvalues : ∀ d d', KeepsPace .values known ((qs.map Quadruple.id).reverse ++ []) d d' →
      values d = values d' := by
    intro d d' hpace
    apply congrArg Except.ok
    funext ⟨k, hmem⟩
    obtain ⟨hmem, hkn⟩ := mem_ids_withoutConstants.1 hmem
    have hget := hpace k (by rwa [List.append_nil, List.mem_reverse])
    have hnone : known.get? k = none := by simpa [Results.contains] using hkn
    simpa [hnone] using hget
  have hrun : (runFrom .values V .empty (withoutConstants qs known) >>= values) =
      runFrom .values V .empty qs >>= values :=
    runFrom_withoutConstants (certified_of_computeConstants hids hk) hb
      (fun _ hseen => by cases hseen) values values hvalues
  rw [hd, ok_bind] at hrun
  obtain ⟨d', hd', heq⟩ := bind_eq_ok_iff.1 hrun
  exact ⟨d', hd', fun k hmem => congrFun (Except.ok.inj heq) ⟨k, hmem⟩⟩

/-- A run of what folding leaves gives its ids the values of the whole run. -/
theorem Quadruple.Folds.exists_runFrom (h : Folds qs o) (hids : (qs.map Quadruple.id).Nodup)
    (hb : Program.referencesBackward [] qs = true) (hd : runFrom .values V .empty qs = .ok d) :
    ∃ d', runFrom .values V .empty o.quadruples = .ok d' ∧
      ∀ k ∈ o.quadruples.map Quadruple.id, d'.get? k = d.get? k := by
  induction h generalizing d with
  | nothing => exact ⟨d, hd, fun _ _ => rfl⟩
  | everything => exact ⟨d, by rw [runFrom_noteType, hd], fun _ _ => rfl⟩
  | pass hk _ _ hrest ih =>
      obtain ⟨d₁, hd₁, hsame₁⟩ := exists_runFrom_withoutConstants hids hb hk hd
      obtain ⟨d₂, hd₂, hsame₂⟩ := ih (hids.sublist ids_withoutConstants_sublist)
        (referencesBackward_withoutConstants hb fun _ hseen => by cases hseen) hd₁
      refine ⟨d₂, hd₂, fun k hmem => ?_⟩
      rw [hsame₂ k hmem, hsame₁ k (hrest.ids_sublist.subset hmem)]

/-- The result of a run stands under the last id. -/
theorem exists_result_of_runFrom (hd : runFrom .values V .empty qs = .ok d) {last : Nat}
    (hlast : lastId? qs = some last) :
    ∃ l, run .values V qs = .ok l ∧ d.get? last = some l := by
  obtain ⟨q, hq, rfl⟩ := Option.map_eq_some_iff.1 hlast
  obtain ⟨body, rfl⟩ := List.getLast?_eq_some_iff.1 hq
  rw [run, hd, ok_bind]
  rw [runFrom_append] at hd
  obtain ⟨d₀, -, hd⟩ := bind_eq_ok_iff.1 hd
  obtain ⟨a, -, hd⟩ := bind_eq_ok_iff.1 hd
  obtain rfl := Except.ok.inj hd
  exact ⟨a, rfl, by rw [Results.get?_insert, if_pos rfl]⟩

end Values

/-- Folding a list with distinct ids that refer back keeps its last quadruple exactly when no other
stands higher. Where the list has a value, what folding leaves has the value that the run of the
whole list gives to the quadruple that is last now; so the value is kept if the last quadruple
is. -/
theorem Program.evaluate_of_fold (p : Program) {o : Folded} (horder : p.isWellOrdered = true)
    (hids : (p.quadruples.map Quadruple.id).Nodup) (hfold : fold p.quadruples = .ok o) :
    (lastId? o.quadruples = lastId? p.quadruples ↔ EndsHighest p.quadruples) ∧
    ∀ V l, p.evaluate V = .ok l → ∃ d last l',
      runFrom .values V .empty p.quadruples = .ok d ∧ lastId? o.quadruples = some last ∧
      d.get? last = some l' ∧ { p with quadruples := o.quadruples }.evaluate V = .ok l' ∧
      (EndsHighest p.quadruples → l' = l) := by
  have h := Folds.of_fold hfold
  have hkept := h.lastId?_eq_iff hids horder
  refine ⟨hkept, fun V l hl => ?_⟩
  obtain ⟨d, hd, -⟩ := bind_eq_ok_iff.1 hl
  obtain ⟨d', hd', hsame⟩ := h.exists_runFrom hids horder hd
  have hne : o.quadruples ≠ [] := by
    intro hnil
    rw [Program.evaluate, run_eq_emptyProgram_iff.2 (h.eq_nil hnil)] at hl
    cases hl
  obtain ⟨last, hlast⟩ := exists_lastId? hne
  obtain ⟨l', hl', hget⟩ := exists_result_of_runFrom hd' hlast
  rw [hsame last (mem_ids_of_lastId? hlast)] at hget
  refine ⟨d, last, l', hd, hlast, hget, hl', fun hhigh => ?_⟩
  have hlast' : lastId? p.quadruples = some last := by rw [← hkept.2 hhigh, hlast]
  obtain ⟨l₀, hl₀, hget₀⟩ := exists_result_of_runFrom hd hlast'
  obtain rfl : l₀ = l := Except.ok.inj (hl₀.symm.trans hl)
  exact Option.some.inj (hget.symm.trans hget₀)

/-- The results need not be in the order of their ids, one is taken twice, and one by nobody. -/
def looseEnds : Program where
  quadruples :=
    [⟨5, .literal (.number "1"), .literal (.number "2"), .add, .any⟩,
      ⟨3, .var "x" .any, .result 5, .times, .any⟩,
      ⟨4, .result 5, .var "x" .any, .minus, .any⟩]
  metadata := .none

/-- The sum is dropped, the product that nobody takes stays, and the difference is the result. -/
theorem Program.evaluate_of_fold_looseEnds :
    looseEnds.isWellOrdered = true ∧ (looseEnds.quadruples.map Quadruple.id).Nodup ∧
      EndsHighest looseEnds.quadruples ∧ ∃ o, fold looseEnds.quadruples = .ok o ∧
        o.quadruples.map Quadruple.id = [3, 4] ∧
        looseEnds.evaluate (fun _ => some (.number "2")) = .ok (.number "1") ∧
        { looseEnds with quadruples := o.quadruples }.evaluate (fun _ => some (.number "2")) =
          .ok (.number "1") := by
  have order : looseEnds.isWellOrdered = true := by decide
  have ids : (looseEnds.quadruples.map Quadruple.id).Nodup := by decide
  have folds : fold looseEnds.quadruples = .ok
      ⟨[⟨3, .var "x" .any, .literal (.number "3"), .times, .any⟩,
        ⟨4, .literal (.number "3"), .var "x" .any, .minus, .any⟩], 1, 1⟩ := by decide +kernel
  have value : looseEnds.evaluate (fun _ => some (.number "2")) = .ok (.number "1") := by
    decide +kernel
  have high : EndsHighest looseEnds.quadruples := by decide
  obtain ⟨d, last, l, -, -, -, hl, hsame⟩ :=
    (looseEnds.evaluate_of_fold order ids folds).2 _ _ value
  exact ⟨order, ids, high, _, folds, rfl, value, by rw [hl, hsame high]⟩

/-- A sum of variables that nobody takes, before a constant. -/
def constantEnd : Program where
  quadruples :=
    [⟨1, .var "x" .any, .var "y" .any, .add, .any⟩,
      ⟨2, .literal (.number "1"), .literal (.number "2"), .add, .any⟩]
  metadata := .none

/-- Folding does not keep the value of every list: the constant at the end is dropped, and the sum
before it becomes the result. -/
theorem Program.evaluate_ne_of_fold_constantEnd :
    ¬∀ (p : Program) (o : Folded), p.isWellOrdered = true →
      (p.quadruples.map Quadruple.id).Nodup → fold p.quadruples = .ok o →
      ∀ V l, p.evaluate V = .ok l → { p with quadruples := o.quadruples }.evaluate V = .ok l := by
  intro h
  have folds : fold constantEnd.quadruples = .ok
      ⟨[⟨1, .var "x" .any, .var "y" .any, .add, .any⟩], 1, 1⟩ := by decide +kernel
  have value : constantEnd.evaluate (fun _ => some (.number "4")) = .ok (.number "3") := by
    decide +kernel
  have folded := h constantEnd _ (by decide) (by decide) folds _ _ value
  revert folded
  decide +kernel

end FormulaCode
