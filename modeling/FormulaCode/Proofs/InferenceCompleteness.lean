import FormulaCode.Proofs.TypeSoundness

/-! # Inference follows evaluation

The table of declared types and the evaluation of operators admit the same types, with one
exception: two texts can be joined by the minus, and the table does not declare that. So a run
over types takes the steps of a run over values, on the types of its results, up to the first
quadruple in which a minus receives two texts. -/

namespace FormulaCode

/-- The error of inference at a minus between texts. -/
def RunError.minusOfTexts : RunError := .evaluation (.unsupportedType .minus .text)

namespace Operator

/-- The types that all operators of a kind are declared for. -/
theorem mem_acceptedTypes_of_kind {o : Operator} :
    (o.isLogical = true → .bool ∈ o.acceptedTypes) ∧
      (o.isComparison = true → .number ∈ o.acceptedTypes ∧ .time ∈ o.acceptedTypes) ∧
      (o.isArithmetic = true → .number ∈ o.acceptedTypes) := by
  cases o <;> decide

/-- Outside of the table evaluation refuses a type as inference does, except for the minus on
texts. -/
theorem evaluate_of_not_mem {o : Operator} {t : DataType} (ht : t ∉ o.acceptedTypes)
    (hm : ¬(o = minus ∧ t = .text)) (left right : String) :
    o.evaluate left right t = .error (.unsupportedType o t) := by
  obtain ⟨logical, comparison, arithmetic⟩ := o.mem_acceptedTypes_of_kind
  by_cases hany : t = .any
  · rw [evaluate, if_pos hany]
  rcases o.kind_cases with ho | ho | ho | rfl
  · have hbool : t ≠ .bool := by
      rintro rfl
      exact ht (logical ho)
    rw [evaluate_of_isLogical ho hany, connective, if_neg hbool]
  · rw [evaluate_of_isComparison ho hany]
    have hequal : t = .text ∨ t = .bool → o ≠ eq := by
      rintro (rfl | rfl) rfl <;> exact ht (by decide)
    cases t with
    | any => exact absurd rfl hany
    | number => exact absurd (comparison ho).1 ht
    | time => exact absurd (comparison ho).2 ht
    | text => exact if_neg (hequal (Or.inl rfl))
    | bool => exact if_neg (hequal (Or.inr rfl))
  · rw [evaluate_of_isArithmetic ho hany]
    cases t with
    | any | bool => rfl
    | number => exact absurd (arithmetic ho) ht
    | text =>
        refine if_neg ?_
        rintro (rfl | rfl)
        · exact ht (by decide)
        · exact hm ⟨rfl, rfl⟩
    | time =>
        refine if_neg ?_
        rintro rfl
        exact ht (by decide)
  · have hmem : t ∈ copyLeft.acceptedTypes := t.isConcrete_iff.1 (decide_eq_true hany)
    exact absurd hmem ht

/-- Where an operator has a value, the types of its operands are one type, and the table
declares the type of the value for it, except for the minus on texts. -/
theorem inferType_of_apply {o : Operator} {l r v : Literal} (h : o.apply l r = .ok v) :
    l.dataType = r.dataType ∧
      ((o = minus ∧ l.dataType = .text) ∨ o.inferType l.dataType = .ok v.dataType) := by
  by_cases ht : l.dataType = r.dataType
  · refine ⟨ht, ?_⟩
    rw [apply, if_pos ht] at h
    by_cases hm : o = minus ∧ l.dataType = .text
    · exact Or.inl hm
    · right
      by_cases hmem : l.dataType ∈ o.acceptedTypes
      · have hi : o.inferType l.dataType = .ok (o.resultType l.dataType) := by
          rw [inferType, if_pos hmem]
        have hc := evaluate_computes hi l.data r.data
        rw [h] at hc
        rw [hi, hc]
      · rw [evaluate_of_not_mem hmem hm] at h
        cases h
  · rw [apply, if_neg ht] at h
    cases h

end Operator

namespace Results

variable {α β : Type} (f : α → β)

/-- The results under the same ids, each replaced by what a function makes of it. -/
def map (r : Results α) : Results β := ⟨r.entries.map fun e => (e.1, f e.2)⟩

@[simp] theorem map_empty : (empty : Results α).map f = empty := rfl

theorem map_insert (r : Results α) (id : Nat) (a : α) :
    (r.insert id a).map f = (r.map f).insert id (f a) := by
  simp [map, insert, List.filter_map, Function.comp_def]

theorem get?_map (r : Results α) (id : Nat) : (r.map f).get? id = (r.get? id).map f := by
  simp [map, get?, List.find?_map, Function.comp_def]

theorem latest?_map (r : Results α) : (r.map f).latest? = r.latest?.map f := by
  simp [map, latest?, Function.comp_def]

end Results

theorem Interpretation.types_combine_self (o : Operator) (t : DataType) :
    types.combine o t t = o.inferType t := if_pos rfl

/-- The quadruple at which a run has arrived receives two values. -/
structure Receives (V : Bindings Literal) (done : Results Literal) (q : Quadruple)
    (l r : Literal) : Prop where
  left : q.left.value .values V done = .ok l
  right : q.right.value .values V done = .ok r

/-- In an evaluation on top of earlier results, a minus receives two texts. -/
def JoinsByMinus (V : Bindings Literal) (done : Results Literal) (qs : List Quadruple) : Prop :=
  ∃ q d l r, Reaches .values V done qs q d ∧ Receives V d q l r ∧ q.operator = .minus ∧
    l.dataType = .text ∧ r.dataType = .text

section Runs

variable {V : Bindings Literal} {T : Bindings DataType}
  (hT : ∀ name l, V name = some l → T name = some l.dataType)
include hT

/-- The type of an operand is the type of its value. -/
theorem Operand.types_value {x : Operand} {values : Results Literal} {l : Literal}
    (h : x.value .values V values = .ok l) :
    x.value .types T (values.map Literal.dataType) = .ok l.dataType := by
  cases x with
  | literal v =>
      obtain rfl := Except.ok.inj h
      rfl
  | var name t =>
      cases hV : V name with
      | none => simp [Operand.value, hV] at h
      | some v =>
          obtain rfl : v = l := by simpa [Operand.value, hV] using h
          simp [Operand.value, hT name v hV]
  | result k =>
      cases hk : values.get? k with
      | none => simp [Operand.value, Results.load, hk] at h
      | some v =>
          obtain rfl : v = l := by simpa [Operand.value, Results.load, hk] using h
          simp [Operand.value, Results.load, Results.get?_map, hk]

/-- One quadruple: inference gives the type of the value, unless a minus receives two
texts. -/
theorem Quadruple.types_value {q : Quadruple} {values : Results Literal} {v : Literal}
    (h : q.value .values V values = .ok v) :
    ∃ l r, Receives V values q l r ∧
      ((q.operator = .minus ∧ l.dataType = .text ∧ r.dataType = .text ∧
          q.value .types T (values.map Literal.dataType) = .error .minusOfTexts) ∨
        (¬(q.operator = .minus ∧ l.dataType = .text) ∧
          q.value .types T (values.map Literal.dataType) = .ok v.dataType)) := by
  obtain ⟨l, hl, h⟩ := bind_eq_ok_iff.1 h
  obtain ⟨r, hr, h⟩ := bind_eq_ok_iff.1 h
  rw [mapError_eq_ok_iff, Interpretation.values_combine] at h
  obtain ⟨ht, hi⟩ := Operator.inferType_of_apply h
  have hv : q.value .types T (values.map Literal.dataType) =
      (q.operator.inferType l.dataType).mapError .evaluation := by
    rw [Quadruple.value, Operand.types_value hT hl, ok_bind, Operand.types_value hT hr, ok_bind,
      ← ht, Interpretation.types_combine_self]
  refine ⟨l, r, ⟨hl, hr⟩, ?_⟩
  by_cases hm : q.operator = .minus ∧ l.dataType = .text
  · refine Or.inl ⟨hm.1, hm.2, ht ▸ hm.2, ?_⟩
    rw [hv, hm.1, hm.2]
    rfl
  · exact Or.inr ⟨hm, by rw [hv, hi.resolve_left hm, mapError_ok]⟩

/-- Every list: the results of inference are the types of the results of evaluation, or
inference has stopped at a minus that receives two texts. -/
theorem runFrom_types {qs : List Quadruple} {values values' : Results Literal}
    (h : runFrom .values V values qs = .ok values') :
    (¬JoinsByMinus V values qs ∧ runFrom .types T (values.map Literal.dataType) qs =
        .ok (values'.map Literal.dataType)) ∨
      (JoinsByMinus V values qs ∧ runFrom .types T (values.map Literal.dataType) qs =
        .error .minusOfTexts) := by
  induction qs generalizing values with
  | nil =>
      obtain rfl := Except.ok.inj h
      refine Or.inl ⟨?_, rfl⟩
      rintro ⟨q, d, l, r, hreach, -⟩
      cases hreach
  | cons q qs ih =>
      obtain ⟨v, hq, h⟩ := bind_eq_ok_iff.1 h
      obtain ⟨l, r, hlr, ⟨ho, hl, hr, hstop⟩ | ⟨hm, hgo⟩⟩ := Quadruple.types_value hT hq
      · refine Or.inr ⟨⟨q, values, l, r, .here, hlr, ho, hl, hr⟩, ?_⟩
        rw [runFrom_cons, hstop, error_bind]
      · rw [runFrom_cons, hgo, ok_bind, ← Results.map_insert]
        refine (ih h).imp (And.imp_left fun hnone => ?_) (And.imp_left ?_)
        · rintro ⟨p, d, a, b, hreach, hab, hp, ha, hb⟩
          cases hreach with
          | here =>
              obtain rfl : l = a := Except.ok.inj (hlr.left.symm.trans hab.left)
              exact hm ⟨hp, ha⟩
          | later hv hreach =>
              obtain rfl := Except.ok.inj (hq.symm.trans hv)
              exact hnone ⟨p, d, a, b, hreach, hab, hp, ha, hb⟩
        · rintro ⟨p, d, a, b, hreach, hrest⟩
          exact ⟨p, d, a, b, .later hq hreach, hrest⟩

/-- A program with a value infers the type of the value, or stops at a minus between texts;
and it infers the type exactly when no minus receives two texts in the evaluation. -/
theorem infer_of_evaluate (p : Program) {l : Literal} (h : p.evaluate V = .ok l) :
    (p.infer T = .ok l.dataType ∨
        p.infer T = .error (.evaluation (.unsupportedType .minus .text))) ∧
      (p.infer T = .ok l.dataType ↔ ¬JoinsByMinus V .empty p.quadruples) := by
  obtain ⟨values, hv, hlast⟩ := bind_eq_ok_iff.1 h
  have hlatest : values.latest? = some l := by
    rw [Results.last] at hlast
    split at hlast
    · next a ha =>
        rw [ha]
        exact congrArg some (Except.ok.inj hlast)
    · cases hlast
  rcases runFrom_types hT hv with ⟨hnone, hrun⟩ | ⟨hsome, hrun⟩
  · have hi : p.infer T = .ok l.dataType := by
      rw [Program.infer, run, ← Results.map_empty Literal.dataType, hrun, ok_bind, Results.last,
        Results.latest?_map, hlatest]
      rfl
    exact ⟨Or.inl hi, fun _ => hnone, fun _ => hi⟩
  · have hi : p.infer T = .error .minusOfTexts := by
      rw [Program.infer, run, ← Results.map_empty Literal.dataType, hrun, error_bind]
    refine ⟨Or.inr hi, fun hok => ?_, fun hnone => absurd hsome hnone⟩
    cases hi.symm.trans hok

end Runs

/-- A name and a suffix joined by a minus, which evaluation allows, and compared with a text
under an id that stands for two results. -/
def joinedName : Program where
  quadruples :=
    [⟨7, .var "name" .any, .var "suffix" .any, .minus, .any⟩,
      ⟨7, .result 7, .literal (.text "linux"), .eq, .any⟩,
      ⟨3, .result 7, .result 7, .and, .any⟩]
  metadata := .none

/-- Here a minus receives two texts, so there is a value and no type. -/
theorem infer_of_evaluate_joinedName :
    joinedName.evaluate (fun n => some (.text (if n = "name" then "lin" else "ux"))) =
        .ok (.bool true) ∧
      (joinedName.infer (fun _ => some .text) = .ok .bool ∨
        joinedName.infer (fun _ => some .text) =
          .error (.evaluation (.unsupportedType .minus .text))) ∧
      ¬joinedName.infer (fun _ => some .text) = .ok .bool ∧
      JoinsByMinus (fun n => some (.text (if n = "name" then "lin" else "ux"))) .empty
        joinedName.quadruples := by
  have he : joinedName.evaluate (fun n => some (.text (if n = "name" then "lin" else "ux"))) =
      .ok (.bool true) := rfl
  have hi : ¬joinedName.infer (fun _ => some .text) = .ok .bool := by
    intro h
    cases h
  have h := infer_of_evaluate (T := fun _ => some .text)
    (fun _ l hl => by rw [← Option.some.inj hl]; rfl) joinedName he
  exact ⟨he, h.1, hi, Classical.byContradiction fun hn => hi (h.2.2 hn)⟩

end FormulaCode
