import FormulaCode.Proofs.OperatorTypes
import FormulaCode.Proofs.Runs
import Mathlib.Control.Monad.Basic

/-! # Inferred types are the types of values

Inference and evaluation walk the same list over two interpretations, and the walks stay in
lock step: wherever inference has a type, evaluation has a value of that type or has stopped
at a fault of data. This holds for one quadruple, and by induction for every list, whatever
its ids and references are. -/

namespace FormulaCode

/-- A run stops with a fault of data only inside an operator. -/
def RunError.isDataFault : RunError → Bool
  | evaluation e => e.isDataFault
  | unknownVariable _ | unresolvedReference _ | emptyProgram => false

/-- Under every id with an inferred type there is a value of that type. -/
def Results.Typed (types : Results DataType) (values : Results Literal) : Prop :=
  ∀ k t, types.get? k = some t → ∃ l, values.get? k = some l ∧ l.dataType = t

/-- The variables of some names that have types have values of these types. -/
def Bindings.Typed (names : List String) (types : Bindings DataType)
    (values : Bindings Literal) : Prop :=
  ∀ name ∈ names, ∀ t, types name = some t → ∃ l, values name = some l ∧ l.dataType = t

theorem Results.Typed.insert {types : Results DataType} {values : Results Literal}
    (h : types.Typed values) (id : Nat) (l : Literal) :
    (types.insert id l.dataType).Typed (values.insert id l) := by
  intro k t ht
  rw [Results.get?_insert] at ht ⊢
  split at ht
  · next hk =>
      rw [if_pos hk]
      exact ⟨l, rfl, Option.some.inj ht⟩
  · next hk =>
      rw [if_neg hk]
      exact h k t ht

/-- Two types combine when they are one type that the operator is declared for. -/
theorem Interpretation.types_combine_eq_ok_iff {o : Operator} {l r u : DataType} :
    types.combine o l r = .ok u ↔ l = r ∧ o.inferType l = .ok u := by
  by_cases h : l = r
  · simp [combine, types, h]
  · simp [combine, types, h]

variable {T : Bindings DataType} {V : Bindings Literal} {types : Results DataType}
  {values : Results Literal}

/-- An operand with a type has a value of that type: its text is not read yet. -/
theorem Operand.value_typed {x : Operand} (hV : ∀ name, x.name? = some name →
      ∀ t, T name = some t → ∃ l, V name = some l ∧ l.dataType = t)
    (hd : types.Typed values) {t : DataType} (h : x.value .types T types = .ok t) :
    ∃ l, x.value .values V values = .ok l ∧ l.dataType = t := by
  cases x with
  | literal l => exact ⟨l, rfl, Except.ok.inj h⟩
  | var name u =>
      cases hT : T name with
      | none => simp [Operand.value, hT] at h
      | some t' =>
          obtain rfl : t' = t := by simpa [Operand.value, hT] using h
          obtain ⟨l, hl, ht⟩ := hV name rfl t' hT
          exact ⟨l, by simp [Operand.value, hl], ht⟩
  | result k =>
      cases hk : types.get? k with
      | none => simp [Operand.value, Results.load, hk] at h
      | some t' =>
          obtain rfl : t' = t := by simpa [Operand.value, Results.load, hk] using h
          obtain ⟨l, hl, ht⟩ := hd k t' hk
          exact ⟨l, by simp [Operand.value, Results.load, hl], ht⟩

/-- The type inferred for a quadruple, taken apart. -/
theorem Quadruple.types_value_eq_ok_iff {q : Quadruple} {t : DataType} :
    q.value .types T types = .ok t ↔ ∃ u, q.left.value .types T types = .ok u ∧
      q.right.value .types T types = .ok u ∧ q.operator.inferType u = .ok t := by
  simp only [Quadruple.value, bind_eq_ok_iff, mapError_eq_ok_iff,
    Interpretation.types_combine_eq_ok_iff]
  constructor
  · rintro ⟨u, hl, _, hr, rfl, ho⟩
    exact ⟨u, hl, hr, ho⟩
  · rintro ⟨u, hl, hr, ho⟩
    exact ⟨u, hl, u, hr, rfl, ho⟩

/-- One quadruple: evaluation gives a value of the inferred type or stops at a fault of
data. -/
theorem Quadruple.value_typed {q : Quadruple} (hV : Bindings.Typed q.variableNames T V)
    (hd : types.Typed values) {t : DataType} (h : q.value .types T types = .ok t) :
    Ends (fun e => e.isDataFault = true) (fun l => l.dataType = t)
      (q.value .values V values) := by
  obtain ⟨u, hl, hr, ho⟩ := types_value_eq_ok_iff.1 h
  obtain ⟨l, hvl, hlt⟩ := Operand.value_typed
    (fun name hn => hV name (by simp [variableNames, operands, hn])) hd hl
  obtain ⟨r, hvr, hrt⟩ := Operand.value_typed
    (fun name hn => hV name (by simp [variableNames, operands, hn])) hd hr
  have hv : q.value .values V values =
      (q.operator.evaluate l.data r.data u).mapError .evaluation := by
    simp [Quadruple.value, hvl, hvr, Interpretation.values_combine, Operator.apply, hlt, hrt]
  rw [hv]
  exact (Operator.evaluate_computes ho l.data r.data).mapError fun _ he => he

/-- Every list: while inference goes on, evaluation goes on with values of the inferred
types or has stopped at a fault of data. -/
theorem runFrom_typed {qs : List Quadruple} {types' : Results DataType}
    (hV : Bindings.Typed (qs.flatMap Quadruple.variableNames) T V) (hd : types.Typed values)
    (h : runFrom .types T types qs = .ok types') :
    Ends (fun e => e.isDataFault = true) types'.Typed (runFrom .values V values qs) := by
  induction qs generalizing types values with
  | nil =>
      obtain rfl := Except.ok.inj h
      exact hd
  | cons q qs ih =>
      obtain ⟨t, hq, h⟩ := bind_eq_ok_iff.1 h
      simp only [List.flatMap_cons] at hV
      have hq' := Quadruple.value_typed
        (fun name hn => hV name (List.mem_append_left _ hn)) hd hq
      refine hq'.bind fun l hl => ?_
      subst hl
      exact ih (fun name hn => hV name (List.mem_append_right _ hn)) (hd.insert q.id l) h

/-- A list with a type has a value of that type, or a fault of data. -/
theorem run_typed {qs : List Quadruple} {t : DataType}
    (hV : Bindings.Typed (qs.flatMap Quadruple.variableNames) T V) (h : run .types T qs = .ok t) :
    Ends (fun e => e.isDataFault = true) (fun l => l.dataType = t) (run .values V qs) := by
  rcases List.eq_nil_or_concat qs with rfl | ⟨body, q, rfl⟩
  · cases h
  · rw [List.concat_eq_append] at h hV ⊢
    rw [run_concat] at h ⊢
    obtain ⟨types, hb, hq⟩ := bind_eq_ok_iff.1 h
    simp only [List.flatMap_append, List.flatMap_cons, List.flatMap_nil, List.append_nil] at hV
    have hbody : Ends (fun e => e.isDataFault = true) types.Typed (runFrom .values V .empty body) :=
      runFrom_typed (fun name hn => hV name (List.mem_append_left _ hn))
        (fun k t ht => by simp at ht) hb
    refine hbody.bind fun values hd => ?_
    exact Quadruple.value_typed (fun name hn => hV name (List.mem_append_right _ hn)) hd hq

/-- An inferred type is never the open one. -/
theorem run_types_ne_any {qs : List Quadruple} {t : DataType} (h : run .types T qs = .ok t) :
    t ≠ .any := by
  rcases List.eq_nil_or_concat qs with rfl | ⟨body, q, rfl⟩
  · cases h
  · rw [List.concat_eq_append, run_concat] at h
    obtain ⟨types, -, hq⟩ := bind_eq_ok_iff.1 h
    obtain ⟨u, -, -, ho⟩ := Quadruple.types_value_eq_ok_iff.1 hq
    exact Operator.ne_any_of_inferType ho

/-- A fault of data is a malformed value, a malformed time or a division by zero. -/
theorem RunError.isDataFault_iff {e : RunError} :
    e.isDataFault = true ↔ (∃ t v, e = .evaluation (.malformedValue t v)) ∨
      (∃ v, e = .evaluation (.malformedTime v)) ∨ e = .evaluation .divisionByZero := by
  cases e with
  | evaluation f => cases f <;> simp [isDataFault, EvalError.isDataFault]
  | unknownVariable _ | unresolvedReference _ | emptyProgram => simp [isDataFault]

/-- A program with an inferred type evaluates to a value of that type, and the type is
concrete, unless a text does not read as a value or a divisor is zero. No clash of types,
missing variable or missing result can stop it. -/
theorem evaluate_of_infer (p : Program) (T : Bindings DataType) (V : Bindings Literal)
    (hV : ∀ name ∈ p.variableNames, ∀ t, T name = some t →
      ∃ l, V name = some l ∧ l.dataType = t)
    {t : DataType} (h : p.infer T = .ok t) :
    t ≠ .any ∧
      ((∃ l, p.evaluate V = .ok l ∧ l.dataType = t) ∨
        (∃ u v, p.evaluate V = .error (.evaluation (.malformedValue u v))) ∨
        (∃ v, p.evaluate V = .error (.evaluation (.malformedTime v))) ∨
        p.evaluate V = .error (.evaluation .divisionByZero)) := by
  have hV' : Bindings.Typed (p.quadruples.flatMap Quadruple.variableNames) T V :=
    fun name hn => hV name (Program.mem_sortNames.2 hn)
  refine ⟨run_types_ne_any h, ?_⟩
  rcases Ends.iff_exists.1 (run_typed hV' h) with ⟨l, hl, ht⟩ | ⟨e, he, hf⟩
  · exact Or.inl ⟨l, hl, ht⟩
  · rcases RunError.isDataFault_iff.1 hf with ⟨u, v, rfl⟩ | ⟨v, rfl⟩ | rfl
    · exact Or.inr (Or.inl ⟨u, v, he⟩)
    · exact Or.inr (Or.inr (Or.inl ⟨v, he⟩))
    · exact Or.inr (Or.inr (Or.inr he))

/-- A program that stores two results under one id, the second computed from the first. -/
def repeatedId : Program where
  quadruples :=
    [⟨1, .var "from" .any, .var "until" .any, .minus, .any⟩,
      ⟨1, .literal (.number "60"), .result 1, .div, .any⟩,
      ⟨2, .result 1, .result 1, .greaterEq, .any⟩]
  metadata := .none

/-- The middle step of this program divides by a difference of times. From one moment to itself that
is a division by zero; between two moments the run ends in a truth value. -/
theorem evaluate_of_infer_repeatedId :
    repeatedId.infer (fun _ => some .time) = .ok .bool ∧
      (DataType.bool ≠ .any ∧
        ((∃ l, repeatedId.evaluate (fun _ => some (.time "2024/02/29 12:00:00")) = .ok l ∧
            l.dataType = .bool) ∨
          (∃ u v, repeatedId.evaluate (fun _ => some (.time "2024/02/29 12:00:00")) =
            .error (.evaluation (.malformedValue u v))) ∨
          (∃ v, repeatedId.evaluate (fun _ => some (.time "2024/02/29 12:00:00")) =
            .error (.evaluation (.malformedTime v))) ∨
          repeatedId.evaluate (fun _ => some (.time "2024/02/29 12:00:00")) =
            .error (.evaluation .divisionByZero))) ∧
      repeatedId.evaluate (fun _ => some (.time "2024/02/29 12:00:00")) =
        .error (.evaluation .divisionByZero) ∧
      repeatedId.evaluate (.ofList [("from", .time "2024/02/29 12:00:00"),
        ("until", .time "2024/03/01 00:00:00")]) = .ok (.bool true) := by
  have hi : repeatedId.infer (fun _ => some .time) = .ok .bool := rfl
  refine ⟨hi, evaluate_of_infer repeatedId (fun _ => some .time)
    (fun _ => some (.time "2024/02/29 12:00:00"))
    (fun _ _ _ ht => ⟨_, rfl, Option.some.inj ht⟩) hi, ?_, ?_⟩
  · decide +kernel
  · decide +kernel

end FormulaCode
