import FormulaCode.Proofs.FoldEquivalence
import FormulaCode.Proofs.TokenParts

/-! # What a run depends on

A run looks up the variables of its quadruples and no others, and unless it fails it looks up
all of them. That holds over every interpretation, so for evaluation and inference alike. The
variables of a compiled formula are those of its tokens: grouping keeps all operands, the code of
a tree takes each of them once or twice, and folding drops quadruples of two literals only. -/

namespace FormulaCode

variable {α : Type} {I : Interpretation α} {env env' : Bindings α}

/-! ## Runs under bindings -/

namespace Operand

variable {x : Operand}

/-- Bindings play a role for the name of a variable only. -/
theorem value_congr (h : ∀ name, x.name? = some name → env name = env' name)
    (done : Results α) : x.value I env done = x.value I env' done := by
  cases x with
  | literal | result => rfl
  | var name t => simp only [value, h name rfl]

end Operand

namespace Quadruple

variable {q : Quadruple}

theorem mem_variableNames {name : String} :
    name ∈ q.variableNames ↔ q.left.name? = some name ∨ q.right.name? = some name := by
  simp [variableNames, operands]

theorem value_congr (h : ∀ name ∈ q.variableNames, env name = env' name) (done : Results α) :
    q.value I env done = q.value I env' done := by
  have hl := q.left.value_congr (I := I) (fun n hn => h n (mem_variableNames.2 (.inl hn))) done
  have hr := q.right.value_congr (I := I) (fun n hn => h n (mem_variableNames.2 (.inr hn))) done
  rw [value, value, hl, hr]

end Quadruple

/-- Bindings that agree on the variables of a list give the same run. -/
theorem runFrom_congr {qs : List Quadruple}
    (h : ∀ name ∈ qs.flatMap Quadruple.variableNames, env name = env' name) (done : Results α) :
    runFrom I env done qs = runFrom I env' done qs := by
  induction qs generalizing done with
  | nil => rfl
  | cons q qs ih =>
      rw [List.flatMap_cons, List.forall_mem_append] at h
      rw [runFrom_cons, runFrom_cons, Quadruple.value_congr h.1]
      congr 1
      funext a
      exact ih h.2 _

/-- Outcomes that depend on these variables and no others. -/
structure DependsOn (names : List String) (outcome : Bindings α → Except RunError α) : Prop where
  /-- Bindings that agree on the variables have the same outcome. -/
  congr : ∀ env env', (∀ name ∈ names, env name = env' name) → outcome env = outcome env'
  /-- There is a result only where all of them are bound. -/
  bound : ∀ env a, outcome env = .ok a → ∀ name ∈ names, ∃ b, env name = some b
  /-- An unknown variable is one of them, without a binding. -/
  unknown : ∀ env name, outcome env = .error (.unknownVariable name) →
    name ∈ names ∧ env name = none

/-- A run depends on the variables of its list. -/
theorem run_dependsOn {qs : List Quadruple} {names : List String}
    (h : ∀ name, name ∈ names ↔ name ∈ qs.flatMap Quadruple.variableNames) :
    DependsOn names fun env => run I env qs where
  congr := by
    intro env env' he
    simp only [run, runFrom_congr fun name hn => he name ((h name).2 hn)]
  bound := fun env a ha name hn => exists_of_run ha ((h name).1 hn)
  unknown := by
    intro env name he
    have hends : Ends (fun e => ∀ n, e = .unknownVariable n → n ∈ names ∧ env n = none)
        (fun _ => True) (run I env qs) := by
      refine run_ends (fun q hq done _ => ?_) (by rintro _ ⟨⟩)
      refine (q.value_ends done).imp (fun e he n hn => ?_) fun _ h => h
      subst hn
      cases he with
      | operand hx he =>
          cases he with
          | unbound hname hn =>
              have hmem : n ∈ q.variableNames := List.mem_filterMap.2 ⟨_, hx, hname⟩
              exact ⟨(h n).2 (List.mem_flatMap.2 ⟨q, hq, hmem⟩), hn⟩
    exact hends.of_error he name rfl

/-! ## The variables of a compiled formula -/

namespace Quadruple

variable {known : Results Literal} {qs : List Quadruple}

@[simp] theorem variableNames_resolve (q : Quadruple) :
    (q.resolve known).variableNames = q.variableNames := by
  have operand : ∀ x : Operand, (x.resolve known).name? = x.name? := by
    intro x
    cases x with
    | literal | var => rfl
    | result id =>
        simp only [Operand.resolve]
        split <;> rfl
  simp only [variableNames, operands, resolve, List.filterMap_cons, operand]

@[simp] theorem variableNames_noteType (q : Quadruple) :
    (noteType known q).variableNames = q.variableNames :=
  apply_noteType (fun _ _ => rfl) q

/-- A pass keeps all variables, since what it drops has none. -/
theorem variableNames_withoutConstants (h : Certified I known qs) :
    (withoutConstants qs known).flatMap variableNames = qs.flatMap variableNames := by
  induction qs with
  | nil => rfl
  | cons q qs ih =>
      cases hv : known.get? q.id with
      | none =>
          rw [withoutConstants_cons_unknown hv, List.flatMap_cons, List.flatMap_cons, ih h.tail,
            variableNames_resolve]
      | some v =>
          obtain ⟨l, r, hlit, -⟩ := h q List.mem_cons_self v hv
          obtain ⟨hl, hr⟩ := literals?_eq_some_iff.1 hlit
          have hnone : q.variableNames = [] := by
            simp [variableNames, operands, hl, hr, Operand.name?]
          rw [withoutConstants_cons_known hv, List.flatMap_cons, ih h.tail, hnone, List.nil_append]

/-- Folding a threaded list keeps all variables. -/
theorem Folds.variableNames_eq {o : Folded} (h : Folds qs o) (ht : Threaded qs) :
    o.quadruples.flatMap variableNames = qs.flatMap variableNames := by
  induction h with
  | nothing => rfl
  | everything => simp only [List.flatMap_map, variableNames_noteType]
  | pass hk _ hw _ ih =>
      have hc := ht.certified hk
      rw [ih (ht.withoutConstants hc hw), variableNames_withoutConstants hc]

end Quadruple

namespace Generates

variable {count : Nat} {s : Side} {x : Fragment}

/-- The code of a tree becomes a reference. -/
theorem name?_eq_none (h : Generates count s x) (hs : s.isNested = true) :
    x.operand.name? = none := by
  cases h with
  | literal | var => cases hs
  | right | left | both => rfl

/-- The variables in the code of a side, or in the operand that it becomes, are those of the
side. -/
theorem mem_variableNames_iff (h : Generates count s x) (name : String) :
    name ∈ x.quadruples.flatMap Quadruple.variableNames ∨ x.operand.name? = some name ↔
      ∃ t, .inl (.var name t) ∈ s.items := by
  induction h with
  | literal => simp [Operand.name?, Side.items]
  | var => simp [Operand.name?, Side.items, eq_comm]
  | right _ ih | left _ ih =>
      simp [Quadruple.mem_variableNames, Side.items, Operand.name?, ← ih]
  | both _ _ ihl ihr =>
      simp only [Fragment.close_quadruples, Fragment.close_operand, List.flatMap_append,
        List.flatMap_cons, List.flatMap_nil, List.append_nil, List.mem_append,
        Quadruple.mem_variableNames, Side.items, List.mem_cons, reduceCtorEq, false_or,
        Operand.name?, or_false, exists_or, ← ihl, ← ihr]
      exact or_or_or_comm

end Generates

section Compile

variable {source : String} {t : Tree} {qs : List Quadruple} {options : CompileOptions}
  {p : Program}

/-- The variables in the code of a formula are those of its tokens, at all depths. -/
theorem mem_variableNames_of_generate (ht : Tree.parse source = .ok t)
    (hq : t.generate = .ok qs) : ∃ ts, Token.scan source = .ok ts ∧ ∀ name,
      name ∈ qs.flatMap Quadruple.variableNames ↔ .var name ∈ Token.partsAll ts := by
  obtain ⟨ts, s, hs, -, hd, rfl⟩ := Tree.parse_eq_ok_iff_derives.1 ht
  obtain ⟨operand, hx⟩ := Tree.generate_eq_ok_iff.1 hq
  refine ⟨ts, hs, fun name => ?_⟩
  have hroot := hx.name?_eq_none rfl
  have hcode := hx.mem_variableNames_iff name
  simp only [hroot, reduceCtorEq, or_false, Tree.inl_mem_items_ofSide, hd.items_eq,
    Token.var_mem_itemsAll_iff, exists_eq_left] at hcode
  exact hcode

/-- Compiling keeps the variables of the code, with folding and without. -/
theorem variableNames_of_compile (ht : Tree.parse source = .ok t) (hq : t.generate = .ok qs)
    (h : compile source options = .ok p) :
    p.quadruples.flatMap Quadruple.variableNames = qs.flatMap Quadruple.variableNames := by
  rcases quadruples_of_compile ht hq h with hp | ⟨o, ho, hp⟩
  · rw [hp]
  · rw [hp, ho.variableNames_eq (Tree.threaded_of_generate hq)]

/-- What the variables of a program say about its tokens and its runs. -/
structure VariablesOf (ts : List Token) (p : Program) : Prop where
  /-- They are listed in order, each once. -/
  sorted : p.variableNames.Pairwise (· < ·)
  /-- They are the variable tokens, at all depths. -/
  tokens : ∀ name, name ∈ p.variableNames ↔ .var name ∈ Token.partsAll ts
  /-- Evaluation depends on them, and on no others. -/
  evaluate : DependsOn p.variableNames p.evaluate
  /-- So does inference. -/
  infer : DependsOn p.variableNames p.infer

/-- The variables of a compiled formula are those of its text, with folding and without, and a run
depends on exactly these. -/
theorem variablesOf_of_compile (h : compile source options = .ok p) :
    ∃ ts, Token.scan source = .ok ts ∧ VariablesOf ts p ∧
      ∀ options' p', compile source options' = .ok p' → p'.variableNames = p.variableNames := by
  obtain ⟨t, qs, ht, hq⟩ := exists_generate_of_compile h
  obtain ⟨ts, hs, hnames⟩ := mem_variableNames_of_generate ht hq
  have hp := variableNames_of_compile ht hq h
  have hmem : ∀ name,
      name ∈ p.variableNames ↔ name ∈ p.quadruples.flatMap Quadruple.variableNames :=
    fun _ => Program.mem_sortNames
  refine ⟨ts, hs, ⟨Program.pairwise_sortNames _, fun name => ?_, run_dependsOn hmem,
    run_dependsOn hmem⟩, fun options' p' h' => ?_⟩
  · rw [hmem, hp, hnames]
  · rw [Program.variableNames, Program.variableNames, variableNames_of_compile ht hq h', hp]

/-- Folding drops two quadruples of the divisor, and the numerator stays the only variable. With
another divisor its value decides the result, whatever else is bound. -/
theorem variablesOf_of_compile_hiddenZero :
    (∃ p, compile hiddenZero { enableConstantFolding := true } = .ok p ∧
      p.size = 1 ∧ p.variableNames = ["x"] ∧
      ∃ ts, Token.scan hiddenZero = .ok ts ∧ VariablesOf ts p ∧
        ∀ options' p', compile hiddenZero options' = .ok p' →
          p'.variableNames = p.variableNames) ∧
    ∃ p, compile hiddenTwo { enableConstantFolding := true } = .ok p ∧
      p.variableNames = ["x"] ∧
      ∀ V, V "x" = some (.number "7") → p.evaluate V = .ok (.number "3.5") := by
  constructor
  · obtain ⟨p, folded, hq⟩ := compile_hiddenZero
    refine ⟨p, folded, ?_, ?_, variablesOf_of_compile folded⟩
    · rw [Program.size, hq]
      rfl
    · rw [Program.variableNames, hq]
      rfl
  · obtain ⟨p, folded, hq⟩ := compile_hiddenTwo
    obtain ⟨ts, -, hvars, -⟩ := variablesOf_of_compile folded
    have names : p.variableNames = ["x"] := by
      rw [Program.variableNames, hq]
      rfl
    refine ⟨p, folded, names, fun V hV => ?_⟩
    have agree : ∀ name ∈ p.variableNames, V name = some (.number "7") := by
      rw [names]
      simpa using hV
    rw [hvars.evaluate.congr V (fun _ => some (.number "7")) agree, Program.evaluate, hq]
    decide +kernel

end Compile

end FormulaCode
