import FormulaCode.Program.Run
import FormulaCode.Proofs.Outcome

/-! # Runs of lists

A run of two lists one behind the other is the run of the first continued by that of the
second, and the result of a run is the value of its last quadruple. A run that ends well has
looked up every variable, and what each of its steps preserves holds of all its results. A step
without a value misses an operand or has none for its operator. All of this holds over every
interpretation, so it serves evaluation and inference alike. -/

namespace FormulaCode

variable {α : Type} (I : Interpretation α) (env : Bindings α)

@[simp] theorem runFrom_nil (done : Results α) : runFrom I env done [] = .ok done := rfl

theorem runFrom_cons (done : Results α) (q : Quadruple) (qs : List Quadruple) :
    runFrom I env done (q :: qs) =
      q.value I env done >>= fun a => runFrom I env (done.insert q.id a) qs := rfl

theorem runFrom_append (done : Results α) (ps qs : List Quadruple) :
    runFrom I env done (ps ++ qs) =
      runFrom I env done ps >>= fun d => runFrom I env d qs := by
  induction ps generalizing done with
  | nil => rfl
  | cons p ps ih =>
      simp only [List.cons_append, runFrom_cons, bind_assoc]
      congr 1
      funext a
      exact ih (done.insert p.id a)

/-- The last quadruple of a list gives the result of its run. -/
theorem run_concat (qs : List Quadruple) (q : Quadruple) :
    run I env (qs ++ [q]) = runFrom I env .empty qs >>= fun d => q.value I env d := by
  simp only [run, runFrom_append, bind_assoc]
  congr 1
  funext d
  cases hv : q.value I env d with
  | error e => simp [runFrom_cons, hv]
  | ok a => simp [runFrom_cons, hv, Results.last]

/-- A run leaves the results under all other ids as they are. -/
theorem get?_of_runFrom {done d : Results α} {qs : List Quadruple}
    (h : runFrom I env done qs = .ok d) {k : Nat} (hk : k ∉ qs.map Quadruple.id) :
    d.get? k = done.get? k := by
  induction qs generalizing done with
  | nil => rw [← Except.ok.inj h]
  | cons q qs ih =>
      simp only [List.map_cons, List.mem_cons, not_or] at hk
      obtain ⟨a, -, ha⟩ := bind_eq_ok_iff.1 h
      rw [ih ha hk.2, Results.get?_insert, if_neg hk.1]

/-- A change of the quadruples that keeps their ids and values does not change a run. -/
theorem runFrom_map {f : Quadruple → Quadruple} (hid : ∀ q, (f q).id = q.id)
    (hv : ∀ q done, (f q).value I env done = q.value I env done) (done : Results α)
    (qs : List Quadruple) : runFrom I env done (qs.map f) = runFrom I env done qs := by
  induction qs generalizing done with
  | nil => rfl
  | cons q qs ih => simp only [List.map_cons, runFrom_cons, hid, hv, ih]

variable {I env}

/-- Why an operand is not found: a variable without a binding, or a reference without a result. -/
inductive Operand.Missing (env : Bindings α) (done : Results α) (x : Operand) : RunError → Prop
  | unbound {name} (hx : x.name? = some name) (hn : env name = none) :
      Missing env done x (.unknownVariable name)
  | unresolved {k} (hx : x.reference? = some k) (hk : done.contains k = false) :
      Missing env done x (.unresolvedReference k)

/-- Why a quadruple has no value. -/
inductive Quadruple.Stops (env : Bindings α) (done : Results α) (q : Quadruple) : RunError → Prop
  | operand {x e} (hx : x ∈ q.operands) (h : x.Missing env done e) : Stops env done q e
  | operator (e : EvalError) : Stops env done q (.evaluation e)

theorem Operand.value_ends (done : Results α) (x : Operand) :
    Ends (x.Missing env done) (fun _ => True) (x.value I env done) := by
  cases x with
  | literal v => trivial
  | var name t =>
      rw [value]
      cases hn : env name with
      | some a => trivial
      | none => exact .unbound rfl hn
  | result k =>
      rw [value, Results.load]
      cases hk : done.get? k with
      | some a => trivial
      | none => exact .unresolved rfl (by rw [Results.contains, hk, Option.isSome_none])

theorem Quadruple.value_ends (done : Results α) (q : Quadruple) :
    Ends (q.Stops env done) (fun _ => True) (q.value I env done) := by
  have operand : ∀ x ∈ q.operands, Ends (q.Stops env done) (fun _ => True) (x.value I env done) :=
    fun x hx => (x.value_ends done).imp (fun _ he => .operand hx he) fun _ h => h
  refine (operand q.left (by simp [operands])).bind fun a _ => ?_
  refine (operand q.right (by simp [operands])).bind fun b _ => ?_
  cases I.combine q.operator a b with
  | ok c => trivial
  | error e => exact .operator e

/-- A variable that is looked up has a value. -/
theorem Operand.exists_of_value {done : Results α} {x : Operand} {a : α}
    (h : x.value I env done = .ok a) {name : String} (hx : x.name? = some name) :
    ∃ b, env name = some b := by
  cases x with
  | literal v => cases hx
  | result k => cases hx
  | var n t =>
      obtain rfl : n = name := Option.some.inj hx
      cases hn : env n with
      | none => simp [Operand.value, hn] at h
      | some b => exact ⟨b, rfl⟩

/-- A run that does not stop has a value for every variable of its list. -/
theorem exists_of_runFrom {done d : Results α} {qs : List Quadruple}
    (h : runFrom I env done qs = .ok d) {name : String}
    (hname : name ∈ qs.flatMap Quadruple.variableNames) : ∃ b, env name = some b := by
  induction qs generalizing done with
  | nil => cases hname
  | cons q qs ih =>
      obtain ⟨a, hq, h⟩ := bind_eq_ok_iff.1 h
      rw [List.flatMap_cons, List.mem_append] at hname
      rcases hname with hname | hname
      · obtain ⟨l, hl, hr⟩ := bind_eq_ok_iff.1 hq
        obtain ⟨r, hr, -⟩ := bind_eq_ok_iff.1 hr
        obtain ⟨x, hx, hname⟩ := List.mem_filterMap.1 hname
        simp only [Quadruple.operands, List.mem_cons, List.not_mem_nil, or_false] at hx
        rcases hx with rfl | rfl
        · exact Operand.exists_of_value hl hname
        · exact Operand.exists_of_value hr hname
      · exact ih h hname

theorem exists_of_run {qs : List Quadruple} {a : α} (h : run I env qs = .ok a) {name : String}
    (hname : name ∈ qs.flatMap Quadruple.variableNames) : ∃ b, env name = some b := by
  obtain ⟨d, hd, -⟩ := bind_eq_ok_iff.1 h
  exact exists_of_runFrom hd hname

/-- A run on top of earlier results comes to a quadruple of its list with the results that are
done by then. -/
inductive Reaches (I : Interpretation α) (env : Bindings α) :
    Results α → List Quadruple → Quadruple → Results α → Prop
  | here {done q qs} : Reaches I env done (q :: qs) q done
  | later {done p qs q d a} (hp : p.value I env done = .ok a)
      (h : Reaches I env (done.insert p.id a) qs q d) : Reaches I env done (p :: qs) q d

/-- A run that comes to a quadruple without a value stops there. -/
theorem Reaches.runFrom_eq {done d : Results α} {q : Quadruple} {qs : List Quadruple}
    {e : RunError} (h : Reaches I env done qs q d) (hq : q.value I env d = .error e) :
    runFrom I env done qs = .error e := by
  induction h with
  | here => rw [runFrom_cons, hq, error_bind]
  | later hp _ ih => rw [runFrom_cons, hp, ok_bind, ih hq]

theorem Reaches.append {done d : Results α} {q : Quadruple} {ps : List Quadruple}
    (h : Reaches I env done ps q d) (qs : List Quadruple) : Reaches I env done (ps ++ qs) q d := by
  induction h with
  | here => exact .here
  | later hp _ ih => exact .later hp ih

/-- Every result has a property. -/
def Results.All (P : α → Prop) (done : Results α) : Prop := ∀ k a, done.get? k = some a → P a

theorem Results.All.empty {P : α → Prop} : (Results.empty : Results α).All P := by
  intro k a h
  cases h

theorem Results.All.insert {P : α → Prop} {done : Results α} (h : done.All P) (id : Nat) {a : α}
    (ha : P a) : (done.insert id a).All P := by
  intro k b hb
  rw [Results.get?_insert] at hb
  split at hb
  · exact Option.some.inj hb ▸ ha
  · exact h k b hb

section Ends

variable {E : RunError → Prop} {P : α → Prop} {qs : List Quadruple}

/-- What every step preserves is preserved by a run, and a run stops in the ways of its
steps. -/
theorem runFrom_ends
    (hs : ∀ q ∈ qs, ∀ done : Results α, done.All P → Ends E P (q.value I env done))
    {done : Results α} (hd : done.All P) : Ends E (Results.All P) (runFrom I env done qs) := by
  induction qs generalizing done with
  | nil => exact hd
  | cons q qs ih =>
      refine (hs q List.mem_cons_self done hd).bind fun a ha => ?_
      exact ih (fun p hp => hs p (List.mem_cons_of_mem q hp)) (hd.insert q.id ha)

/-- The result of a run has the property that every step preserves. -/
theorem run_ends
    (hs : ∀ q ∈ qs, ∀ done : Results α, done.All P → Ends E P (q.value I env done))
    (he : E .emptyProgram) : Ends E P (run I env qs) := by
  rcases List.eq_nil_or_concat qs with rfl | ⟨body, q, rfl⟩
  · exact he
  · rw [List.concat_eq_append] at hs ⊢
    rw [run_concat]
    have hbody : Ends E (Results.All P) (runFrom I env .empty body) :=
      runFrom_ends (fun p hp => hs p (List.mem_append_left _ hp)) .empty
    exact hbody.bind fun d hd => hs q (by simp) d hd

end Ends

end FormulaCode
