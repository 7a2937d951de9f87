import FormulaCode.Proofs.Linking
import FormulaCode.Proofs.Runs
import Mathlib.Control.Monad.Basic

/-! # Runs of lists that refer back

Where every reference goes back to an earlier quadruple, a run has the result already when it is
looked up. So such a run fails only for what the variables stand for, and never for the list
itself. A run of any other list stops: it has no results but those of the quadruples before, so
it cannot get past the first reference that does not go back. -/

namespace FormulaCode

/-- The errors that are about the list of quadruples and not about the bindings. -/
def RunError.isStructural : RunError → Bool
  | unresolvedReference _ => true
  | emptyProgram => true
  | _ => false

variable {α : Type} {I : Interpretation α} {env : Bindings α} {done : Results α}

/-- A quadruple finds its operands if the results that it refers to are there. -/
theorem Quadruple.value_resolves {q : Quadruple}
    (h : ∀ k, q.refersTo k = true → done.contains k = true) :
    Ends (fun e => e.isStructural = false) (fun _ => True) (q.value I env done) := by
  refine (q.value_ends done).imp (fun e he => ?_) fun _ h => h
  cases he with
  | operator e => rfl
  | operand hx he =>
      cases he with
      | unbound => rfl
      | @unresolved k href hk =>
          have hrefers : q.refersTo k = true :=
            decide_eq_true (List.mem_filterMap.2 ⟨_, hx, href⟩)
          cases (h k hrefers).symm.trans hk

/-- A run of quadruples that refer back resolves all references, and ends with a result for each
of them. -/
theorem runFrom_resolves {seen : List Nat} {qs : List Quadruple}
    (hb : Program.referencesBackward seen qs = true) (hd : ∀ k ∈ seen, done.contains k = true) :
    Ends (fun e => e.isStructural = false)
      (fun d => ∀ k ∈ (qs.map Quadruple.id).reverse ++ seen, d.contains k = true)
      (runFrom I env done qs) := by
  induction qs generalizing seen done with
  | nil => exact hd
  | cons q qs ih =>
      obtain ⟨hq, hb⟩ := referencesBackward_cons.1 hb
      refine (Quadruple.value_resolves fun k hk => hd k (hq k hk)).bind fun a _ => ?_
      have hnext : ∀ k ∈ q.id :: seen, (done.insert q.id a).contains k = true := by
        intro k hk
        rw [Results.contains_insert, Bool.or_eq_true, decide_eq_true_eq]
        exact (List.mem_cons.1 hk).imp id (hd k)
      simpa using ih hb hnext

/-- A run of a list that is not empty and refers back has no fault in its structure. -/
theorem run_resolves {qs : List Quadruple} (hb : Program.referencesBackward [] qs = true)
    (hne : qs ≠ []) :
    Ends (fun e => e.isStructural = false) (fun _ => True) (run I env qs) := by
  rcases List.eq_nil_or_concat qs with rfl | ⟨body, q, rfl⟩
  · exact absurd rfl hne
  · rw [List.concat_eq_append] at hb ⊢
    obtain ⟨hbody, hlast⟩ := referencesBackward_append.1 hb
    obtain ⟨hq, -⟩ := referencesBackward_cons.1 hlast
    rw [run_concat]
    refine (runFrom_resolves hbody (by simp)).bind fun d hd => ?_
    exact Quadruple.value_resolves fun k hk => hd k (hq k hk)

/-- A result that an operand stands for is there. -/
theorem Operand.contains_of_value {x : Operand} {a : α} (h : x.value I env done = .ok a) {k : Nat}
    (hk : x.reference? = some k) : done.contains k = true := by
  cases x with
  | literal | var => cases hk
  | result id =>
      obtain rfl : id = k := Option.some.inj hk
      rw [Results.contains]
      cases hget : done.get? id with
      | none => simp [value, Results.load, hget] at h
      | some b => rfl

theorem Quadruple.contains_of_value {q : Quadruple} {a : α} (h : q.value I env done = .ok a)
    {k : Nat} (hk : q.refersTo k = true) : done.contains k = true := by
  obtain ⟨l, hl, h⟩ := bind_eq_ok_iff.1 h
  obtain ⟨r, hr, -⟩ := bind_eq_ok_iff.1 h
  rcases refersTo_iff.1 hk with hk | hk
  · exact Operand.contains_of_value hl hk
  · exact Operand.contains_of_value hr hk

/-- A run that does not stop has a list that refers back. -/
theorem referencesBackward_of_runFrom {seen : List Nat} {qs : List Quadruple} {d : Results α}
    (h : runFrom I env done qs = .ok d) (hd : ∀ k, done.contains k = true → k ∈ seen) :
    Program.referencesBackward seen qs = true := by
  induction qs generalizing seen done with
  | nil => rfl
  | cons q qs ih =>
      obtain ⟨a, ha, h⟩ := bind_eq_ok_iff.1 h
      refine referencesBackward_cons.2 ⟨fun k hk => hd k (Quadruple.contains_of_value ha hk), ?_⟩
      apply ih h
      intro k hk
      rw [Results.contains_insert, Bool.or_eq_true, decide_eq_true_eq] at hk
      exact List.mem_cons.2 (hk.imp id (hd k))

theorem exists_error_of_run {qs : List Quadruple}
    (h : Program.referencesBackward [] qs = false) : ∃ e, run I env qs = .error e := by
  cases hrun : run I env qs with
  | error e => exact ⟨e, rfl⟩
  | ok a =>
      obtain ⟨d, hd, -⟩ := bind_eq_ok_iff.1 hrun
      have hback : Program.referencesBackward [] qs = true :=
        referencesBackward_of_runFrom hd fun k hk => by simp [Results.contains] at hk
      cases h.symm.trans hback

theorem Quadruple.value_ne_emptyProgram (q : Quadruple) :
    Ends (· ≠ .emptyProgram) (fun _ => True) (q.value I env done) := by
  refine (q.value_ends done).imp (fun e he => ?_) fun _ h => h
  cases he with
  | operator e => exact RunError.noConfusion
  | operand hx he =>
      cases he with
      | unbound | unresolved => exact RunError.noConfusion

/-- Only a run of nothing lacks a program. -/
theorem run_eq_emptyProgram_iff {qs : List Quadruple} :
    run I env qs = .error .emptyProgram ↔ qs = [] := by
  constructor
  · intro h
    rcases List.eq_nil_or_concat qs with hnil | ⟨body, q, rfl⟩
    · exact hnil
    · rw [List.concat_eq_append, run_concat] at h
      have hbody : Ends (· ≠ .emptyProgram) (Results.All fun _ => True)
          (runFrom I env .empty body) :=
        runFrom_ends (fun p _ _ _ => p.value_ne_emptyProgram) .empty
      exact absurd rfl ((hbody.bind fun _ _ => q.value_ne_emptyProgram).of_error h)
  · rintro rfl
    rfl

theorem run_ne_unresolvedReference {qs : List Quadruple}
    (hb : Program.referencesBackward [] qs = true) (k : Nat) :
    run I env qs ≠ .error (.unresolvedReference k) := by
  intro h
  have hne : qs ≠ [] := fun hnil => by cases h.symm.trans (run_eq_emptyProgram_iff.2 hnil)
  cases (run_resolves hb hne).of_error h

/-- The order of a program decides whether its runs can resolve their references: no run of a
program in order lacks one, every run of a program out of order stops, and only the program
without quadruples has nothing to run. -/
theorem Program.isWellOrdered_guards (p : Program) (V : Bindings Literal) (T : Bindings DataType) :
    (p.isWellOrdered = true → ∀ k, p.evaluate V ≠ .error (.unresolvedReference k) ∧
      p.infer T ≠ .error (.unresolvedReference k)) ∧
    (p.isWellOrdered = false → (∃ e, p.evaluate V = .error e) ∧ ∃ e, p.infer T = .error e) ∧
    (p.evaluate V = .error .emptyProgram ↔ p.quadruples = []) ∧
    (p.infer T = .error .emptyProgram ↔ p.quadruples = []) := by
  refine ⟨fun h k => ?_, fun h => ?_, run_eq_emptyProgram_iff, run_eq_emptyProgram_iff⟩
  · exact ⟨run_ne_unresolvedReference h k, run_ne_unresolvedReference h k⟩
  · exact ⟨exists_error_of_run h, exists_error_of_run h⟩

/-- A sum whose result is replaced by its double. -/
def doubledSum : Program where
  quadruples :=
    [⟨1, .var "x" .any, .literal (.number "1"), .add, .any⟩,
      ⟨1, .result 1, .result 1, .add, .any⟩]
  metadata := .none

/-- The same quadruples the other way round: the double comes before the sum. -/
def doubledSumReversed : Program := { doubledSum with quadruples := doubledSum.quadruples.reverse }

/-- Both quadruples have one id. In order no run lacks its result, and with a value for the variable
the run ends in one; the other way round it stops even then. -/
theorem Program.isWellOrdered_guards_doubledSum :
    doubledSum.isWellOrdered = true ∧
      (∀ k, doubledSum.evaluate (fun _ => none) ≠ .error (.unresolvedReference k) ∧
        doubledSum.infer (fun _ => none) ≠ .error (.unresolvedReference k)) ∧
      doubledSum.evaluate (fun _ => some (.number "2")) = .ok (.number "6") ∧
      doubledSum.infer (fun _ => some .number) = .ok .number ∧
      doubledSumReversed.isWellOrdered = false ∧
      (∃ e, doubledSumReversed.evaluate (fun _ => some (.number "2")) = .error e) ∧
      ∃ e, doubledSumReversed.infer (fun _ => some .number) = .error e := by
  have ordered : doubledSum.isWellOrdered = true := by decide
  have reversed : doubledSumReversed.isWellOrdered = false := by decide
  have value : doubledSum.evaluate (fun _ => some (.number "2")) = .ok (.number "6") := by
    decide +kernel
  exact ⟨ordered, (isWellOrdered_guards doubledSum _ _).1 ordered, value, rfl, reversed,
    (isWellOrdered_guards doubledSumReversed _ _).2.1 reversed⟩

end FormulaCode
