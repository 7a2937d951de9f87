import FormulaCode.Proofs.GeneratedCode
import FormulaCode.Proofs.Runs
import FormulaCode.Tree.Meaning
import Mathlib.Control.Monad.Basic

/-! # Generated code computes the meaning of its tree

The code of a nested side either stops with the error that the side stands for, or it leaves
the value of the side where its operand finds it, also after the code of other sides has
run. The code of an operand does nothing, and its look-up happens in the quadruple that uses
it. By induction on the rules of generation the run of a tree's code is the meaning of the
tree, errors included, over every interpretation: the value of the tree, and the type of its
value. -/

namespace FormulaCode

variable {α : Type} (I : Interpretation α) (env : Bindings α)

/-- The type check and the operator of a run, written out. -/
theorem Interpretation.mapError_combine (o : Operator) (a b : α) :
    (I.combine o a b).mapError RunError.evaluation =
      if I.typeOf a = I.typeOf b then (I.apply o a b).mapError .evaluation
      else .error (.evaluation (.typeMismatch (I.typeOf a) (I.typeOf b))) := by
  rw [combine]
  split
  · rfl
  · rfl

namespace Side

variable {l r : Side} (o : Operator)

theorem meaning_of_left_empty : meaning I env (.nested .empty o r) = (do
    let a ← r.meaning I env
    (I.combine .copyLeft a a).mapError .evaluation) := by
  simp [meaning, isEmpty, I.mapError_combine]

theorem meaning_of_right_empty (hl : l.isEmpty = false) :
    meaning I env (.nested l o .empty) = (do
      let a ← l.meaning I env
      (I.combine .copyLeft a a).mapError .evaluation) := by
  have he : isEmpty .empty = true := rfl
  simp [meaning, hl, he, I.mapError_combine]

theorem meaning_of_right_first (hl : l.isEmpty = false) (hn : l.isNested = false)
    (hr : r.isNested = true) :
    meaning I env (.nested l o r) = (do
      let b ← r.meaning I env
      let a ← l.meaning I env
      (I.combine o a b).mapError .evaluation) := by
  have he : r.isEmpty = false := by cases r <;> simp_all [isNested, isEmpty]
  simp [meaning, inOrder, hl, he, hn, hr, I.mapError_combine]

theorem meaning_of_left_first (hl : l.isEmpty = false) (hr : r.isEmpty = false)
    (hn : l.isNested = true ∨ r.isNested = false) :
    meaning I env (.nested l o r) = (do
      let a ← l.meaning I env
      let b ← r.meaning I env
      (I.combine o a b).mapError .evaluation) := by
  have hc : (!l.isNested && r.isNested) = false := by
    rcases hn with hn | hn <;> simp [hn]
  simp [meaning, inOrder, hl, hr, hc, I.mapError_combine]

end Side

/-- What the code of a side does on top of earlier results. Only nested code can fail. If it
does not, it ends with the value of the side, and every later state that keeps its results
gives the operand its meaning. -/
inductive Settles (count : Nat) (s : Side) (x : Fragment) (done : Results α) : Prop
  | fails {e : RunError} (hn : s.isNested = true) (hm : s.meaning I env = .error e)
      (hr : runFrom I env done x.quadruples = .error e)
  | leaves {d : Results α} (hr : runFrom I env done x.quadruples = .ok d)
      (hv : ∀ d' : Results α, (∀ k, k ≤ count + x.quadruples.length → d'.get? k = d.get? k) →
        x.operand.value I env d' = s.meaning I env)
      (hn : s.isNested = true → ∃ a, s.meaning I env = .ok a ∧ d.latest? = some a)

variable {I env} {count : Nat} {s l r : Side} {x y : Fragment} {done : Results α}

/-- A tree with one side: the closing quadruple copies what the side stands for. -/
theorem Settles.copy (h : Settles I env count s x done) (id : Nat) :
    (runFrom I env done x.quadruples >>= fun d =>
        Quadruple.value I env d ⟨id, x.operand, x.operand, .copyLeft, .any⟩) =
      s.meaning I env >>= fun a => (I.combine .copyLeft a a).mapError .evaluation := by
  cases h with
  | fails hn hm hr => rw [hr, hm, error_bind, error_bind]
  | leaves hr hv hn =>
      rw [hr, ok_bind, Quadruple.value, hv _ fun _ _ => rfl]
      cases s.meaning I env with
      | error e => rfl
      | ok a => rfl

/-- A tree with two sides: their code runs left before right, then the closing quadruple looks
up what is not computed yet. -/
theorem Settles.combine (hl : Generates count l x)
    (hr : Generates (count + x.quadruples.length) r y)
    (sl : ∀ done, Settles I env count l x done)
    (sr : ∀ done, Settles I env (count + x.quadruples.length) r y done)
    (id : Nat) (o : Operator) :
    (runFrom I env done (x.quadruples ++ y.quadruples) >>= fun d =>
        Quadruple.value I env d ⟨id, x.operand, y.operand, o, .any⟩) =
      Side.meaning I env (.nested l o r) := by
  have hle := hl.isEmpty_eq_false
  have hre := hr.isEmpty_eq_false
  rw [runFrom_append, bind_assoc]
  cases sl done with
  | fails hln hlm hlr =>
      rw [Side.meaning_of_left_first I env o hle hre (Or.inl hln), hlr, hlm, error_bind, error_bind]
  | @leaves d₁ hlr hlv hln =>
      rw [hlr, ok_bind]
      cases sr d₁ with
      | fails hrn hrm hrr =>
          rw [hrr, error_bind]
          cases hlb : l.isNested with
          | true =>
              obtain ⟨a, ha, -⟩ := hln hlb
              rw [Side.meaning_of_left_first I env o hle hre (Or.inl hlb), ha, hrm, ok_bind,
                error_bind]
          | false =>
              rw [Side.meaning_of_right_first I env o hle hlb hrn, hrm, error_bind]
      | @leaves d₂ hrr hrv hrn =>
          rw [hrr, ok_bind]
          have hleft : x.operand.value I env d₂ = l.meaning I env := by
            apply hlv
            intro k hk
            apply get?_of_runFrom I env hrr
            rw [hr.numbered.mem_ids_iff]
            omega
          have hright : y.operand.value I env d₂ = r.meaning I env := hrv d₂ fun _ _ => rfl
          rw [Quadruple.value, hleft, hright]
          by_cases hc : l.isNested = false ∧ r.isNested = true
          · obtain ⟨b, hb, -⟩ := hrn hc.2
            rw [Side.meaning_of_right_first I env o hle hc.1 hc.2, hb]
            simp only [ok_bind]
          · rw [Side.meaning_of_left_first I env o hle hre (by
              cases hlb : l.isNested <;> simp_all)]

/-- Code that is closed by a quadruple with the meaning of a side settles that side. -/
theorem Settles.close {qs : List Quadruple} {left right : Operand} {o : Operator}
    (h : (runFrom I env done qs >>= fun d =>
        Quadruple.value I env d ⟨count + qs.length + 1, left, right, o, .any⟩) =
      s.meaning I env) (hs : s.isNested = true) :
    Settles I env count s (.close count qs left o right) done := by
  cases hq : runFrom I env done qs with
  | error e =>
      rw [hq, error_bind] at h
      refine .fails hs h.symm ?_
      rw [Fragment.close_quadruples, runFrom_append, hq, error_bind]
  | ok d =>
      rw [hq, ok_bind] at h
      cases hm : s.meaning I env with
      | error e =>
          refine .fails hs hm ?_
          rw [Fragment.close_quadruples, runFrom_append, hq, ok_bind, runFrom_cons, h, hm,
            error_bind]
      | ok a =>
          have hr : runFrom I env done (Fragment.close count qs left o right).quadruples =
              .ok (d.insert (count + qs.length + 1) a) := by
            rw [Fragment.close_quadruples, runFrom_append, hq, ok_bind, runFrom_cons, h, hm,
              ok_bind, runFrom_nil]
          refine .leaves hr ?_ fun _ => ⟨a, hm, rfl⟩
          intro d' hd'
          have hk := hd' (count + qs.length + 1) (by simp [Nat.add_assoc])
          rw [Results.get?_insert, if_pos rfl] at hk
          simp [Operand.value, Results.load, hk, hm]

/-- Generated code settles its side, on top of all earlier results. -/
theorem Generates.settles (h : Generates count s x) (done : Results α) :
    Settles I env count s x done := by
  induction h generalizing done with
  | literal => exact .leaves rfl (fun _ _ => rfl) (fun hn => by cases hn)
  | var => exact .leaves rfl (fun _ _ => rfl) (fun hn => by cases hn)
  | right h ih =>
      refine .close ?_ rfl
      rw [Side.meaning_of_left_empty]
      exact (ih done).copy _
  | left h ih =>
      refine .close ?_ rfl
      rw [Side.meaning_of_right_empty I env _ h.isEmpty_eq_false]
      exact (ih done).copy _
  | both hl hr ihl ihr => exact .close (Settles.combine hl hr ihl ihr _ _) rfl

/-- The run of the code of a tree is what the tree stands for. -/
theorem run_of_generates (h : Generates 0 s x) (hs : s.isNested = true) :
    run I env x.quadruples = s.meaning I env := by
  have hset : Settles I env 0 s x .empty := h.settles .empty
  cases hset with
  | fails hn hm hr => rw [run, hr, hm, error_bind]
  | leaves hr hv hn =>
      obtain ⟨a, ha, hd⟩ := hn hs
      rw [run, hr, ha, ok_bind, Results.last, hd]

theorem Tree.run_of_generate {t : Tree} {qs : List Quadruple} (h : t.generate = .ok qs) :
    run I env qs = t.meaning I env := by
  obtain ⟨operand, h⟩ := generate_eq_ok_iff.1 h
  exact run_of_generates h rfl

/-- A generated program evaluates to the value of its tree and infers the type of its tree,
with the same error where there is none. -/
theorem evaluate_and_infer_of_generate {t : Tree} {qs : List Quadruple}
    (h : t.generate = .ok qs) (m : Metadata) (V : Bindings Literal) (T : Bindings DataType) :
    (Program.mk qs m).evaluate V = t.evaluate V ∧ (Program.mk qs m).infer T = t.infer T := by
  constructor
  · calc (Program.mk qs m).evaluate V
        = t.meaning .values V := Tree.run_of_generate h
      _ = t.evaluate V := Side.meaning_values _ V
  · calc (Program.mk qs m).infer T
        = t.meaning .types T := Tree.run_of_generate h
      _ = t.infer T := Side.meaning_types _ T

/-- A variable to the left of a tree on its own, which divides by another variable. -/
def lateLookup : Tree where
  left := .var "x" .any
  operator := .add
  right := .nested .empty .rem (.nested (.literal (.number "1")) .div (.var "y" .any))

/-- Here the division comes before the look-up, in the run as in the tree: by zero, and without a
value for the other variable, the error is the one of the division. With values for both variables
the run ends in a sum. -/
theorem evaluate_and_infer_of_generate_lateLookup :
    ∃ p : Program, lateLookup.generate = .ok p.quadruples ∧
      p.quadruples = [⟨1, .literal (.number "1"), .var "y" .any, .div, .any⟩,
        ⟨2, .result 1, .result 1, .copyLeft, .any⟩,
        ⟨3, .var "x" .any, .result 2, .add, .any⟩] ∧
      (∀ V, p.evaluate V = lateLookup.evaluate V) ∧
      (∀ T, p.infer T = lateLookup.infer T) ∧
      p.evaluate (.ofList [("y", .number "0")]) = .error (.evaluation .divisionByZero) ∧
      p.evaluate (.ofList [("x", .number "2"), ("y", .number "8")]) = .ok (.number "2.125") ∧
      p.infer (.ofList [("x", .number), ("y", .number)]) = .ok .number := by
  have hg : lateLookup.generate = .ok
      [⟨1, .literal (.number "1"), .var "y" .any, .div, .any⟩,
        ⟨2, .result 1, .result 1, .copyLeft, .any⟩,
        ⟨3, .var "x" .any, .result 2, .add, .any⟩] := rfl
  have h := evaluate_and_infer_of_generate hg .none
  refine ⟨_, hg, rfl, fun V => (h V fun _ => none).1, fun T => (h (fun _ => none) T).2, ?_, ?_, ?_⟩
  · decide +kernel
  · decide +kernel
  · decide +kernel

end FormulaCode
