import FormulaCode.Literal

/-! # Outcomes that may be errors

Scanning, grouping, generating, folding and running all end in a result or in the first
error met. These are the rules by which their steps are taken apart. -/

namespace FormulaCode

variable {ε δ α β : Type}

@[simp] theorem ok_bind (a : α) (f : α → Except ε β) : (Except.ok a >>= f) = f a := rfl

@[simp] theorem error_bind (e : ε) (f : α → Except ε β) :
    (Except.error e >>= f) = .error e := rfl

@[simp] theorem mapError_ok (f : ε → δ) (a : α) :
    (Except.ok a : Except ε α).mapError f = .ok a := rfl

@[simp] theorem mapError_error (f : ε → δ) (e : ε) :
    (Except.error e : Except ε α).mapError f = .error (f e) := rfl

/-- A sequence succeeds exactly when both of its steps do. -/
theorem bind_eq_ok_iff {x : Except ε α} {f : α → Except ε β} {b : β} :
    (x >>= f) = .ok b ↔ ∃ a, x = .ok a ∧ f a = .ok b := by
  cases x with
  | error e => simp
  | ok a => simp

/-- Two checks in a row accept exactly what both of them accept. -/
theorem check_bind_eq_ok_iff {x y : Except ε Unit} :
    (x >>= fun _ => y) = .ok () ↔ x = .ok () ∧ y = .ok () := by
  cases x with
  | error e => simp
  | ok a => simp

/-- Renaming errors neither adds nor loses results. -/
theorem mapError_eq_ok_iff {x : Except ε α} {f : ε → δ} {a : α} :
    x.mapError f = .ok a ↔ x = .ok a := by
  cases x with
  | error e => simp
  | ok b => simp

theorem ok_bool_eq_true_iff {b : Bool} :
    (.ok (.bool b) : Except ε Literal) = .ok (.bool true) ↔ b = true := by
  cases b with
  | false => simp [Literal.bool, Literal.boolText]
  | true => simp

/-- The outcome is a result with one property or an error with another. -/
def Ends (E : ε → Prop) (P : α → Prop) : Except ε α → Prop
  | .ok a => P a
  | .error e => E e

namespace Ends

variable {E : ε → Prop} {P : α → Prop} {x : Except ε α}

@[simp] theorem ok_iff (a : α) : Ends E P (.ok a) ↔ P a := Iff.rfl

@[simp] theorem error_iff (e : ε) : Ends E P (.error e) ↔ E e := Iff.rfl

theorem bind {Q : β → Prop} {f : α → Except ε β} (h : Ends E P x)
    (hf : ∀ a, P a → Ends E Q (f a)) : Ends E Q (x >>= f) := by
  cases x with
  | error e => exact h
  | ok a => exact hf a h

theorem imp {F : ε → Prop} {Q : α → Prop} (h : Ends E P x) (hE : ∀ e, E e → F e)
    (hP : ∀ a, P a → Q a) : Ends F Q x := by
  cases x with
  | error e => exact hE e h
  | ok a => exact hP a h

theorem mapError {f : ε → δ} {F : δ → Prop} (h : Ends E P x) (hf : ∀ e, E e → F (f e)) :
    Ends F P (x.mapError f) := by
  cases x with
  | error e => exact hf e h
  | ok a => exact h

theorem of_error {e : ε} (h : Ends E P x) (he : x = .error e) : E e := by
  rw [he] at h
  exact h

/-- An outcome is told apart by cases. -/
theorem iff_exists : Ends E P x ↔ (∃ a, x = .ok a ∧ P a) ∨ ∃ e, x = .error e ∧ E e := by
  cases x with
  | error e => simp
  | ok a => simp

end Ends

end FormulaCode
