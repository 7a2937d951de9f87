/-! # Results by id

The results of quadruples under their ids, the latest first. A later result for an id
replaces the earlier one. -/

namespace FormulaCode

/-- Results under ids, latest first, at most one for each id. -/
structure Results (α : Type) where
  entries : List (Nat × α)
deriving DecidableEq, Repr

namespace Results

variable {α : Type}

/-- No results. -/
def empty : Results α := ⟨[]⟩

/-- Stores a result; it becomes the latest one. -/
def insert (r : Results α) (id : Nat) (a : α) : Results α :=
  ⟨(id, a) :: r.entries.filter fun e => e.1 != id⟩

/-- The result under an id. -/
def get? (r : Results α) (id : Nat) : Option α :=
  (r.entries.find? fun e => e.1 == id).map (·.2)

/-- Whether there is a result under an id. -/
def contains (r : Results α) (id : Nat) : Bool := (r.get? id).isSome

/-- The result stored last. -/
def latest? (r : Results α) : Option α := r.entries.head?.map (·.2)

/-- The number of ids with a result. -/
def size (r : Results α) : Nat := r.entries.length

/-- Whether there are no results. -/
def isEmpty (r : Results α) : Bool := r.entries.isEmpty

/-- The results of a list of pairs; of two pairs with one id the later wins. -/
def ofList (pairs : List (Nat × α)) : Results α :=
  pairs.foldl (fun r p => r.insert p.1 p.2) empty

@[simp] theorem get?_empty (id : Nat) : (empty : Results α).get? id = none := rfl

@[simp] theorem get?_insert (r : Results α) (id k : Nat) (a : α) :
    (r.insert id a).get? k = if k = id then some a else r.get? k := by
  by_cases h : k = id
  · simp [insert, get?, h]
  · have hne : (id == k) = false := by simp [Ne.symm h]
    simp only [insert, get?, List.find?_cons, hne, List.find?_filter, h, if_false]
    congr 2
    funext e
    by_cases he : e.1 = k
    · simp [he, h]
    · simp [he]

@[simp] theorem latest?_insert (r : Results α) (id : Nat) (a : α) :
    (r.insert id a).latest? = some a := rfl

@[simp] theorem latest?_empty : (empty : Results α).latest? = none := rfl

theorem contains_insert (r : Results α) (id k : Nat) (a : α) :
    (r.insert id a).contains k = (decide (k = id) || r.contains k) := by
  by_cases h : k = id <;> simp [contains, h]

/-- Results that are not empty have a result under some id. -/
theorem exists_contains_of_isEmpty_eq_false {r : Results α} (h : r.isEmpty = false) :
    ∃ id, r.contains id = true := by
  obtain ⟨entries⟩ := r
  cases entries with
  | nil => simp [isEmpty] at h
  | cons e es => exact ⟨e.1, by simp [contains, get?]⟩

theorem contains_eq_false_of_isEmpty {r : Results α} (h : r.isEmpty = true) (id : Nat) :
    r.contains id = false := by
  obtain ⟨entries⟩ := r
  obtain rfl := List.isEmpty_iff.1 h
  rfl

theorem size_pos {r : Results α} (h : r.isEmpty = false) : 0 < r.size := by
  obtain ⟨entries⟩ := r
  exact List.length_pos_iff.2 (List.isEmpty_eq_false_iff.1 h)

end Results

end FormulaCode
