import FormulaCode.Quadruple.Basic

/-! # Programs

A program is a list of quadruples with a note of where it comes from. The last quadruple
computes its result. -/

namespace FormulaCode

/-- Where a program comes from and what folding did to it. -/
structure Metadata where
  source : String
  optimizationPasses : Nat
  foldedQuadruples : Nat
  compilerVersion : String
deriving DecidableEq, Repr

/-- The metadata of a program made by hand. -/
def Metadata.none : Metadata := ⟨"", 0, 0, ""⟩

/-- A program. -/
structure Program where
  quadruples : List Quadruple
  metadata : Metadata
deriving DecidableEq, Repr

namespace Program

/-- The number of quadruples. -/
def size (p : Program) : Nat := p.quadruples.length

/-- The quadruple that computes the result. -/
def result? (p : Program) : Option Quadruple := p.quadruples.getLast?

/-- The first quadruple with an id. -/
def get? (p : Program) (id : Nat) : Option Quadruple := p.quadruples.find? fun q => q.id == id

/-- Puts a name into a sorted list, once. -/
def insertName (name : String) : List String → List String
  | [] => [name]
  | n :: ns =>
      if name < n then name :: n :: ns
      else if name = n then n :: ns
      else n :: insertName name ns

/-- The names in order of their characters, each once. -/
def sortNames (names : List String) : List String :=
  names.foldl (fun sorted name => insertName name sorted) []

/-- The names of the variables, sorted, each once. -/
def variableNames (p : Program) : List String :=
  sortNames (p.quadruples.flatMap Quadruple.variableNames)

/-- Whether every reference of the quadruples is to one of the ids seen before it. -/
def referencesBackward (seen : List Nat) : List Quadruple → Bool
  | [] => true
  | q :: qs =>
      (q.operands.filterMap Operand.reference?).all (seen.contains ·) &&
        referencesBackward (q.id :: seen) qs

/-- Whether every quadruple refers to ids of earlier quadruples only. -/
def isWellOrdered (p : Program) : Bool := referencesBackward [] p.quadruples

/-- The listing of a program, a line for each quadruple. -/
def listing (p : Program) : String := "\n".intercalate (p.quadruples.map Quadruple.display)

/-- A sorted list with a name put in holds that name and the names it held. -/
theorem mem_insertName {n name : String} {names : List String} :
    n ∈ insertName name names ↔ n = name ∨ n ∈ names := by
  induction names with
  | nil => simp [insertName]
  | cons m ms ih =>
      simp only [insertName]
      split
      · simp
      · split
        · next h =>
            subst h
            simp
        · simp only [List.mem_cons, ih]
          exact or_left_comm

/-- Sorting neither adds nor loses names. -/
theorem mem_sortNames {n : String} {names : List String} :
    n ∈ sortNames names ↔ n ∈ names := by
  have step : ∀ (names sorted : List String),
      n ∈ names.foldl (fun sorted name => insertName name sorted) sorted ↔
        n ∈ sorted ∨ n ∈ names := by
    intro names
    induction names with
    | nil => simp
    | cons m ms ih =>
        intro sorted
        simp only [List.foldl_cons, ih, mem_insertName, List.mem_cons]
        constructor
        · rintro ((rfl | h) | h)
          · exact Or.inr (Or.inl rfl)
          · exact Or.inl h
          · exact Or.inr (Or.inr h)
        · rintro (h | rfl | h)
          · exact Or.inl (Or.inr h)
          · exact Or.inl (Or.inl rfl)
          · exact Or.inr h
  simpa [sortNames] using step names []

/-- A name is put where the order asks for it. -/
theorem pairwise_insertName {name : String} {names : List String}
    (h : names.Pairwise (· < ·)) : (insertName name names).Pairwise (· < ·) := by
  induction names with
  | nil => exact List.pairwise_singleton _ name
  | cons m ms ih =>
      obtain ⟨hm, hms⟩ := List.pairwise_cons.1 h
      simp only [insertName]
      split
      · next hlt =>
          refine List.pairwise_cons.2 ⟨fun n hn => ?_, h⟩
          rcases List.mem_cons.1 hn with rfl | hn
          · exact hlt
          · exact String.lt_trans hlt (hm n hn)
      · next hle =>
          split
          · exact h
          · next hne =>
              refine List.pairwise_cons.2 ⟨fun n hn => ?_, ih hms⟩
              rcases mem_insertName.1 hn with rfl | hn
              · exact Std.lt_of_le_of_ne (String.not_lt.1 hle) (Ne.symm hne)
              · exact hm n hn

/-- Sorted names rise, so no name is there twice. -/
theorem pairwise_sortNames (names : List String) : (sortNames names).Pairwise (· < ·) := by
  have step : ∀ names sorted : List String, sorted.Pairwise (· < ·) →
      (names.foldl (fun sorted name => insertName name sorted) sorted).Pairwise (· < ·) := by
    intro names
    induction names with
    | nil => exact fun sorted h => h
    | cons m ms ih => exact fun sorted h => ih _ (pairwise_insertName h)
  exact step names [] List.Pairwise.nil

end Program

end FormulaCode
