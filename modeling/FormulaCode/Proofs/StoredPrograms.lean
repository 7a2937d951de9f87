import FormulaCode.Program.Encoding
import FormulaCode.Proofs.JsonText
import Mathlib.Data.List.Nodup

/-! # Stored programs

Every record is written with each of its fields once and found again field by field, so what is
stored is read as it was, up to the text. Ids are words of 32 bits and counters words of 64 bits
in JSON: a program can be stored when its ids and counters are, and every program that was read
can. -/

namespace FormulaCode

/-- A list is read item by item. -/
theorem mapM_eq_some {α β : Type} {f : α → Option β} {g : α → β} {l : List α}
    (h : ∀ a ∈ l, f a = some (g a)) : l.mapM f = some (l.map g) := by
  induction l with
  | nil => rfl
  | cons a l ih =>
      obtain ⟨ha, hl⟩ := List.forall_mem_cons.1 h
      simp [List.mapM_cons, ha, ih hl]

/-- What was read item by item came from the items. -/
theorem exists_of_mapM {α β : Type} {f : α → Option β} {l : List α} {r : List β}
    (h : l.mapM f = some r) {b : β} (hb : b ∈ r) : ∃ a ∈ l, f a = some b := by
  induction l generalizing r with
  | nil =>
      obtain rfl : [] = r := Option.some.inj h
      cases hb
  | cons a l ih =>
      simp only [List.mapM_cons, Option.bind_eq_bind, Option.bind_eq_some_iff, Option.pure_def,
        Option.some.injEq] at h
      obtain ⟨c, hc, r', hr, rfl⟩ := h
      rcases List.mem_cons.1 hb with rfl | hb
      · exact ⟨a, List.mem_cons_self, hc⟩
      · obtain ⟨a', ha', hf⟩ := ih hr hb
        exact ⟨a', List.mem_cons_of_mem a ha', hf⟩

namespace Json

/-! ## Records and numbers -/

/-- Where no key is repeated, a member is found by its key. -/
theorem uniqueMember?_of_mem {ms : List (String × Json)} (h : (ms.map Prod.fst).Nodup)
    {m : String × Json} (hm : m ∈ ms) :
    uniqueMember? m.1 (ms.map fun m => (some m.1, m.2)) = some m.2 := by
  obtain ⟨before, behind, rfl⟩ := List.append_of_mem hm
  rw [List.map_append, List.map_cons, List.nodup_middle, List.nodup_cons, ← List.map_append] at h
  have other : ∀ n ∈ before ++ behind, n.1 ≠ m.1 :=
    fun n hn he => h.1 (he ▸ List.mem_map_of_mem hn)
  have hbefore : ∀ n ∈ before, n.1 ≠ m.1 := fun n hn => other n (List.mem_append_left _ hn)
  have hbehind : ∀ n ∈ behind, n.1 ≠ m.1 := fun n hn => other n (List.mem_append_right _ hn)
  have hfilter : ∀ ns : List (String × Json), (∀ n ∈ ns, n.1 ≠ m.1) →
      (ns.map fun n => ((some n.1, n.2) : Member)).filter (fun n => n.1 == some m.1) = [] := by
    intro ns hns
    rw [List.filter_eq_nil_iff, List.forall_mem_map]
    intro n hn
    simpa using hns n hn
  rw [uniqueMember?, List.map_append, List.map_cons, List.filter_append, hfilter before hbefore,
    List.filter_cons_of_pos (by simp), hfilter behind hbehind]
  rfl

/-- The fields of a record are read in the order of their names. -/
theorem record?_ofMembers (ms : List (String × Json)) (h : (ms.map Prod.fst).Nodup) :
    (ofMembers ms).record? (ms.map Prod.fst) = some (ms.map Prod.snd) := by
  have hsome : (ms.map fun m => ((some m.1, m.2) : Member)).all (·.1.isSome) = true := by simp
  rw [ofMembers, record?, if_pos hsome, List.mapM_map]
  exact mapM_eq_some fun m hm => uniqueMember?_of_mem h hm

@[simp] theorem text?_ofText (s : String) : (ofText s).text? = some s := rfl

@[simp] theorem array?_array (items : List Json) : (array items).array? = some items := rfl

@[simp] theorem tagged?_ofMembers (key : String) (value : Json) :
    (ofMembers [(key, value)]).tagged? = some (key, value) := rfl

theorem natBelow?_ofNat {bound n : Nat} (h : n < bound) :
    (ofNat n).natBelow? bound = some n := by
  have hdigits : (Text.digits n).all Char.isDigit = true :=
    List.all_eq_true.2 fun c hc => Text.isDigit_of_mem_digits hc
  have hspelling : natOfSpelling? (Text.digits n) = some n := by
    simp [natOfSpelling?, Text.ofDigits_digits, hdigits]
  simp [ofNat, natBelow?, hspelling, h]

theorem lt_of_natBelow? {bound n : Nat} {j : Json} (h : j.natBelow? bound = some n) :
    n < bound := by
  cases j with
  | number s => exact of_decide_eq_true (Option.filter_eq_some_iff.1 h).2
  | null | bool | string | array | object => cases h

@[simp] theorem numbersSpelled_ofText (s : String) : NumbersSpelled (ofText s).lexemes := by
  simp [ofText, lexemes]

@[simp] theorem numbersSpelled_ofNat (n : Nat) : NumbersSpelled (ofNat n).lexemes := by
  simp [ofNat, lexemes, isNumber_digits]

@[simp] theorem numbersSpelled_ofMembers {ms : List (String × Json)} :
    NumbersSpelled (ofMembers ms).lexemes ↔ ∀ m ∈ ms, NumbersSpelled m.2.lexemes := by
  rw [ofMembers, numbersSpelled_object, List.forall_mem_map]

end Json

/-! ## What can be stored -/

/-- An operand with an id of 32 bits, if it has one. -/
def Operand.Storable (x : Operand) : Prop := ∀ k, x.reference? = some k → k < idBound

/-- A quadruple whose ids have 32 bits. -/
structure Quadruple.Storable (q : Quadruple) : Prop where
  id : q.id < idBound
  left : q.left.Storable
  right : q.right.Storable

/-- Metadata with counters of 64 bits. -/
structure Metadata.Storable (m : Metadata) : Prop where
  passes : m.optimizationPasses < counterBound
  folded : m.foldedQuadruples < counterBound

/-- A program whose ids have 32 bits and whose counters have 64. -/
structure Program.Storable (p : Program) : Prop where
  quadruples : ∀ q ∈ p.quadruples, q.Storable
  metadata : p.metadata.Storable

theorem DataType.ofJson?_toJson (t : DataType) : ofJson? t.toJson = some t := ofName?_name t

theorem Operator.ofJson?_toJson (o : Operator) : ofJson? o.toJson = some o := ofName?_name o

theorem Literal.ofJson?_toJson (l : Literal) : ofJson? l.toJson = some l := by
  have hr : l.toJson.record? fieldNames = some [.ofText l.data, l.dataType.toJson] :=
    Json.record?_ofMembers _ (by decide : fieldNames.Nodup)
  simp [ofJson?, hr, DataType.ofJson?_toJson]

namespace Operand

variable {x : Operand}

theorem ofJson?_toJson (h : x.Storable) : ofJson? x.toJson = some x := by
  cases x with
  | literal value => simp [toJson, ofJson?, Literal.ofJson?_toJson]
  | var name t =>
      have hr : (Json.ofMembers [("name", .ofText name), ("data_type", t.toJson)]).record?
          fieldNames = some [.ofText name, t.toJson] :=
        Json.record?_ofMembers _ (by decide : fieldNames.Nodup)
      simp [toJson, ofJson?, hr, DataType.ofJson?_toJson]
  | result id => simp [toJson, ofJson?, Json.natBelow?_ofNat (h id rfl)]

theorem storable_of_ofJson? {j : Json} (h : ofJson? j = some x) : x.Storable := by
  obtain ⟨⟨key, value⟩, -, h⟩ := Option.bind_eq_some_iff.1 h
  split at h
  · obtain ⟨l, -, h⟩ := Option.bind_eq_some_iff.1 h
    obtain rfl := Option.some.inj h
    intro k hk
    cases hk
  · obtain ⟨fields, -, h⟩ := Option.bind_eq_some_iff.1 h
    split at h
    · obtain ⟨name, -, h⟩ := Option.bind_eq_some_iff.1 h
      obtain ⟨t, -, h⟩ := Option.bind_eq_some_iff.1 h
      obtain rfl := Option.some.inj h
      intro k hk
      cases hk
    · cases h
  · obtain ⟨id, hid, h⟩ := Option.bind_eq_some_iff.1 h
    obtain rfl := Option.some.inj h
    intro k hk
    obtain rfl := Option.some.inj hk
    exact Json.lt_of_natBelow? hid
  · cases h

end Operand

namespace Quadruple

variable {q : Quadruple}

theorem ofJson?_toJson (h : q.Storable) : ofJson? q.toJson = some q := by
  have hr : q.toJson.record? fieldNames = some [.ofNat q.id, q.left.toJson, q.right.toJson,
      q.operator.toJson, q.resultType.toJson] :=
    Json.record?_ofMembers _ (by decide : fieldNames.Nodup)
  simp [ofJson?, hr, Json.natBelow?_ofNat h.id, Operand.ofJson?_toJson h.left,
    Operand.ofJson?_toJson h.right, Operator.ofJson?_toJson, DataType.ofJson?_toJson]

theorem storable_of_ofJson? {j : Json} (h : ofJson? j = some q) : q.Storable := by
  obtain ⟨fields, -, h⟩ := Option.bind_eq_some_iff.1 h
  split at h
  · obtain ⟨id, hid, h⟩ := Option.bind_eq_some_iff.1 h
    obtain ⟨left, hleft, h⟩ := Option.bind_eq_some_iff.1 h
    obtain ⟨right, hright, h⟩ := Option.bind_eq_some_iff.1 h
    obtain ⟨operator, -, h⟩ := Option.bind_eq_some_iff.1 h
    obtain ⟨resultType, -, h⟩ := Option.bind_eq_some_iff.1 h
    obtain rfl := Option.some.inj h
    exact ⟨Json.lt_of_natBelow? hid, Operand.storable_of_ofJson? hleft,
      Operand.storable_of_ofJson? hright⟩
  · cases h

end Quadruple

namespace Metadata

variable {m : Metadata}

theorem ofJson?_toJson (h : m.Storable) : ofJson? m.toJson = some m := by
  have hr : m.toJson.record? fieldNames = some [.ofText m.source, .ofNat m.optimizationPasses,
      .ofNat m.foldedQuadruples, .ofText m.compilerVersion] :=
    Json.record?_ofMembers _ (by decide : fieldNames.Nodup)
  simp [ofJson?, hr, Json.natBelow?_ofNat h.passes, Json.natBelow?_ofNat h.folded]

theorem storable_of_ofJson? {j : Json} (h : ofJson? j = some m) : m.Storable := by
  obtain ⟨fields, -, h⟩ := Option.bind_eq_some_iff.1 h
  split at h
  · obtain ⟨source, -, h⟩ := Option.bind_eq_some_iff.1 h
    obtain ⟨passes, hpasses, h⟩ := Option.bind_eq_some_iff.1 h
    obtain ⟨folded, hfolded, h⟩ := Option.bind_eq_some_iff.1 h
    obtain ⟨version, -, h⟩ := Option.bind_eq_some_iff.1 h
    obtain rfl := Option.some.inj h
    exact ⟨Json.lt_of_natBelow? hpasses, Json.lt_of_natBelow? hfolded⟩
  · cases h

end Metadata

namespace Program

variable {p : Program}

theorem ofJson?_toJson (h : p.Storable) : ofJson? p.toJson = some p := by
  have hr : p.toJson.record? fieldNames =
      some [.array (p.quadruples.map Quadruple.toJson), p.metadata.toJson] :=
    Json.record?_ofMembers _ (by decide : fieldNames.Nodup)
  have hq : (p.quadruples.map Quadruple.toJson).mapM Quadruple.ofJson? = some p.quadruples := by
    have hall := mapM_eq_some fun q hq => Quadruple.ofJson?_toJson (h.quadruples q hq)
    rw [List.map_id'] at hall
    rw [List.mapM_map]
    exact hall
  simp [ofJson?, hr, hq, Metadata.ofJson?_toJson h.metadata]

theorem storable_of_ofJson? {j : Json} (h : ofJson? j = some p) : p.Storable := by
  obtain ⟨fields, -, h⟩ := Option.bind_eq_some_iff.1 h
  split at h
  · obtain ⟨items, -, h⟩ := Option.bind_eq_some_iff.1 h
    obtain ⟨qs, hqs, h⟩ := Option.bind_eq_some_iff.1 h
    obtain ⟨m, hm, h⟩ := Option.bind_eq_some_iff.1 h
    obtain rfl := Option.some.inj h
    constructor
    · intro q hq
      obtain ⟨item, -, hitem⟩ := exists_of_mapM hqs hq
      exact Quadruple.storable_of_ofJson? hitem
    · exact Metadata.storable_of_ofJson? hm
  · cases h

/-- All numbers of a program in JSON are natural numbers in digits. -/
theorem numbersSpelled_toJson (p : Program) : Json.NumbersSpelled p.toJson.lexemes := by
  have literal : ∀ l : Literal, Json.NumbersSpelled l.toJson.lexemes := by
    intro l
    simp [Literal.toJson, DataType.toJson]
  have operand : ∀ x : Operand, Json.NumbersSpelled x.toJson.lexemes := by
    intro x
    cases x with
    | literal value => simp [Operand.toJson, literal]
    | var name t => simp [Operand.toJson, DataType.toJson]
    | result id => simp [Operand.toJson]
  have quadruple : ∀ q : Quadruple, Json.NumbersSpelled q.toJson.lexemes := by
    intro q
    simp [Quadruple.toJson, Operator.toJson, DataType.toJson, operand]
  simp [toJson, Metadata.toJson, Json.numbersSpelled_array, quadruple]

/-- A program that can be stored is read as it was, and what is read as a program can be stored,
however it was spelled. -/
theorem decode?_encode :
    (∀ p : Program, p.Storable → decode? p.encode = some p) ∧
      ∀ s p, decode? s = some p → p.Storable ∧ decode? p.encode = some p := by
  have stored : ∀ p : Program, p.Storable → decode? p.encode = some p := by
    intro p h
    rw [decode?, encode, Json.read?_toText p.numbersSpelled_toJson]
    exact ofJson?_toJson h
  refine ⟨stored, fun s p h => ?_⟩
  obtain ⟨j, -, hj⟩ := Option.bind_eq_some_iff.1 h
  have hp := storable_of_ofJson? hj
  exact ⟨hp, stored p hp⟩

/-- A program at the bounds of its numbers, with texts that have to be escaped. -/
def atBounds : Program where
  quadruples := [⟨4294967295, .literal (.text "é😀\"\\"), .result 0, .copyLeft, .any⟩]
  metadata := ⟨"\n\x01", 18446744073709551615, 0, ""⟩

/-- The same program with its records as arrays and its texts escaped in another way. -/
def atBoundsSpelled : String :=
  "[ [[4294967295, \x7b\"Literal\":[\"\\u00e9\\ud83d\\ude00\\u0022\\u005c\",\"TEXT\"]\x7d," ++
    "\x7b\"Context\":0\x7d, \"COPY_LEFT\", \x7b\"ANY\":null\x7d]]," ++
    "[\"\\u000a\\u0001\", 18446744073709551615, 0, \"\"] ]"

theorem decode?_encode_atBounds :
    decode? atBoundsSpelled = some atBounds ∧ atBoundsSpelled ≠ atBounds.encode ∧
      atBounds.Storable ∧ decode? atBounds.encode = some atBounds := by
  have h : decode? atBoundsSpelled = some atBounds := by decide +kernel
  have hp := (decode?_encode.2 _ _ h).1
  exact ⟨h, by decide +kernel, hp, decode?_encode.1 _ hp⟩

end Program

end FormulaCode
