import FormulaCode.Proofs.Grouping
import FormulaCode.Proofs.TokenParts

/-! # The shape of sequences

A sequence is well shaped when operands and operators take turns, an operand comes first and last,
and the same holds inside every group. The check of a sequence looks at positions, grouping never
does: it splits at operators in the order of their strength. Still both accept well-shaped
sequences only, and they differ in what they ask of names and aliases. -/

namespace FormulaCode

namespace Token

/-- Whether a position holds what is due there: operands at even positions, operators at odd
ones. Behind the end nothing is due. -/
def InPlace (ts : List Token) (i : Nat) : Prop :=
  ∀ t, ts[i]? = some t → (t.isOperator = true ↔ i % 2 = 1)

/-- An odd number of tokens, all of them in place, with groups of the same shape. -/
inductive WellShaped : List Token → Prop
  | intro {ts} (odd : ts.length % 2 = 1) (inPlace : ∀ i, InPlace ts i)
      (groups : ∀ inner, .group inner ∈ ts → WellShaped inner) : WellShaped ts

/-- The first fault in the order of a sequence, without a look into its tokens. -/
inductive FirstFault (ts : List Token) : Nat → SequenceFault → Prop
  /-- There are no tokens. -/
  | empty (h : ts = []) : FirstFault ts 0 .empty
  /-- An operator stands where the first operand is missing. -/
  | operand {i t} (hi : i % 2 = 0) (ht : ts[i]? = some t) (ho : t.isOperator = true)
      (before : ∀ j < i, InPlace ts j) : FirstFault ts i (.expectedOperand t)
  /-- An operand stands where the first operator is missing. -/
  | operator {i t} (hi : i % 2 = 1) (ht : ts[i]? = some t) (ho : t.isOperator = false)
      (before : ∀ j < i, InPlace ts j) : FirstFault ts i (.expectedOperator t)
  /-- All tokens are in place, but the last one is an operator. -/
  | ending {i t} (hi : i + 1 = ts.length) (ht : ts[i]? = some t) (ho : t.isOperator = true)
      (before : ∀ j, InPlace ts j) : FirstFault ts i (.trailingOperator t)

section Places

variable {t o : Token} {ts : List Token}

theorem inPlace_zero : InPlace (t :: ts) 0 ↔ t.isOperator = false := by
  simp [InPlace]

theorem inPlace_one : InPlace (t :: o :: ts) 1 ↔ o.isOperator = true := by
  simp [InPlace]

theorem inPlace_add_two {i : Nat} : InPlace (t :: o :: ts) (i + 2) ↔ InPlace ts i := by
  simp [InPlace]

theorem inPlace_nil (i : Nat) : InPlace [] i := by
  simp [InPlace]

/-- Behind an operand and an operator the places are counted anew. -/
theorem inPlace_cons (ht : t.isOperator = false) (ho : o.isOperator = true) {j : Nat}
    (h : ∀ i, j = i + 2 → InPlace ts i) : InPlace (t :: o :: ts) j := by
  match j with
  | 0 => exact inPlace_zero.2 ht
  | 1 => exact inPlace_one.2 ho
  | i + 2 => exact inPlace_add_two.2 (h i rfl)

/-- A fault is found again behind an operand and an operator. -/
theorem FirstFault.cons {i : Nat} {fault : SequenceFault} (h : FirstFault ts i fault)
    (hts : ts ≠ []) (ht : t.isOperator = false) (ho : o.isOperator = true) :
    FirstFault (t :: o :: ts) (i + 2) fault := by
  cases h with
  | empty he => exact absurd he hts
  | operand hi hu hop before =>
      refine .operand (by omega) hu hop fun j hj => ?_
      exact inPlace_cons ht ho fun k hk => before k (by omega)
  | operator hi hu hop before =>
      refine .operator (by omega) hu hop fun j hj => ?_
      exact inPlace_cons ht ho fun k hk => before k (by omega)
  | ending hi hu hop before =>
      refine .ending (by simp [← hi]) hu hop fun j => ?_
      exact inPlace_cons ht ho fun k _ => before k

/-- The search for a fault finds the first one. -/
theorem exists_firstFault {index k : Nat} {fault : SequenceFault}
    (h : orderFault? index ts = some (k, fault)) : ∃ i, k = index + i ∧ FirstFault ts i fault := by
  induction index, ts using orderFault?.induct with
  | case1 index =>
      cases h
      exact ⟨0, rfl, .empty rfl⟩
  | case2 index t ht =>
      simp only [orderFault?, ht, if_true] at h
      cases h
      exact ⟨0, rfl, .operand rfl rfl ht fun j hj => absurd hj j.not_lt_zero⟩
  | case3 index t ht => simp [orderFault?, ht] at h
  | case4 index t o ts ht =>
      simp only [orderFault?, ht, if_true] at h
      cases h
      exact ⟨0, rfl, .operand rfl rfl ht fun j hj => absurd hj j.not_lt_zero⟩
  | case5 index t o ts ht ho =>
      rw [orderFault?, if_neg ht, if_pos ho] at h
      cases h
      refine ⟨1, rfl, .operator rfl rfl (by simpa using ho) fun j hj => ?_⟩
      obtain rfl : j = 0 := by omega
      exact inPlace_zero.2 (by simpa using ht)
  | case6 index t o ts ht ho hts =>
      rw [orderFault?, if_neg ht, if_neg ho, if_pos hts] at h
      cases h
      obtain rfl := List.isEmpty_iff.1 hts
      have ho' : o.isOperator = true := by simpa using ho
      refine ⟨1, rfl, .ending rfl rfl ho' fun j => ?_⟩
      exact inPlace_cons (by simpa using ht) ho' fun k _ => inPlace_nil k
  | case7 index t o ts ht ho hts ih =>
      rw [orderFault?, if_neg ht, if_neg ho, if_neg hts] at h
      obtain ⟨i, rfl, hi⟩ := ih h
      refine ⟨i + 2, by omega, hi.cons ?_ (by simpa using ht) (by simpa using ho)⟩
      rintro rfl
      exact hts rfl

/-- Without a fault all tokens are in place, and an operand is the last. -/
theorem inPlace_of_orderFault? {index : Nat} (h : orderFault? index ts = none) :
    ts.length % 2 = 1 ∧ ∀ i, InPlace ts i := by
  induction index, ts using orderFault?.induct with
  | case1 index => cases h
  | case2 index t ht => simp [orderFault?, ht] at h
  | case3 index t ht =>
      refine ⟨rfl, fun i => ?_⟩
      cases i with
      | zero => exact inPlace_zero.2 (by simpa using ht)
      | succ i =>
          intro u hu
          cases hu
  | case4 index t o ts ht => simp [orderFault?, ht] at h
  | case5 index t o ts ht ho => simp [orderFault?, ht, ho] at h
  | case6 index t o ts ht ho hts => simp [orderFault?, ht, ho, hts] at h
  | case7 index t o ts ht ho hts ih =>
      rw [orderFault?, if_neg ht, if_neg ho, if_neg hts] at h
      obtain ⟨hodd, hplace⟩ := ih h
      constructor
      · simp only [List.length_cons]
        omega
      · intro j
        exact inPlace_cons (by simpa using ht) (by simpa using ho) fun k _ => hplace k

/-- A sequence with a fault has an even number of tokens or one that is out of place. -/
theorem FirstFault.exists_not_inPlace {i : Nat} {fault : SequenceFault}
    (h : FirstFault ts i fault) (hodd : ts.length % 2 = 1) : ∃ j, ¬InPlace ts j := by
  cases h with
  | empty he => simp [he] at hodd
  | operand hi ht ho before =>
      refine ⟨i, fun hplace => ?_⟩
      have := (hplace _ ht).1 ho
      omega
  | operator hi ht ho before =>
      refine ⟨i, fun hplace => ?_⟩
      rw [(hplace _ ht).2 hi] at ho
      cases ho
  | ending hi ht ho before =>
      have := (before i _ ht).1 ho
      omega

theorem orderFault?_eq_none_iff (index : Nat) :
    orderFault? index ts = none ↔ ts.length % 2 = 1 ∧ ∀ i, InPlace ts i := by
  refine ⟨inPlace_of_orderFault?, fun ⟨hodd, hplace⟩ => ?_⟩
  cases h : orderFault? index ts with
  | none => rfl
  | some fault =>
      obtain ⟨i, -, hi⟩ := exists_firstFault h
      obtain ⟨j, hj⟩ := hi.exists_not_inPlace hodd
      exact absurd (hplace j) hj

end Places

mutual

/-- What alternates inside a token is well shaped. -/
theorem wellShaped_of_isOperand : ∀ t : Token, isOperand t = true → ∀ inner, t = .group inner →
    WellShaped inner
  | .group ts, h, _, rfl => by
      obtain ⟨horder, hparts⟩ := (alternates_iff 0).1 h
      obtain ⟨hodd, hplace⟩ := (orderFault?_eq_none_iff 0).1 horder
      exact ⟨hodd, hplace, wellShaped_of_mem ts hparts⟩

theorem wellShaped_of_mem : ∀ ts : List Token,
    (∀ t ∈ ts, t.isOperator = false → isOperand t = true) →
      ∀ inner, .group inner ∈ ts → WellShaped inner
  | t :: ts, h, inner, hm => by
      obtain ⟨ht, hts⟩ := List.forall_mem_cons.1 h
      rcases List.mem_cons.1 hm with rfl | hm
      · exact wellShaped_of_isOperand _ (ht rfl) inner rfl
      · exact wellShaped_of_mem ts hts inner hm

end

/-- The grammar's alternation is well-shapedness. -/
theorem alternates_iff_wellShaped {ts : List Token} : alternates ts = true ↔ WellShaped ts := by
  constructor
  · intro h
    exact wellShaped_of_isOperand (.group ts) h ts rfl
  · intro h
    induction h with
    | intro hodd hplace hgroups ih =>
        refine (alternates_iff 0).2 ⟨(orderFault?_eq_none_iff 0).2 ⟨hodd, hplace⟩, ?_⟩
        intro t ht hoperator
        cases t with
        | var | literal => rfl
        | operator sign => cases hoperator
        | group inner => exact ih inner ht

end Token

open Token

/-- Only sequences that alternate have a derivation. -/
theorem Derives.alternates {levels : List Operator} {ts : List Token} {s : Side}
    (h : Derives levels ts s) : Token.alternates ts = true := by
  induction h with
  | var | literal => rfl
  | group _ ih => simpa [Token.alternates, Token.isOperand, Token.continues] using ih
  | tighter _ ih => exact ih
  | apply _ _ _ ihl ihr => rw [(alternates_append _).1, ihl, ihr, Bool.and_self]

/-- Grouping succeeds on exactly the alternating sequences with known aliases. -/
theorem Tree.exists_ofTokens_iff {ts : List Token} : (∃ tree, ofTokens ts = .ok tree) ↔
    alternates ts = true ∧ signsKnown ts = true := by
  constructor
  · rintro ⟨tree, h⟩
    obtain ⟨s, hs, -⟩ := derives_of_grouping.1 ts tree h
    exact ⟨hs.alternates, hs.signsKnown⟩
  · rintro ⟨ha, hk⟩
    obtain ⟨s, hs⟩ := exists_derives ha hk fun t _ o ho => mem_precedence_of_operator? ho
    exact ⟨ofSide s, (hs.ofTokens_eq (List.suffix_refl _)).2⟩

/-- The order of a sequence is checked before its tokens are. -/
theorem Token.validate_of_orderFault? {ts : List Token} {i : Nat} {fault : SequenceFault}
    (h : orderFault? 0 ts = some (i, fault)) :
    validate ts = .error (.malformedSequence i fault) := by
  rw [validate, checkOrder, h]
  rfl

/-- What the check of a sequence and its grouping say about its shape. -/
structure ShapesAgree (ts : List Token) : Prop where
  /-- The check accepts the well-shaped sequences whose names are valid, at all depths. -/
  validate_iff : validate ts = .ok () ↔
    WellShaped ts ∧ ∀ name, .var name ∈ partsAll ts → isValidName name = true
  /-- Grouping accepts the well-shaped sequences whose aliases are in the table, at all depths. -/
  ofTokens_iff : (∃ tree, Tree.ofTokens ts = .ok tree) ↔
    WellShaped ts ∧ ∀ sign, .operator sign ∈ partsAll ts → ∃ o : Operator, sign ∈ o.aliases
  /-- Where tokens are out of place or an operator is the last, the check reports the first fault
  in the order, whatever names and groups hold. -/
  firstFault : ((∃ i, ¬InPlace ts i) ∨ ∃ t, ts.getLast? = some t ∧ t.isOperator = true) →
    ∃ i fault, FirstFault ts i fault ∧ validate ts = .error (.malformedSequence i fault)

theorem shapesAgree (ts : List Token) : ShapesAgree ts where
  validate_iff := by rw [validate_eq_ok_iff, alternates_iff_wellShaped]
  ofTokens_iff := by
    rw [Tree.exists_ofTokens_iff, alternates_iff_wellShaped, signsKnown_iff]
    simp only [Option.isSome_iff_exists, Operator.ofAlias?_eq_some_iff]
  firstFault := by
    intro h
    cases hf : orderFault? 0 ts with
    | none =>
        obtain ⟨hodd, hplace⟩ := (orderFault?_eq_none_iff 0).1 hf
        rcases h with ⟨i, hi⟩ | ⟨t, ht, ho⟩
        · exact absurd (hplace i) hi
        · rw [List.getLast?_eq_getElem?] at ht
          have := (hplace _ t ht).1 ho
          omega
    | some found =>
        obtain ⟨k, fault⟩ := found
        obtain ⟨i, hk, hi⟩ := exists_firstFault hf
        obtain rfl : k = i := by omega
        exact ⟨k, fault, hi, validate_of_orderFault? hf⟩

/-- Two signs in a row between an invalid name and an empty group. -/
def doubledSign : List Token := [.var "2x", .operator "+", .operator "*", .group []]

theorem shapesAgree_doubledSign : ∃ fault, FirstFault doubledSign 2 fault ∧
    validate doubledSign = .error (.malformedSequence 2 fault) := by
  have hplace : ¬InPlace doubledSign 2 := by
    intro h
    cases (h (.operator "*") rfl).1 rfl
  obtain ⟨i, fault, hf, hv⟩ := (shapesAgree doubledSign).firstFault (.inl ⟨2, hplace⟩)
  have hv' : validate doubledSign =
      .error (.malformedSequence 2 (.expectedOperand (.operator "*"))) := rfl
  obtain ⟨rfl, rfl⟩ := ParseError.malformedSequence.inj (Except.error.inj (hv.symm.trans hv'))
  exact ⟨_, hf, hv⟩

end FormulaCode
