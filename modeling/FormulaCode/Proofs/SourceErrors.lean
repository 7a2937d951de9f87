import FormulaCode.Proofs.Composition
import FormulaCode.Proofs.TokenParts

/-! # Errors of formulas

Parsing and generation have errors for sequences and trees that no text leads to: an alias that
is not known, a sequence that cannot be split, an empty sequence, a node without operands. A
scan finds known aliases only and no empty group, an accepted sequence alternates, and what is
grouped from it has no empty side. So a text is refused by the scan or by the check of its
tokens, and once it is accepted, every later stage up to folding succeeds. -/

namespace FormulaCode

open Token

/-- The errors that are not about a text but about what the stages hand to each other. -/
def ParseError.isInternal : ParseError → Bool
  | unknownOperator _ => true
  | structural _ => true
  | malformedSequence _ .empty => true
  | _ => false

/-- The outcome is a result or an error that is about the text. -/
abbrev NotInternal {α : Type} : Except ParseError α → Prop :=
  Ends (fun e => e.isInternal = false) fun _ => True

namespace Token

/-- A scan fails at a quote, at a parenthesis or at a blank text. -/
theorem scanFrom_ends (position : Nat) (cs : List Char) :
    NotInternal (scanFrom position cs) := by
  fun_induction scanFrom position cs with
  | case1 => trivial
  | case2 | case4 | case5 => rfl
  | case3 _ _ _ _ _ ih => exact ih.bind fun _ _ => trivial
  | case6 _ _ _ _ _ _ _ ihi ih => exact ihi.bind fun _ _ => ih.bind fun _ _ => trivial
  | case7 _ _ _ _ _ _ _ ih => exact ih.bind fun _ _ => trivial
  | case8 _ _ _ _ _ _ _ ih => exact ih
  | case9 _ _ _ _ _ _ _ _ ih => exact ih.bind fun _ _ => trivial

/-- The order of a sequence with a token has other faults than that it is empty. -/
theorem fault_ne_empty {index i : Nat} {ts : List Token} {fault : SequenceFault} (hne : ts ≠ [])
    (h : orderFault? index ts = some (i, fault)) : fault ≠ .empty := by
  fun_induction orderFault? index ts with
  | case1 => exact absurd rfl hne
  | case2 | case4 | case5 | case6 =>
      obtain ⟨-, rfl⟩ := Prod.mk.inj (Option.some.inj h)
      exact SequenceFault.noConfusion
  | case3 => cases h
  | case7 _ _ _ _ _ _ hts ih =>
      apply ih _ h
      rintro rfl
      exact hts rfl

theorem checkOrder_ends {ts : List Token} (hne : ts ≠ []) :
    NotInternal (checkOrder ts) := by
  rw [checkOrder]
  split
  · next index fault h =>
      have hfault := fault_ne_empty hne h
      cases fault with
      | empty => exact absurd rfl hfault
      | expectedOperand | expectedOperator | trailingOperator => rfl
  · trivial

mutual

theorem check_ends : ∀ t : Token, (∀ inner, .group inner ∈ parts t → inner ≠ []) →
    NotInternal (check t)
  | .var name, _ => by
      rw [check]
      split
      · trivial
      · rfl
  | .literal _, _ => trivial
  | .operator _, _ => trivial
  | .group ts, h => by
      rw [check]
      refine (checkOrder_ends (h ts (by simp [parts]))).bind fun _ _ => ?_
      exact checkEach_ends ts fun inner hi => h inner (by simp [parts, hi])

/-- Tokens are refused for what the text says, if no group inside them is empty. -/
theorem checkEach_ends : ∀ ts : List Token, (∀ inner, .group inner ∈ partsAll ts → inner ≠ []) →
    NotInternal (checkEach ts)
  | [], _ => trivial
  | t :: ts, h => by
      rw [checkEach]
      refine (check_ends t fun inner hi => h inner ?_).bind fun _ _ =>
        checkEach_ends ts fun inner hi => h inner ?_
      · exact List.mem_append_left _ hi
      · exact List.mem_append_right _ hi

end

/-- The check of a scanned sequence does not find it empty, at any depth. -/
theorem validate_ends {cs : List Char} {ts : List Token} (h : Scans cs ts) (hne : ts ≠ []) :
    NotInternal (validate ts) := by
  have hparts : ∀ t ∈ partsAll ts, ∀ inner, t = .group inner → inner ≠ [] := by
    refine h.forall_parts (fun content _ => ?_) (fun w _ => ?_) ?_ ?_
    · rw [ofQuoted]
      split <;> simp
    · rw [ofWord]
      split_ifs <;> simp
    · simp
    · simp
  rw [validate]
  exact (checkOrder_ends hne).bind fun _ _ =>
    checkEach_ends ts fun inner hi => hparts _ hi inner rfl

end Token

/-- The aliases of a canonical sequence are known, at all depths. -/
theorem CanonicalSequence.signsKnown {ts : List Token} (h : CanonicalSequence ts) :
    signsKnown ts = true := by
  refine (signsKnown_iff ts).2 fun sign hs => ?_
  obtain ⟨o, ho⟩ := h.canonical _ hs
  rw [Operator.ofAlias?_of_mem_aliases ho]
  rfl

namespace Tree

variable {source : String} {ts : List Token}

/-- A text whose tokens are accepted stands for a side. -/
theorem exists_accepted (hs : scan source = .ok ts) (hv : validate ts = .ok ()) :
    ∃ s, Accepted source.toList ts s := by
  have hc := CanonicalSequence.of_scan hs hv
  obtain ⟨s, hd⟩ := exists_derives hc.alternates hc.signsKnown fun _ _ _ =>
    mem_precedence_of_operator?
  exact ⟨s, .of_scan hs, hc, hd⟩

/-- No text leads to an internal error. -/
theorem parse_ends (source : String) : NotInternal (parse source) := by
  rw [parse]
  cases hs : scan source with
  | error e =>
      rw [scan] at hs
      split at hs
      · cases hs
        rfl
      · have hscan := scanFrom_ends 0 source.toList
        rwa [hs] at hscan
  | ok ts =>
      obtain ⟨hb, hscans⟩ := scan_eq_ok_iff.1 hs
      have hvalid := validate_ends hscans (hscans.ne_nil_iff.2 hb)
      rw [ok_bind]
      cases hv : validate ts with
      | error e => rwa [hv] at hvalid
      | ok =>
          obtain ⟨s, h⟩ := exists_accepted hs hv
          rw [ok_bind, (h.derives.ofTokens_eq (List.suffix_refl _)).2]
          trivial

/-- A formula that is one operand has one node; any other has a node for each operator. -/
theorem nodeCount_ofSide (s : Side) :
    (ofSide s).nodeCount = if s.nodeCount = 0 then 1 else s.nodeCount := by
  cases s with
  | literal | var | empty => rfl
  | nested l o r => simp [ofSide, nodeCount, Side.nodeCount]

end Tree

section Compile

variable {source : String}

/-- Generation does not fail on a formula. -/
theorem compile_ne_generation (options : CompileOptions) (e : GenerationError) :
    compile source options ≠ .error (.generation e) := by
  intro h
  cases ht : Tree.parse source with
  | error e' =>
      rw [compile, ht] at h
      cases h
  | ok t =>
      obtain ⟨qs, hq⟩ := Tree.exists_generate_of_parse ht
      rw [compile_of_generate ht hq] at h
      cases hf : options.fold qs with
      | error e' =>
          rw [hf] at h
          cases h
      | ok o =>
          rw [hf] at h
          cases h

theorem compile_unfolded_iff :
    (∃ p, compile source { enableConstantFolding := false } = .ok p) ↔
      ∃ t, Tree.parse source = .ok t := by
  constructor
  · rintro ⟨p, h⟩
    obtain ⟨t, -, ht, -⟩ := exists_generate_of_compile h
    exact ⟨t, ht⟩
  · rintro ⟨t, ht⟩
    obtain ⟨qs, hq⟩ := Tree.exists_generate_of_parse ht
    exact ⟨_, compile_unfolded ht hq⟩

end Compile

/-- What the stages can rely on for a text. -/
structure StagesAgree (source : String) : Prop where
  /-- A text has a tree exactly when it has tokens and they are accepted. -/
  parse_iff : (∃ t, Tree.parse source = .ok t) ↔
    ∃ ts, scan source = .ok ts ∧ validate ts = .ok ()
  /-- Otherwise the error is about the text. -/
  external : ∀ e, Tree.parse source = .error e → e.isInternal = false
  /-- A tree has code, with a quadruple for each operator, or with one if there is none. -/
  generate : ∀ t, Tree.parse source = .ok t → ∃ ts qs, scan source = .ok ts ∧
    t.generate = .ok qs ∧ qs.length = if operatorCount ts = 0 then 1 else operatorCount ts
  /-- Without folding, exactly the texts with a tree can be compiled. -/
  compile_iff : (∃ p, compile source { enableConstantFolding := false } = .ok p) ↔
    ∃ t, Tree.parse source = .ok t
  /-- With folding or without, no text fails in generation. -/
  compile_ne : ∀ options e, compile source options ≠ .error (.generation e)

/-- Every text is refused by the scan or by the check of its tokens, or has code. -/
theorem stagesAgree (source : String) : StagesAgree source where
  parse_iff := by
    constructor
    · rintro ⟨t, h⟩
      obtain ⟨ts, -, hs, hv, -⟩ := Tree.parse_eq_ok_iff_derives.1 h
      exact ⟨ts, hs, hv⟩
    · rintro ⟨ts, hs, hv⟩
      obtain ⟨s, h⟩ := Tree.exists_accepted hs hv
      exact ⟨_, Tree.parse_eq_ok_iff.2 ⟨ts, s, h, rfl⟩⟩
  external := fun _ h => (Tree.parse_ends source).of_error h
  generate := by
    intro t h
    obtain ⟨qs, hq⟩ := Tree.exists_generate_of_parse h
    obtain ⟨ts, s, hs, -, hd, rfl⟩ := Tree.parse_eq_ok_iff_derives.1 h
    refine ⟨ts, qs, hs, hq, ?_⟩
    rw [Tree.length_of_generate hq, Tree.nodeCount_ofSide, hd.nodeCount_eq]
  compile_iff := compile_unfolded_iff
  compile_ne := compile_ne_generation

/-- A text with groups in groups: its tokens are accepted, and each of its three operators, at
whatever depth, has a quadruple. -/
theorem stagesAgree_needlessGroups :
    ∃ ts t qs, scan Tree.needlessGroups = .ok ts ∧
      ts = [.var "or", .operator " AND ",
        .group [.group [.group [.var "x"]], .operator ">=", .literal (.text " (or)>= ")],
        .operator "*", .literal (.number "2.50")] ∧
      validate ts = .ok () ∧ Tree.parse Tree.needlessGroups = .ok t ∧ t.generate = .ok qs ∧
      qs = [⟨1, .var "x" .any, .literal (.text " (or)>= "), .greaterEq, .any⟩,
        ⟨2, .result 1, .literal (.number "2.50"), .times, .any⟩,
        ⟨3, .var "or" .any, .result 2, .and, .any⟩] ∧
      operatorCount ts = 3 ∧ qs.length = operatorCount ts := by
  have parsed := Tree.parse_needlessGroups
  obtain ⟨ts, scanned, valid⟩ := (stagesAgree Tree.needlessGroups).parse_iff.1 ⟨_, parsed⟩
  obtain ⟨ts', qs, scanned', generated, count⟩ :=
    (stagesAgree Tree.needlessGroups).generate _ parsed
  obtain rfl := Except.ok.inj (Tree.scan_needlessGroups.symm.trans scanned)
  obtain rfl := Except.ok.inj (scanned.symm.trans scanned')
  exact ⟨_, _, qs, scanned, rfl, valid, parsed, generated, (Except.ok.inj generated).symm, rfl,
    count⟩

end FormulaCode
