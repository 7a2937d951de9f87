import FormulaCode.Proofs.Grouping
import FormulaCode.Proofs.Layout
import FormulaCode.Proofs.NodeTable
import FormulaCode.Proofs.Validation
import FormulaCode.Tree.Text

/-! # Parsing undoes printing

A scanned sequence that is accepted is canonical, so the operands of a parsed tree are those
that a formula can show. The text of such a tree lays out the tokens of its sides, every nested
side as a group, and from these tokens the tree is derived again. -/

namespace FormulaCode

open Token

namespace Token

theorem canonical_ofQuoted {content : List Char} (h : quote ∉ content) :
    (ofQuoted content).Canonical := by
  have hq : quote ∉ (String.ofList content).toList := by rwa [String.toList_ofList]
  have hread : ∀ {t}, readTime (String.ofList content) = .ok t ↔
      Calendar.Timestamp.read? content = some t := by
    intro t
    rw [readTime_eq_ok_iff, String.toList_ofList]
  rw [ofQuoted]
  split
  · next hr =>
      obtain ⟨t, ht⟩ := Option.isSome_iff_exists.1 hr
      exact ⟨hq, t, hread.2 ht⟩
  · next hr =>
      exact ⟨hq, fun t ht => hr (Option.isSome_of_eq_some (hread.1 ht))⟩

/-- A word is canonical if it is no name at all, or a valid one. -/
theorem canonical_ofWord {w : List Char}
    (h : ∀ name, ofWord w = .var name → isValidName name = true) : (ofWord w).Canonical := by
  rw [ofWord] at h ⊢
  split
  · next hn =>
      change PlainNumeral (String.ofList w).toList
      rw [String.toList_ofList]
      exact isPlainNumber_iff.1 hn
  · next hn =>
      rw [if_neg hn] at h
      split
      · exact .inl rfl
      · next ht =>
          rw [if_neg ht] at h
          split
          · exact .inr rfl
          · next hf =>
              rw [if_neg hf] at h
              refine ⟨h _ rfl, fun he => ht ?_, fun he => hf ?_⟩
              · simpa using congrArg String.toList he
              · simpa using congrArg String.toList he

end Token

namespace CanonicalSequence

variable {ts : List Token}

/-- The scanned sequences that are accepted are canonical. -/
theorem of_scan {source : String} (hs : scan source = .ok ts) (hv : validate ts = .ok ()) :
    CanonicalSequence ts := by
  obtain ⟨ha, hnames⟩ := validate_eq_ok_iff.1 hv
  have hparts : ∀ t ∈ partsAll ts,
      (∀ name, t = .var name → isValidName name = true) → t.Canonical :=
    Scans.forall_parts
      (fun content hq _ => canonical_ofQuoted hq)
      (fun w _ hname => canonical_ofWord hname)
      (fun a ha _ => ⟨a.2, (Operator.mem_spellings_iff a.1 a.2).1 ha⟩)
      (fun inner _ _ => trivial)
      (scan_eq_ok_iff.1 hs).2
  refine ⟨ha, fun t ht => hparts t ht ?_⟩
  rintro name rfl
  exact hnames name ht

/-- Every canonical sequence is accepted. -/
theorem validate_eq (h : CanonicalSequence ts) : validate ts = .ok () :=
  validate_eq_ok_iff.2 ⟨h.alternates, fun _ hname => (h.canonical _ hname).1⟩

/-- An operator between canonical sequences makes a canonical sequence. -/
theorem append {o : Operator} {sign : String} {rs : List Token} (hs : sign ∈ o.aliases)
    (hl : CanonicalSequence ts) (hr : CanonicalSequence rs) :
    CanonicalSequence (ts ++ .operator sign :: rs) where
  alternates := by rw [(alternates_append sign).1, hl.alternates, hr.alternates, Bool.and_self]
  canonical := by
    rw [partsAll_append, List.forall_mem_append, partsAll, parts, List.singleton_append,
      List.forall_mem_cons]
    exact ⟨hl.canonical, ⟨o, hs⟩, hr.canonical⟩

theorem group (h : CanonicalSequence ts) : CanonicalSequence [.group ts] where
  alternates := by simp [Token.alternates, continues, isOperand, h.alternates]
  canonical := by simpa [partsAll, parts] using ⟨trivial, h.canonical⟩

/-- A layout of a canonical sequence has the tree that is derived from the sequence. -/
theorem parse_eq {source : String} {s : Side} (h : CanonicalSequence ts)
    (hl : LaidOut ts source.toList) (hd : Derives Operator.precedence ts s) :
    Tree.parse source = .ok (Tree.ofSide s) :=
  Tree.parse_eq_ok_iff_derives.2 ⟨ts, s, scan_eq_ok_iff.2 (h.scans hl), h.validate_eq, hd, rfl⟩

end CanonicalSequence

namespace Side

/-- A side as a formula makes it: no part is missing, every operator has an alias, and the
operands are those that a formula can show. -/
def Canonical : Side → Prop
  | literal value => value.Canonical
  | var name t => t = .any ∧ (Token.var name).Canonical
  | nested l o r => l.Canonical ∧ o ∈ Operator.precedence ∧ r.Canonical
  | empty => False

/-- The token that shows a side, a nested side as a group. -/
def token : Side → Token
  | literal value => .literal value
  | var name _ => .var name
  | nested l o r => .group [l.token, .operator o.symbol, r.token]
  | empty => .group []

/-- The tokens of a formula that is a side. -/
def tokens : Side → List Token
  | nested l o r => [l.token, .operator o.symbol, r.token]
  | s => [s.token]

end Side

/-- The operands of a derived side are those of its tokens. -/
theorem Derives.canonical {levels : List Operator} {ts : List Token} {s : Side}
    (h : Derives levels ts s) (hc : ∀ t ∈ partsAll ts, t.Canonical) : s.Canonical := by
  induction h with
  | var => exact ⟨rfl, hc _ (by simp [partsAll, parts])⟩
  | literal => exact hc (.literal _) (by simp [partsAll, parts])
  | group _ ih => exact ih fun t ht => hc t (by simp [partsAll, parts, ht])
  | tighter _ ih => exact ih hc
  | apply hs _ _ ihl ihr =>
      rw [partsAll_append, List.forall_mem_append, partsAll, List.forall_mem_append] at hc
      exact ⟨ihl hc.1, mem_precedence_of_ofAlias? hs, ihr hc.2.2⟩

namespace Operator

theorem symbol_mem_aliases {o : Operator} (h : o ∈ precedence) : o.symbol ∈ o.aliases := by
  revert o
  decide

theorem ofAlias?_symbol {o : Operator} (h : o ∈ precedence) : ofAlias? o.symbol = some o :=
  ofAlias?_of_mem_aliases (symbol_mem_aliases h)

end Operator

namespace Side.Canonical

variable {s l r : Side} {o : Operator}

theorem isEmpty_eq_false (h : s.Canonical) : s.isEmpty = false := by
  cases s with
  | empty => cases h
  | literal | var | nested => rfl

/-- Neither side of a canonical node is missing, so its text shows both. -/
theorem join_eq (hl : l.Canonical) (hr : r.Canonical) (leftText symbol rightText : List Char) :
    join l r leftText symbol rightText = leftText ++ symbol ++ rightText := by
  simp [join, hl.isEmpty_eq_false, hr.isEmpty_eq_false]

theorem derives_token (h : s.Canonical) : Derives [] [s.token] s := by
  induction s with
  | literal value => exact .literal
  | var name t =>
      obtain ⟨rfl, -⟩ := h
      exact .var
  | nested l o r ihl ihr =>
      exact .group (.between (Operator.ofAlias?_symbol h.2.1) (ihl h.1) (ihr h.2.2))
  | empty => cases h

theorem derives (h : s.Canonical) : Derives Operator.precedence s.tokens s := by
  cases s with
  | nested l o r =>
      exact .between (Operator.ofAlias?_symbol h.2.1) h.1.derives_token h.2.2.derives_token
  | literal | var | empty => exact h.derives_token.loosen Operator.precedence

theorem canonicalSequence_token (h : s.Canonical) : CanonicalSequence [s.token] := by
  induction s with
  | literal value => exact ⟨rfl, List.forall_mem_singleton.2 h⟩
  | var name t => exact ⟨rfl, List.forall_mem_singleton.2 h.2⟩
  | nested l o r ihl ihr =>
      exact .group ((ihl h.1).append (Operator.symbol_mem_aliases h.2.1) (ihr h.2.2))
  | empty => cases h

theorem canonicalSequence (h : s.Canonical) : CanonicalSequence s.tokens := by
  cases s with
  | nested l o r =>
      exact h.1.canonicalSequence_token.append (Operator.symbol_mem_aliases h.2.1)
        h.2.2.canonicalSequence_token
  | literal | var | empty => exact h.canonicalSequence_token

/-- The text of a side lays out its token in front of any layout, and without the parentheses
the tokens of a formula. -/
theorem laidOut (h : s.Canonical) :
    (∀ ts cs, LaidOut ts cs → LaidOut (s.token :: ts) (s.write ++ cs)) ∧
      LaidOut s.tokens (Tree.ofSide s).write := by
  have hb : ∀ c ∈ ([] : List Char), isSeparator c = true := by simp
  have alone : ∀ s : Side, (∀ ts cs, LaidOut ts cs → LaidOut (s.token :: ts) (s.write ++ cs)) →
      LaidOut [s.token] s.write := by
    intro s hs
    simpa using hs [] [] (.nothing hb)
  induction s with
  | literal value =>
      have hs : ∀ ts cs, LaidOut ts cs → LaidOut (.literal value :: ts) (value.write ++ cs) :=
        fun ts cs hl => .literal hb hl
      exact ⟨hs, alone _ hs⟩
  | var name t =>
      have hs : ∀ ts cs, LaidOut ts cs → LaidOut (.var name :: ts) (name.toList ++ cs) :=
        fun ts cs hl => .var hb (fun _ => rfl) hl
      exact ⟨hs, alone _ hs⟩
  | nested l o r ihl ihr =>
      have content : LaidOut (nested l o r).tokens (Tree.ofSide (nested l o r)).write := by
        have right : LaidOut [.operator o.symbol, r.token] (o.symbol.toList ++ r.write) :=
          .operator hb (alone r (ihr h.2.2).1)
        rw [Tree.ofSide, Tree.write, join_eq h.1 h.2.2, List.append_assoc]
        exact (ihl h.1).1 _ _ right
      refine ⟨fun ts cs hl => ?_, content⟩
      have hgroup : LaidOut ((nested l o r).token :: ts)
          ('(' :: ((Tree.ofSide (nested l o r)).write ++ ')' :: cs)) := .group hb content hl
      simpa [Side.write, Tree.ofSide, Tree.write] using hgroup
  | empty => cases h

theorem of_mem_nodes (h : s.Canonical) {u : Side} (hu : u ∈ s.nodes) : u.Canonical := by
  induction s with
  | literal | var | empty => cases hu
  | nested l o r ihl ihr =>
      simp only [nodes, List.mem_append, List.mem_singleton] at hu
      rcases hu with (hu | hu) | rfl
      · exact ihl h.1 hu
      · exact ihr h.2.2 hu
      · exact h

end Side.Canonical

namespace Tree

/-- Every parsed tree is a canonical side. -/
theorem exists_canonical_of_parse {source : String} {t : Tree} (h : parse source = .ok t) :
    ∃ s : Side, s.Canonical ∧ t = ofSide s := by
  obtain ⟨ts, s, hts, hv, hs, rfl⟩ := parse_eq_ok_iff_derives.1 h
  exact ⟨s, hs.canonical (CanonicalSequence.of_scan hts hv).canonical, rfl⟩

/-- What holds of the tree of every formula. -/
structure Reparses (t : Tree) : Prop where
  /-- A side is empty only behind an operand that is the whole formula. -/
  single_of_empty : ∀ l o r, .nested l o r ∈ t.root.nodes → l = .empty ∨ r = .empty →
    ∃ s, t = ⟨s, .add, .empty⟩ ∧ ((∃ value, s = .literal value) ∨ ∃ name, s = .var name .any)
  /-- No node is a copy. -/
  ne_copyLeft : ∀ l o r, .nested l o r ∈ t.root.nodes → o ≠ .copyLeft
  /-- The text of the tree has the tree again. -/
  parse_toText : parse t.toText = .ok t

section Canonical

variable {s : Side} (h : s.Canonical)
include h

/-- The nodes of a canonical tree are canonical, unless the tree is one operand. -/
theorem canonical_or_single {u : Side} (hu : u ∈ (ofSide s).root.nodes) :
    u.Canonical ∨ u = (single s).root ∧ ofSide s = single s ∧
      ((∃ value, s = .literal value) ∨ ∃ name, s = .var name .any) := by
  cases s with
  | literal value => exact .inr ⟨List.mem_singleton.1 hu, rfl, .inl ⟨value, rfl⟩⟩
  | var name t =>
      obtain ⟨rfl, -⟩ := h
      exact .inr ⟨List.mem_singleton.1 hu, rfl, .inr ⟨name, rfl⟩⟩
  | nested l o r => exact .inl (h.of_mem_nodes hu)
  | empty => cases h

theorem reparses_of_canonical : (ofSide s).Reparses where
  single_of_empty := by
    intro l o r hu he
    rcases canonical_or_single h hu with ⟨hl, -, hr⟩ | ⟨-, hsingle, hs⟩
    · rcases he with rfl | rfl
      · cases hl
      · cases hr
    · exact ⟨s, hsingle, hs⟩
  ne_copyLeft := by
    intro l o r hu
    rcases canonical_or_single h hu with ⟨-, ho, -⟩ | ⟨he, -⟩
    · rintro rfl
      revert ho
      decide
    · obtain ⟨-, rfl, -⟩ := Side.nested.inj he
      exact Operator.noConfusion
  parse_toText := by
    apply h.canonicalSequence.parse_eq _ h.derives
    rw [toText, String.toList_ofList]
    exact h.laidOut.2

end Canonical

/-- Printing and parsing again changes nothing. -/
theorem reparses_of_parse {source : String} {t : Tree} (h : parse source = .ok t) :
    t.Reparses := by
  obtain ⟨s, hs, rfl⟩ := exists_canonical_of_parse h
  exact reparses_of_canonical hs

/-- A variable that is named like a keyword, needless groups, and a text of parentheses and
signs. -/
def needlessGroups : String := "or  AND (((x)) >= ' (or)>= ')*2.50\n"

theorem scan_needlessGroups : Token.scan needlessGroups = .ok
    [.var "or", .operator " AND ",
      .group [.group [.group [.var "x"]], .operator ">=", .literal (.text " (or)>= ")],
      .operator "*", .literal (.number "2.50")] := by decide +kernel

theorem parse_needlessGroups : parse needlessGroups = .ok ⟨.var "or" .any, .and,
    .nested (.nested (.var "x" .any) .greaterEq (.literal (.text " (or)>= "))) .times
      (.literal (.number "2.50"))⟩ := by
  have comparison : Derives (.greaterEq :: Operator.greaterEq.tighter)
      ([.group [.group [.var "x"]]] ++ .operator ">=" :: [.literal (.text " (or)>= ")]) _ :=
    .operate rfl Derives.var.enclose.enclose .literal
  have product : Derives (.times :: Operator.times.tighter)
      ([.group [.group [.group [.var "x"]], .operator ">=", .literal (.text " (or)>= ")]] ++
        .operator "*" :: [.literal (.number "2.50")]) _ :=
    .operate rfl comparison.enclose .literal
  have whole : Derives (.and :: Operator.and.tighter)
      ([.var "or"] ++ .operator " AND " ::
        [.group [.group [.group [.var "x"]], .operator ">=", .literal (.text " (or)>= ")],
          .operator "*", .literal (.number "2.50")]) _ :=
    .operate rfl .var product
  rw [parse, scan_needlessGroups]
  exact (whole.ofTokens_eq (by decide)).2

/-- The text shows the first alias of every operator, and a nested side as one group. -/
theorem reparses_of_parse_needlessGroups : ∃ t, parse needlessGroups = .ok t ∧
    t.toText = "or&((x>=' (or)>= ')*2.50)" ∧ t.Reparses :=
  ⟨_, parse_needlessGroups, by decide +kernel, reparses_of_parse parse_needlessGroups⟩

end Tree

end FormulaCode
