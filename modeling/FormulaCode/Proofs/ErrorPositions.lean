import FormulaCode.Proofs.Scanning
import Mathlib.Control.Monad.Basic
import Mathlib.Data.List.Infix

/-! # Positions of errors

A scan that fails at a quote or at a parenthesis reports the byte where it stands. The text is
scanned in regions: the whole text, and inside it the contents of groups. Where a group ends is
found by a count of parentheses that skips quoted spans, while the scan takes a quote inside an
operand for a part of the operand, so the two may differ about which text is quoted. Still the
position is right in the region that is scanned: a reported quote is the last one there, and a
reported parenthesis stays open up to the end. -/

namespace FormulaCode

open Token

/-! ## The count of parentheses -/

/-- The characters of a text outside of quoted spans; `quoted` tells whether it starts in one. -/
def unquoted (quoted : Bool) : List Char → List Char
  | [] => []
  | c :: cs =>
      if c = quote then unquoted (!quoted) cs
      else if quoted then unquoted quoted cs
      else c :: unquoted quoted cs

/-- How many more parentheses a text opens than it closes, with quoted spans skipped. -/
def depth (quoted : Bool) (cs : List Char) : Int :=
  (unquoted quoted cs).count '(' - (unquoted quoted cs).count ')'

/-- The parenthesis at the start of a text has no partner: the depth does not return to zero. -/
def StaysOpen (cs : List Char) : Prop := ∀ u, u <+: cs → u ≠ [] → 0 < depth false u

/-- A parenthesis before this text is closed by one behind it, and by none before that. -/
structure Enclosed (content : List Char) : Prop where
  staysOpen : StaysOpen ('(' :: content)
  closes : depth false ('(' :: content ++ [')']) = 0

section Depth

variable {quoted : Bool} {c : Char} {cs content behind : List Char}

@[simp] theorem depth_nil (quoted : Bool) : depth quoted [] = 0 := rfl

theorem depth_quote (quoted : Bool) (cs : List Char) :
    depth quoted (quote :: cs) = depth (!quoted) cs := by
  rw [depth, unquoted, if_pos rfl]
  rfl

theorem depth_quoted (hc : c ≠ quote) : depth true (c :: cs) = depth true cs := by
  rw [depth, unquoted, if_neg hc, if_pos rfl]
  rfl

theorem depth_open (cs : List Char) : depth false ('(' :: cs) = 1 + depth false cs := by
  have hskip : unquoted false ('(' :: cs) = '(' :: unquoted false cs := rfl
  rw [depth, hskip, List.count_cons_self, List.count_cons_of_ne (by decide), depth]
  omega

theorem depth_close (cs : List Char) : depth false (')' :: cs) = -1 + depth false cs := by
  have hskip : unquoted false (')' :: cs) = ')' :: unquoted false cs := rfl
  rw [depth, hskip, List.count_cons_self, List.count_cons_of_ne (by decide), depth]
  omega

theorem depth_other (hq : c ≠ quote) (hopen : c ≠ '(') (hclose : c ≠ ')') :
    depth false (c :: cs) = depth false cs := by
  rw [depth, unquoted, if_neg hq, if_neg (by decide), List.count_cons_of_ne hopen,
    List.count_cons_of_ne hclose]
  rfl

/-- What the search for a closing parenthesis does at a character: it ends at a parenthesis that
is not quoted and closes the current one, and otherwise goes on with the depth behind the
character. -/
theorem splitClose?_cons (quoted : Bool) (d : Nat) (c : Char) (cs : List Char) :
    (splitClose? quoted d (c :: cs) = some ([], cs) ∧ c = ')' ∧ quoted = false ∧ d = 0) ∨
      ∃ q e, splitClose? quoted d (c :: cs) =
          (splitClose? q e cs).map (fun r => (c :: r.1, r.2)) ∧
        ∀ u, d + depth quoted (c :: u) = e + depth q u := by
  by_cases hq : c = quote
  · subst hq
    exact .inr ⟨!quoted, d, by rw [splitClose?, if_pos rfl], fun u => by rw [depth_quote]⟩
  · cases quoted with
    | true =>
        refine .inr ⟨true, d, ?_, fun u => by rw [depth_quoted hq]⟩
        rw [splitClose?, if_neg hq, if_pos rfl]
    | false =>
        by_cases hopen : c = '('
        · subst hopen
          refine .inr ⟨false, d + 1, rfl, fun u => ?_⟩
          rw [depth_open]
          omega
        · by_cases hclose : c = ')'
          · subst hclose
            cases d with
            | zero => exact .inl ⟨rfl, rfl, rfl, rfl⟩
            | succ d =>
                refine .inr ⟨false, d, rfl, fun u => ?_⟩
                rw [depth_close]
                omega
          · refine .inr ⟨false, d, ?_, fun u => by rw [depth_other hq hopen hclose]⟩
            rw [splitClose?, if_neg hq, if_neg (by decide), if_neg hopen, if_neg hclose]

/-- Without a closing parenthesis the depth stays above that of the surroundings. -/
theorem depth_of_splitClose?_eq_none {d : Nat} (h : splitClose? quoted d cs = none)
    {u : List Char} (hu : u <+: cs) : 0 ≤ d + depth quoted u := by
  induction cs generalizing quoted d u with
  | nil =>
      rw [List.prefix_nil.1 hu, depth_nil]
      omega
  | cons c cs ih =>
      obtain rfl | ⟨v, rfl, hv⟩ := List.prefix_cons_iff.1 hu
      · rw [depth_nil]
        omega
      · obtain ⟨hend, -⟩ | ⟨q, e, hgo, hdepth⟩ := splitClose?_cons quoted d c cs
        · cases hend.symm.trans h
        · rw [hdepth]
          exact ih (Option.map_eq_none_iff.1 (hgo.symm.trans h)) hv

/-- Up to the closing parenthesis the depth stays above that of the surroundings, and there it
goes below. -/
theorem depth_of_splitClose? {d : Nat} (h : splitClose? quoted d cs = some (content, behind)) :
    (∀ u, u <+: content → 0 ≤ d + depth quoted u) ∧ d + depth quoted (content ++ [')']) = -1 := by
  induction cs generalizing quoted d content with
  | nil => cases h
  | cons c cs ih =>
      obtain ⟨hend, rfl, rfl, rfl⟩ | ⟨q, e, hgo, hdepth⟩ := splitClose?_cons quoted d c cs
      · obtain ⟨rfl, rfl⟩ := Prod.mk.inj (Option.some.inj (hend.symm.trans h))
        refine ⟨fun u hu => ?_, rfl⟩
        rw [List.prefix_nil.1 hu, depth_nil]
        omega
      · obtain ⟨⟨content', behind'⟩, hrest, he⟩ := Option.map_eq_some_iff.1 (hgo.symm.trans h)
        obtain ⟨rfl, rfl⟩ := Prod.mk.inj he
        obtain ⟨habove, hbelow⟩ := ih hrest
        refine ⟨fun u hu => ?_, ?_⟩
        · obtain rfl | ⟨v, rfl, hv⟩ := List.prefix_cons_iff.1 hu
          · rw [depth_nil]
            omega
          · rw [hdepth]
            exact habove v hv
        · rw [List.cons_append, hdepth]
          exact hbelow

/-- A parenthesis stays open over a text whose depth is not negative anywhere. -/
theorem staysOpen_of_depth (h : ∀ u, u <+: cs → 0 ≤ depth false u) : StaysOpen ('(' :: cs) := by
  intro u hu hne
  obtain rfl | ⟨v, rfl, hv⟩ := List.prefix_cons_iff.1 hu
  · exact absurd rfl hne
  · have hnonneg := h v hv
    rw [depth_open]
    omega

theorem staysOpen_of_splitGroup? (h : splitGroup? cs = none) : StaysOpen ('(' :: cs) := by
  apply staysOpen_of_depth
  intro u hu
  have hnonneg := depth_of_splitClose?_eq_none h hu
  omega

theorem enclosed_of_splitGroup? (h : splitGroup? cs = some (content, behind)) :
    Enclosed content := by
  obtain ⟨habove, hbelow⟩ := depth_of_splitClose? h
  constructor
  · apply staysOpen_of_depth
    intro u hu
    have hnonneg := habove u hu
    omega
  · rw [List.cons_append, depth_open]
    omega

end Depth

/-! ## Bytes -/

theorem Token.byteLength_append (cs ds : List Char) :
    byteLength (cs ++ ds) = byteLength cs + byteLength ds := by
  induction cs with
  | nil => simp [byteLength]
  | cons c cs ih => simp [byteLength, ih, Nat.add_assoc]

theorem length_flatMap_utf8EncodeChar (cs : List Char) :
    (cs.flatMap String.utf8EncodeChar).length = byteLength cs := by
  induction cs with
  | nil => rfl
  | cons c cs ih =>
      rw [List.flatMap_cons, List.length_append, String.length_utf8EncodeChar, ih]
      rfl

/-- The bytes of a string are those of its characters. -/
theorem getElem?_toByteArray (s : String) (i : Nat) :
    s.toByteArray[i]? = (s.toList.flatMap String.utf8EncodeChar)[i]? := by
  change s.toByteArray.data[i]? = _
  rw [← String.utf8Encode_toList, List.utf8Encode, ← Array.getElem?_toList,
    List.toList_data_toByteArray]

/-! ## Regions -/

/-- A stretch of a text that is scanned on its own, with the text before it: the whole text, or
what stands between a parenthesis and its partner. -/
inductive Region (source : List Char) : List Char → List Char → Prop
  | whole : Region source [] source
  | group {before content behind} (hs : source = before ++ '(' :: (content ++ ')' :: behind))
      (h : Enclosed content) : Region source (before ++ ['(']) content

/-- What stands from a byte of a text on, up to the end of a region that holds this byte. -/
def TailAt (source : List Char) (position : Nat) (rest : List Char) : Prop :=
  ∃ before content inner, Region source before content ∧ content = inner ++ rest ∧
    position = byteLength (before ++ inner)

theorem Region.exists_behind {source before content : List Char}
    (h : Region source before content) : ∃ behind, source = before ++ (content ++ behind) := by
  cases h with
  | whole => exact ⟨[], (List.append_nil source).symm⟩
  | group hs => exact ⟨_, by rw [hs, List.append_assoc]; rfl⟩

namespace TailAt

variable {source rest : List Char} {position : Nat}

theorem start (source : List Char) : TailAt source 0 source := ⟨[], source, [], .whole, rfl, rfl⟩

/-- A scan goes on in its region. -/
theorem advance {passed : List Char} (h : TailAt source position (passed ++ rest)) :
    TailAt source (position + byteLength passed) rest := by
  obtain ⟨before, content, inner, hregion, rfl, rfl⟩ := h
  refine ⟨before, _, inner ++ passed, hregion, (List.append_assoc _ _ _).symm, ?_⟩
  rw [← List.append_assoc, byteLength_append _ passed]

/-- It goes on behind a text between two characters of one byte. -/
theorem advance_between {c d : Char} {content : List Char} (hc : c.utf8Size = 1)
    (hd : d.utf8Size = 1) (h : TailAt source position (c :: (content ++ d :: rest))) :
    TailAt source (position + byteLength content + 2) rest := by
  have hpassed : c :: (content ++ d :: rest) = (c :: (content ++ [d])) ++ rest := by simp
  have hlength : byteLength (c :: (content ++ [d])) = byteLength content + 2 := by
    simp only [byteLength, byteLength_append, hc, hd]
    omega
  rw [hpassed] at h
  rw [Nat.add_assoc, ← hlength]
  exact h.advance

/-- A text stands at its position, whatever the region. -/
theorem exists_append (h : TailAt source position rest) :
    ∃ before behind, source = before ++ (rest ++ behind) ∧ position = byteLength before := by
  obtain ⟨before, content, inner, hregion, rfl, rfl⟩ := h
  obtain ⟨behind, rfl⟩ := hregion.exists_behind
  exact ⟨before ++ inner, behind, by simp, rfl⟩

/-- The content of a group is a region. -/
theorem enter {cs content behind : List Char} (h : TailAt source position ('(' :: cs))
    (hs : splitGroup? cs = some (content, behind)) : TailAt source (position + 1) content := by
  obtain ⟨before, after, rfl, rfl⟩ := h.exists_append
  obtain rfl := eq_append_of_splitClose? hs
  have hsource : before ++ ('(' :: (content ++ ')' :: behind) ++ after) =
      before ++ '(' :: (content ++ ')' :: (behind ++ after)) := by simp
  refine ⟨before ++ ['('], content, [], .group hsource (enclosed_of_splitGroup? hs), rfl, ?_⟩
  rw [List.append_nil, byteLength_append]
  rfl

/-- The byte at the position is the first one of the character there. -/
theorem byte_eq {source : String} {c : Char} (h : TailAt source.toList position (c :: rest)) :
    source.toByteArray[position]? = (String.utf8EncodeChar c).head? := by
  obtain ⟨before, behind, hs, rfl⟩ := h.exists_append
  have hne : String.utf8EncodeChar c ≠ [] := by
    apply List.ne_nil_of_length_pos
    rw [String.length_utf8EncodeChar]
    exact c.utf8Size_pos
  obtain ⟨b, bs, hb⟩ := List.exists_cons_of_ne_nil hne
  rw [getElem?_toByteArray, hs, List.flatMap_append, ← length_flatMap_utf8EncodeChar before,
    List.getElem?_append_right le_rfl, Nat.sub_self, List.cons_append, List.flatMap_cons, hb]
  rfl

end TailAt

/-! ## Errors of a scan -/

/-- The position of an error is that of its cause in a region of the text: the last quote there,
or a parenthesis that stays open up to the end. -/
def ParseError.Locates (source : List Char) : ParseError → Prop
  | unterminatedLiteral p => ∃ rest, TailAt source p (quote :: rest) ∧ quote ∉ rest
  | unterminatedGroup p => ∃ rest, TailAt source p ('(' :: rest) ∧ StaysOpen ('(' :: rest)
  | _ => True

theorem not_mem_of_splitQuote? {cs : List Char} (h : splitQuote? cs = none) : quote ∉ cs := by
  intro hmem
  obtain ⟨content, behind, rfl, hcontent⟩ := List.eq_append_cons_of_mem hmem
  rw [splitQuote?_eq_some_iff.2 ⟨hcontent, rfl⟩] at h
  cases h

/-- A scan that stands at its position in a region locates its errors. -/
theorem scanFrom_locates {source : List Char} (position : Nat) (cs : List Char)
    (h : TailAt source position cs) :
    Ends (ParseError.Locates source) (fun _ => True) (scanFrom position cs) := by
  fun_induction scanFrom position cs with
  | case1 => trivial
  | case2 position rest hs => exact ⟨rest, h, not_mem_of_splitQuote? hs⟩
  | case3 position rest content behind hs ih =>
      obtain ⟨-, rfl⟩ := splitQuote?_eq_some_iff.1 hs
      exact (ih (h.advance_between rfl rfl)).bind fun _ _ => trivial
  | case4 position rest hs => exact ⟨rest, h, staysOpen_of_splitGroup? hs⟩
  | case5 => trivial
  | case6 position rest content behind hs _ _ ihi ih =>
      -- The content is a region of its own; behind it the scan goes on in the old one.
      refine (ihi (h.enter hs)).bind fun _ _ => (ih ?_).bind fun _ _ => trivial
      rw [eq_append_of_splitClose? hs] at h
      exact h.advance_between rfl rfl
  | case7 position c rest _ _ a ha ih =>
      rw [← Operator.append_drop_of_aliasAt? ha] at h
      exact (ih h.advance).bind fun _ _ => trivial
  | case8 position c rest _ _ _ _ ih =>
      have hblank : TailAt source position ([c] ++ rest) := h
      exact ih hblank.advance
  | case9 position c rest _ _ _ _ operand ih =>
      have hoperand : TailAt source position (operand ++ (splitOperand rest).2) := by
        rwa [List.cons_append, splitOperand_append]
      exact (ih hoperand.advance).bind fun _ _ => trivial

theorem scan_locates (source : String) :
    Ends (ParseError.Locates source.toList) (fun _ => True) (scan source) := by
  rw [scan]
  split
  · trivial
  · exact scanFrom_locates 0 source.toList (.start source.toList)

/-- The position of an error is the byte of its cause. A quote without a partner is the last one in
the whole text or between a parenthesis and its partner, and a parenthesis without a partner stays
open up to the end of the text or of what stands between such a pair. -/
theorem scan_error_located (source : String) (p : Nat) :
    (scan source = .error (.unterminatedLiteral p) →
      source.toByteArray[p]? = some 0x27 ∧
        ∃ rest, TailAt source.toList p (quote :: rest) ∧ quote ∉ rest) ∧
    (scan source = .error (.unterminatedGroup p) →
      source.toByteArray[p]? = some 0x28 ∧
        ∃ rest, TailAt source.toList p ('(' :: rest) ∧ StaysOpen ('(' :: rest)) := by
  constructor
  · intro h
    obtain ⟨rest, htail, hlast⟩ := (scan_locates source).of_error h
    exact ⟨htail.byte_eq, rest, htail, hlast⟩
  · intro h
    obtain ⟨rest, htail, hopen⟩ := (scan_locates source).of_error h
    exact ⟨htail.byte_eq, rest, htail, hopen⟩

/-- The count of parentheses takes the quotes in both groups for a pair, while the scan takes the
first one for a part of an operand. The letter before the group has two bytes. -/
theorem scan_error_located_pairedQuotes :
    scan "é*(a'+'b)" = .error (.unterminatedLiteral 7) ∧
      (∃ rest, TailAt "é*(a'+'b)".toList 7 (quote :: rest) ∧ quote ∉ rest) ∧
      scan "é+(a'+(b')" = .error (.unterminatedGroup 7) ∧
      ∃ rest, TailAt "é+(a'+(b')".toList 7 ('(' :: rest) ∧ StaysOpen ('(' :: rest) := by
  have hliteral : scan "é*(a'+'b)" = .error (.unterminatedLiteral 7) := by decide +kernel
  have hgroup : scan "é+(a'+(b')" = .error (.unterminatedGroup 7) := by decide +kernel
  exact ⟨hliteral, ((scan_error_located _ 7).1 hliteral).2, hgroup,
    ((scan_error_located _ 7).2 hgroup).2⟩

end FormulaCode
