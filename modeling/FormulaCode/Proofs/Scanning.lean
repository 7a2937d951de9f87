import FormulaCode.Proofs.Outcome
import FormulaCode.Token.Scan

/-! # The tokens of a text

What scanning can find is said once, as a relation with one rule for each way in which the
text goes on. Positions play no role in it: they only show in errors. -/

namespace FormulaCode

open Token

/-- The tokens of a text that is scanned to its end. -/
inductive Scans : List Char → List Token → Prop
  | nothing : Scans [] []
  | quoted {cs content behind ts} (hs : splitQuote? cs = some (content, behind))
      (h : Scans behind ts) : Scans (quote :: cs) (ofQuoted content :: ts)
  | group {cs content behind inner ts} (hs : splitGroup? cs = some (content, behind))
      (hb : Text.allBlank content = false) (hi : Scans content inner) (h : Scans behind ts) :
      Scans ('(' :: cs) (.group inner :: ts)
  | operator {c cs a ts} (hq : c ≠ quote) (hp : c ≠ '(')
      (ha : Operator.aliasAt? (c :: cs) = some a) (h : Scans ((c :: cs).drop a.1.length) ts) :
      Scans (c :: cs) (.operator (String.ofList a.1) :: ts)
  | blank {c cs ts} (hq : c ≠ quote) (hp : c ≠ '(') (ha : Operator.aliasAt? (c :: cs) = none)
      (hc : isSeparator c = true) (h : Scans cs ts) : Scans (c :: cs) ts
  | operand {c cs ts} (hq : c ≠ quote) (hp : c ≠ '(')
      (ha : Operator.aliasAt? (c :: cs) = none) (hc : isSeparator c = false)
      (h : Scans (splitOperand cs).2 ts) :
      Scans (c :: cs) (ofOperand (c :: (splitOperand cs).1) ++ ts)

namespace Scans

/-- Scanning succeeds only by the rules. -/
theorem of_scanFrom {position : Nat} {cs : List Char} {ts : List Token}
    (h : scanFrom position cs = .ok ts) : Scans cs ts := by
  induction position, cs using scanFrom.induct generalizing ts with
  | case1 position =>
      rw [scanFrom] at h
      obtain rfl := Except.ok.inj h
      exact .nothing
  | case2 position cs hs =>
      rw [scanFrom, if_pos rfl] at h
      split at h
      · cases h
      · next he => cases hs.symm.trans he
  | case3 position cs content behind hs ih =>
      rw [scanFrom, if_pos rfl] at h
      split at h
      · cases h
      · next he =>
          cases hs.symm.trans he
          obtain ⟨us, hus, h⟩ := bind_eq_ok_iff.1 h
          obtain rfl := Except.ok.inj h
          exact .quoted hs (ih hus)
  | case4 position cs hs hq =>
      rw [scanFrom, if_neg hq, if_pos rfl] at h
      split at h
      · cases h
      · next he => cases hs.symm.trans he
  | case5 position cs content behind hs hb hq =>
      rw [scanFrom, if_neg hq, if_pos rfl] at h
      split at h
      · cases h
      · next he =>
          cases hs.symm.trans he
          rw [if_pos hb] at h
          cases h
  | case6 position cs content behind hs hb hq ihi ih =>
      rw [scanFrom, if_neg hq, if_pos rfl] at h
      split at h
      · cases h
      · next he =>
          cases hs.symm.trans he
          rw [if_neg hb] at h
          obtain ⟨inner, hinner, h⟩ := bind_eq_ok_iff.1 h
          obtain ⟨us, hus, h⟩ := bind_eq_ok_iff.1 h
          obtain rfl := Except.ok.inj h
          exact .group hs (Bool.eq_false_iff.2 hb) (ihi hinner) (ih hus)
  | case7 position c cs hq hp a ha ih =>
      rw [scanFrom, if_neg hq, if_neg hp] at h
      split at h
      · next he =>
          cases ha.symm.trans he
          obtain ⟨us, hus, h⟩ := bind_eq_ok_iff.1 h
          obtain rfl := Except.ok.inj h
          exact .operator hq hp ha (ih hus)
      · next he => cases ha.symm.trans he
  | case8 position c cs hq hp ha hc ih =>
      rw [scanFrom, if_neg hq, if_neg hp] at h
      split at h
      · next he => cases ha.symm.trans he
      · rw [if_pos hc] at h
        exact .blank hq hp ha hc (ih h)
  | case9 position c cs hq hp ha hc operand =>
      rename_i ih
      rw [scanFrom, if_neg hq, if_neg hp] at h
      split at h
      · next he => cases ha.symm.trans he
      · rw [if_neg hc] at h
        obtain ⟨us, hus, h⟩ := bind_eq_ok_iff.1 h
        obtain rfl := Except.ok.inj h
        exact .operand hq hp ha (Bool.eq_false_iff.2 hc) (ih hus)

theorem of_scan {source : String} {ts : List Token} (h : scan source = .ok ts) :
    Scans source.toList ts := by
  rw [scan] at h
  split at h
  · cases h
  · exact of_scanFrom h

/-- Scanning follows the rules, wherever the text stands. -/
theorem scanFrom_eq {cs : List Char} {ts : List Token} (h : Scans cs ts) (position : Nat) :
    scanFrom position cs = .ok ts := by
  induction h generalizing position with
  | nothing => rw [scanFrom]
  | quoted hs _ ih =>
      rw [scanFrom, if_pos rfl]
      split
      · next hn => cases hs.symm.trans hn
      · next he =>
          cases hs.symm.trans he
          rw [ih, ok_bind]
          rfl
  | group hs hb _ _ ihi ih =>
      rw [scanFrom, if_neg (by decide), if_pos rfl]
      split
      · next hn => cases hs.symm.trans hn
      · next he =>
          cases hs.symm.trans he
          rw [if_neg (Bool.eq_false_iff.1 hb), ihi, ok_bind, ih, ok_bind]
          rfl
  | operator hq hp ha _ ih =>
      rw [scanFrom, if_neg hq, if_neg hp]
      split
      · next he =>
          cases ha.symm.trans he
          rw [ih, ok_bind]
          rfl
      · next hn => cases ha.symm.trans hn
  | blank hq hp ha hc _ ih =>
      rw [scanFrom, if_neg hq, if_neg hp]
      split
      · next he => cases ha.symm.trans he
      · rw [if_pos hc, ih]
  | operand hq hp ha hc _ ih =>
      rw [scanFrom, if_neg hq, if_neg hp]
      split
      · next he => cases ha.symm.trans he
      · rw [if_neg (Bool.eq_false_iff.1 hc)]
        simp only [ih, ok_bind]
        rfl

end Scans

/-- A text has tokens exactly by the rules, unless it is blank. -/
theorem scan_eq_ok_iff {source : String} {ts : List Token} :
    scan source = .ok ts ↔ Text.allBlank source.toList = false ∧ Scans source.toList ts := by
  constructor
  · intro h
    refine ⟨?_, .of_scan h⟩
    rw [scan] at h
    split at h
    · cases h
    · next hb => exact Bool.eq_false_iff.2 hb
  · rintro ⟨hb, h⟩
    rw [scan, if_neg (Bool.eq_false_iff.1 hb), h.scanFrom_eq]

namespace Token

/-- The text before the first quote holds none. -/
theorem splitQuote?_eq_some_iff {cs content behind : List Char} :
    splitQuote? cs = some (content, behind) ↔
      quote ∉ content ∧ cs = content ++ quote :: behind := by
  induction cs generalizing content with
  | nil => simp [splitQuote?]
  | cons c cs ih =>
      by_cases hc : c = quote
      · subst hc
        simp only [splitQuote?, if_true, Option.some.injEq, Prod.mk.injEq]
        constructor
        · rintro ⟨rfl, rfl⟩
          exact ⟨List.not_mem_nil, rfl⟩
        · rintro ⟨hn, he⟩
          cases content with
          | nil => exact ⟨rfl, (List.cons.inj he).2⟩
          | cons d content =>
              obtain ⟨rfl, -⟩ := List.cons.inj he
              exact absurd List.mem_cons_self hn
      · simp only [splitQuote?, hc, if_false, Option.map_eq_some_iff, Prod.exists, Prod.mk.injEq]
        constructor
        · rintro ⟨content', behind', h, rfl, rfl⟩
          obtain ⟨hn, rfl⟩ := ih.1 h
          exact ⟨by simpa [Ne.symm hc] using hn, rfl⟩
        · rintro ⟨hn, he⟩
          cases content with
          | nil => exact absurd (List.cons.inj he).1 hc
          | cons d content =>
              obtain ⟨rfl, rfl⟩ := List.cons.inj he
              exact ⟨content, behind, ih.2 ⟨fun h => hn (List.mem_cons_of_mem _ h), rfl⟩, rfl, rfl⟩

/-- A split at the closing parenthesis loses nothing else. -/
theorem eq_append_of_splitClose? {quoted : Bool} {depth : Nat} {cs content behind : List Char}
    (h : splitClose? quoted depth cs = some (content, behind)) :
    cs = content ++ ')' :: behind := by
  induction cs generalizing quoted depth content with
  | nil => cases h
  | cons c cs ih =>
      -- All rules but one keep the character and go on.
      have keep : ∀ {q d}, (splitClose? q d cs).map (fun r => (c :: r.1, r.2)) =
          some (content, behind) → c :: cs = content ++ ')' :: behind := by
        intro q d h
        obtain ⟨⟨content', behind'⟩, hr, he⟩ := Option.map_eq_some_iff.1 h
        obtain ⟨rfl, rfl⟩ := Prod.mk.inj he
        rw [ih hr]
        rfl
      simp only [splitClose?] at h
      split at h
      · exact keep h
      · split at h
        · exact keep h
        · split at h
          · exact keep h
          · split at h
            · next hc =>
                split at h
                · obtain ⟨rfl, rfl⟩ := Prod.mk.inj (Option.some.inj h)
                  rw [hc]
                  rfl
                · exact keep h
            · exact keep h

end Token

end FormulaCode
