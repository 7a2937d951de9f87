import FormulaCode.Proofs.FoldEquivalence
import FormulaCode.Proofs.Scanning
import FormulaCode.Proofs.TypeSoundness
import FormulaCode.Proofs.WellFormedValues

/-! # Typed formulas fail by division only

The literals of a formula are well formed when they are scanned, no stage of compiling makes
others up, and folding puts in values that operators computed from well-formed ones. So the
run of a compiled formula over well-formed values does not stop at a text, and if the formula
has a type it does not stop at a clash of types either. -/

namespace FormulaCode

open Token

/-- A quoted text is a time only if it reads as one. -/
theorem wellFormed_of_mem_ofQuoted {content : List Char} {v : Literal}
    (h : .inl (.literal v) ∈ (ofQuoted content).items) : v.WellFormed := by
  rw [ofQuoted] at h
  split at h
  · next ht =>
      obtain rfl : v = .time (String.ofList content) := by simpa [items] using h
      obtain ⟨t, ht⟩ := Option.isSome_iff_exists.1 ht
      exact ⟨t, by simp [Literal.time, readTime, ht]⟩
  · obtain rfl : v = .text (String.ofList content) := by simpa [items] using h
    exact Literal.wellFormed_text _

/-- A word is a number only if it is a numeral. -/
theorem wellFormed_of_mem_ofWord {cs : List Char} {v : Literal}
    (h : .inl (.literal v) ∈ (ofWord cs).items) : v.WellFormed := by
  rw [ofWord] at h
  split at h
  · next hn =>
      obtain rfl : v = .number (String.ofList cs) := by simpa [items] using h
      obtain ⟨n, he, rfl⟩ := exists_numeral_of_isPlainNumber hn
      have hread := readNumber_numeral n (List.forall_mem_nil _) (List.forall_mem_nil _)
      rw [List.nil_append, List.append_nil, if_pos (Numeral.fits_of_exponent he)] at hread
      exact ⟨_, hread⟩
  · split at h
    · obtain rfl : v = .bool true := by simpa [items] using h
      exact Literal.wellFormed_bool true
    · split at h
      · obtain rfl : v = .bool false := by simpa [items] using h
        exact Literal.wellFormed_bool false
      · simp [items] at h

/-- The literals of a scanned text are well formed, at all depths. -/
theorem Scans.wellFormed {cs : List Char} {ts : List Token} (h : Scans cs ts) {v : Literal}
    (hv : .inl (.literal v) ∈ itemsAll ts) : v.WellFormed := by
  induction h with
  | nothing => cases hv
  | quoted hs _ ih =>
      rw [itemsAll, List.mem_append] at hv
      exact hv.elim wellFormed_of_mem_ofQuoted ih
  | group hs hb _ _ ihi ih =>
      rw [itemsAll, List.mem_append, items] at hv
      exact hv.elim ihi ih
  | operator hq hp ha _ ih =>
      rw [itemsAll, List.mem_append] at hv
      rcases hv with hv | hv
      · simp [items] at hv
      · exact ih hv
  | blank hq hp ha hc _ ih => exact ih hv
  | operand hq hp ha hc _ ih =>
      rw [itemsAll_append, List.mem_append] at hv
      rcases hv with hv | hv
      · rw [ofOperand] at hv
        split at hv
        · cases hv
        · rw [itemsAll, itemsAll, List.append_nil] at hv
          exact wellFormed_of_mem_ofWord hv
      · exact ih hv

/-- The literals in the code of a side are literals of the side. -/
theorem Generates.literal_mem_items {count : Nat} {s : Side} {x : Fragment}
    (h : Generates count s x) :
    (∀ v, x.operand = .literal v → .inl (.literal v) ∈ s.items) ∧
      ∀ v ∈ x.quadruples.flatMap Quadruple.literals, .inl (.literal v) ∈ s.items := by
  induction h with
  | literal => simp [Side.items]
  | var => simp
  | right _ ih | left _ ih =>
      refine ⟨by simp, fun v hv => ?_⟩
      simp only [Fragment.close_quadruples, List.flatMap_append, List.mem_append,
        List.flatMap_cons, List.flatMap_nil, List.append_nil, Quadruple.mem_literals, or_self] at hv
      have := hv.elim (ih.2 v) (ih.1 v)
      simp [Side.items, this]
  | both _ _ ihl ihr =>
      refine ⟨by simp, fun v hv => ?_⟩
      simp only [Fragment.close_quadruples, List.flatMap_append, List.mem_append,
        List.flatMap_cons, List.flatMap_nil, List.append_nil, Quadruple.mem_literals] at hv
      simp only [Side.items, List.mem_append, List.mem_cons]
      rcases hv with (hv | hv) | hv | hv
      · exact Or.inl (ihl.2 v hv)
      · exact Or.inr (Or.inr (ihr.2 v hv))
      · exact Or.inl (ihl.1 v hv)
      · exact Or.inr (Or.inr (ihr.1 v hv))

namespace Tree

/-- The literals in the code of a formula are well formed. -/
theorem wellFormed_of_generate {source : String} {t : Tree} (ht : parse source = .ok t)
    {qs : List Quadruple} (hq : t.generate = .ok qs) :
    ∀ v ∈ qs.flatMap Quadruple.literals, v.WellFormed := by
  intro v hv
  obtain ⟨ts, s, hscan, -, hs, rfl⟩ := parse_eq_ok_iff_derives.1 ht
  obtain ⟨operand, hx⟩ := generate_eq_ok_iff.1 hq
  have hitem := inl_mem_items_ofSide.1 (hx.literal_mem_items.2 v hv)
  rw [hs.items_eq] at hitem
  exact (Scans.of_scan hscan).wellFormed hitem

end Tree

namespace Quadruple

variable {known results : Results Literal} {qs : List Quadruple}

/-- The constants of well-formed quadruples are well formed. -/
theorem wellFormed_of_computeConstants (hq : ∀ v ∈ qs.flatMap literals, v.WellFormed)
    (hk : known.All Literal.WellFormed) (h : computeConstants known qs = .ok results) :
    results.All Literal.WellFormed := by
  induction qs generalizing known with
  | nil =>
      obtain rfl := Except.ok.inj h
      exact hk
  | cons q qs ih =>
      simp only [List.flatMap_cons, List.mem_append] at hq
      have htail : ∀ v ∈ qs.flatMap literals, v.WellFormed := fun v hv => hq v (Or.inr hv)
      simp only [computeConstants] at h
      split at h
      · exact ih htail hk h
      · next l r hlit =>
          obtain ⟨hl, hr⟩ := literals?_eq_some_iff.1 hlit
          obtain ⟨v, hv, h⟩ := bind_eq_ok_iff.1 h
          have hkeep := q.operator.apply_keepsForm
            (hq l (Or.inl (mem_literals.2 (Or.inl hl)))) (hq r (Or.inl (mem_literals.2 (Or.inr hr))))
          rw [hv] at hkeep
          exact ih htail (hk.insert q.id hkeep) h

/-- A resolved operand is a literal only if it was one or stands for a known result. -/
theorem literal_of_resolve {x : Operand} {v : Literal} (h : x.resolve known = .literal v) :
    x = .literal v ∨ ∃ k, known.get? k = some v := by
  cases x with
  | literal w => exact Or.inl h
  | var name t => cases h
  | result k =>
      simp only [Operand.resolve] at h
      split at h
      · next w hw =>
          cases h
          exact Or.inr ⟨k, hw⟩
      · cases h

theorem wellFormed_withoutConstants (hq : ∀ v ∈ qs.flatMap literals, v.WellFormed)
    (hk : known.All Literal.WellFormed) :
    ∀ v ∈ (withoutConstants qs known).flatMap literals, v.WellFormed := by
  intro v hv
  obtain ⟨p, hp, hv⟩ := List.mem_flatMap.1 hv
  obtain ⟨q, hmem, rfl⟩ := List.mem_map.1 hp
  have hmem := (List.mem_filter.1 hmem).1
  have old : ∀ x : Operand, x.resolve known = .literal v → (x = .literal v → v ∈ q.literals) →
      v.WellFormed := by
    intro x hx hold
    rcases literal_of_resolve hx with he | ⟨k, hkv⟩
    · exact hq v (List.mem_flatMap.2 ⟨q, hmem, hold he⟩)
    · exact hk k v hkv
  rcases mem_literals.1 hv with hl | hr
  · exact old q.left hl fun he => mem_literals.2 (Or.inl he)
  · exact old q.right hr fun he => mem_literals.2 (Or.inr he)

@[simp] theorem literals_noteType (q : Quadruple) : (noteType known q).literals = q.literals :=
  apply_noteType (fun _ _ => rfl) q

/-- Folding leaves well-formed literals. -/
theorem Folds.wellFormed {o : Folded} (h : Folds qs o)
    (hq : ∀ v ∈ qs.flatMap literals, v.WellFormed) :
    ∀ v ∈ o.quadruples.flatMap literals, v.WellFormed := by
  induction h with
  | nothing => exact hq
  | everything =>
      simp only [List.flatMap_map, literals_noteType]
      exact hq
  | pass hk _ _ _ ih =>
      exact ih (wellFormed_withoutConstants hq (wellFormed_of_computeConstants hq .empty hk))

end Quadruple

/-- The literals of a compiled formula are well formed, with folding and without. -/
theorem wellFormed_of_compile {source : String} {options : CompileOptions} {p : Program}
    (h : compile source options = .ok p) :
    ∀ v ∈ p.quadruples.flatMap Quadruple.literals, v.WellFormed := by
  obtain ⟨t, qs, ht, hq⟩ := exists_generate_of_compile h
  have hw := Tree.wellFormed_of_generate ht hq
  rcases quadruples_of_compile ht hq h with hp | ⟨o, ho, hp⟩
  · rwa [hp]
  · rw [hp]
    exact ho.wellFormed hw

/-- A compiled formula with a type, run over well-formed values of the types of its variables,
gives a well-formed value of its type or divides by zero. -/
theorem evaluate_compile_of_infer {source : String} {options : CompileOptions} {p : Program}
    (hp : compile source options = .ok p) {T : Bindings DataType} {t : DataType}
    (ht : p.infer T = .ok t) {V : Bindings Literal}
    (hV : ∀ name ∈ p.variableNames, ∀ u, T name = some u →
      ∃ l, V name = some l ∧ l.dataType = u ∧ l.WellFormed) :
    (∃ l, p.evaluate V = .ok l ∧ l.WellFormed ∧ l.dataType = t) ∨
      p.evaluate V = .error (.evaluation .divisionByZero) := by
  have bound : ∀ name ∈ p.quadruples.flatMap Quadruple.variableNames, ∀ u, T name = some u →
      ∃ l, V name = some l ∧ l.dataType = u ∧ l.WellFormed :=
    fun name hn => hV name (Program.mem_sortNames.2 hn)
  have typed : Bindings.Typed (p.quadruples.flatMap Quadruple.variableNames) T V := by
    intro name hn u hu
    obtain ⟨l, hl, hlt, -⟩ := bound name hn u hu
    exact ⟨l, hl, hlt⟩
  have formed : ∀ name ∈ p.quadruples.flatMap Quadruple.variableNames,
      ∀ l, V name = some l → l.WellFormed := by
    intro name hn l hl
    obtain ⟨u, hu⟩ := exists_of_run ht hn
    obtain ⟨l', hl', -, hw⟩ := bound name hn u hu
    obtain rfl : l' = l := Option.some.inj (hl'.symm.trans hl)
    exact hw
  have hrun := run_typed typed ht
  have hform := run_wellFormed (wellFormed_of_compile hp) formed
  rw [Program.evaluate]
  cases he : run .values V p.quadruples with
  | ok l =>
      rw [he] at hrun hform
      exact Or.inl ⟨l, rfl, hform, hrun⟩
  | error e =>
      rw [he] at hrun hform
      right
      rcases RunError.isDataFault_iff.1 hrun with ⟨u, v, rfl⟩ | ⟨v, rfl⟩ | rfl
      · cases hform
      · cases hform
      · rfl

/-- Without folding the product and the difference are computed, written and read again before
they divide. By two the quotient is a well-formed number. -/
theorem evaluate_compile_of_infer_hiddenZero :
    (∃ p, compile hiddenZero { enableConstantFolding := false } = .ok p ∧
      p.infer (fun _ => some .number) = .ok .number ∧
      ((∃ l, p.evaluate (fun _ => some (.number " 1_0.5E-2")) = .ok l ∧ l.WellFormed ∧
          l.dataType = .number) ∨
        p.evaluate (fun _ => some (.number " 1_0.5E-2")) =
          .error (.evaluation .divisionByZero))) ∧
    ∃ p l, compile hiddenTwo { enableConstantFolding := false } = .ok p ∧
      p.infer (fun _ => some .number) = .ok .number ∧
      p.evaluate (fun _ => some (.number " 1_0.5E-2")) = .ok l ∧ l = .number "0.0525" ∧
      l.WellFormed := by
  have hn : readNumber " 1_0.5E-2" = .ok ⟨105, 3⟩ := by decide +kernel
  have bound : ∀ (p : Program), ∀ name ∈ p.variableNames, ∀ u,
      (fun _ => some .number : Bindings DataType) name = some u →
      ∃ l, (fun _ => some (.number " 1_0.5E-2") : Bindings Literal) name = some l ∧
        l.dataType = u ∧ l.WellFormed :=
    fun _ _ _ _ hu => ⟨_, rfl, Option.some.inj hu, _, hn⟩
  constructor
  · have hp := compile_unfolded parse_hiddenZero rfl
    exact ⟨_, hp, rfl, evaluate_compile_of_infer hp rfl (bound _)⟩
  · obtain ⟨p, hp, hq⟩ : ∃ p, compile hiddenTwo { enableConstantFolding := false } = .ok p ∧
        p.quadruples = [⟨1, .literal (.number "2"), .literal (.number "3"), .times, .any⟩,
          ⟨2, .result 1, .literal (.number "4"), .minus, .any⟩,
          ⟨3, .var "x" .any, .result 2, .div, .any⟩] :=
      ⟨_, compile_unfolded parse_hiddenTwo rfl, rfl⟩
    have typed : p.infer (fun _ => some .number) = .ok .number := by
      rw [Program.infer, hq]
      rfl
    have value : p.evaluate (fun _ => some (.number " 1_0.5E-2")) = .ok (.number "0.0525") := by
      rw [Program.evaluate, hq]
      decide +kernel
    rcases evaluate_compile_of_infer hp typed (bound p) with ⟨l, hl, hw, -⟩ | hzero
    · obtain rfl := Except.ok.inj (hl.symm.trans value)
      exact ⟨p, _, hp, typed, value, rfl, hw⟩
    · cases hzero.symm.trans value

end FormulaCode
