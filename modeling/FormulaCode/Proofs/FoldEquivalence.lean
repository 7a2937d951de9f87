import FormulaCode.Program.Compilation
import FormulaCode.Proofs.FoldPass
import FormulaCode.Proofs.Grouping
import Mathlib.Control.Monad.Basic

/-! # Folding preserves evaluation

Folding is a sequence of passes, each of which keeps the result of every run. Where a pass
fails, some constant quadruple has no value, so no run of the list has a result. A formula
that parses always has code, and the code is threaded, so both facts apply to it. -/

namespace FormulaCode

variable {α : Type}

namespace Quadruple

/-- Folding, pass by pass: nothing to compute, everything computed, or one pass before others. -/
inductive Folds : List Quadruple → Folded → Prop
  | nothing {qs known} (hk : computeConstants .empty qs = .ok known)
      (he : known.isEmpty = true) : Folds qs ⟨qs, 0, 0⟩
  | everything {qs known} (hk : computeConstants .empty qs = .ok known)
      (he : known.isEmpty = false) (hw : withoutConstants qs known = []) :
      Folds qs ⟨qs.map (noteType known), 0, 0⟩
  | pass {qs known rest} (hk : computeConstants .empty qs = .ok known)
      (he : known.isEmpty = false) (hw : withoutConstants qs known ≠ [])
      (h : Folds (withoutConstants qs known) rest) :
      Folds qs ⟨rest.quadruples, rest.passes + 1, rest.dropped + known.size⟩

variable {qs : List Quadruple} {known : Results Literal} {o : Folded}

theorem fold_of_error {e : EvalError} (hk : computeConstants .empty qs = .error e) :
    fold qs = .error e := by
  rw [fold]
  split
  · next e' he =>
      obtain rfl := Except.error.inj (hk.symm.trans he)
      rfl
  · next known he => cases hk.symm.trans he

theorem fold_of_ok (hk : computeConstants .empty qs = .ok known) :
    fold qs =
      if known.isEmpty then .ok ⟨qs, 0, 0⟩
      else if withoutConstants qs known = [] then .ok ⟨qs.map (noteType known), 0, 0⟩
      else fold (withoutConstants qs known) >>= fun rest =>
        .ok ⟨rest.quadruples, rest.passes + 1, rest.dropped + known.size⟩ := by
  rw [fold]
  split
  · next e he => cases hk.symm.trans he
  · next known' he =>
      obtain rfl := Except.ok.inj (hk.symm.trans he)
      simp only [dite_eq_ite, List.isEmpty_iff]
      rfl

theorem Folds.of_fold (h : fold qs = .ok o) : Folds qs o := by
  induction qs using fold.induct generalizing o with
  | case1 qs e hk =>
      rw [fold_of_error hk] at h
      cases h
  | case2 qs known hk he =>
      rw [fold_of_ok hk, if_pos he] at h
      cases h
      exact .nothing hk he
  | case3 qs known hk he hw =>
      rw [List.isEmpty_iff] at hw
      rw [fold_of_ok hk, if_neg he, if_pos hw] at h
      cases h
      exact .everything hk (Bool.eq_false_iff.2 he) hw
  | case4 qs known hk he hw ih =>
      rw [List.isEmpty_iff] at hw
      rw [fold_of_ok hk, if_neg he, if_neg hw] at h
      obtain ⟨rest, hrest, h⟩ := bind_eq_ok_iff.1 h
      cases h
      exact .pass hk (Bool.eq_false_iff.2 he) hw (ih hrest)

theorem Folds.fold_eq (h : Folds qs o) : fold qs = .ok o := by
  induction h with
  | nothing hk he => rw [fold_of_ok hk, if_pos he]
  | everything hk he hw => rw [fold_of_ok hk, if_neg (Bool.eq_false_iff.1 he), if_pos hw]
  | pass hk he hw _ ih =>
      rw [fold_of_ok hk, if_neg (Bool.eq_false_iff.1 he), if_neg hw, ih, ok_bind]

/-- Folding drops what it does not leave. -/
theorem Folds.dropped_add_length (h : Folds qs o) (hids : (qs.map Quadruple.id).Nodup) :
    o.dropped + o.quadruples.length = qs.length := by
  induction h with
  | nothing => exact Nat.zero_add _
  | everything => rw [List.length_map, Nat.zero_add]
  | pass hk he hw h ih =>
      have hrest := ih (hids.sublist ids_withoutConstants_sublist)
      have := length_withoutConstants_add_size hids hk
      simp only
      omega

/-- The results of a pass are values of the quadruples they belong to. -/
theorem certified_of_computeConstants (hids : (qs.map Quadruple.id).Nodup)
    (h : computeConstants .empty qs = .ok known) : Certified .values known qs := by
  intro q hq v hv
  rcases get?_of_computeConstants hids h hq with ⟨-, hn⟩ | ⟨l, r, w, hlit, happ, hw⟩
  · simp [hv] at hn
  · obtain rfl : w = v := Option.some.inj (hw.symm.trans hv)
    exact ⟨l, r, hlit, happ⟩

/-- A run with a result computes every constant. -/
theorem exists_computeConstants {env : Bindings Literal} {done d : Results Literal}
    (h : runFrom .values env done qs = .ok d) (known : Results Literal) :
    ∃ results, computeConstants known qs = .ok results := by
  induction qs generalizing done known with
  | nil => exact ⟨known, rfl⟩
  | cons q qs ih =>
      obtain ⟨a, ha, h⟩ := bind_eq_ok_iff.1 h
      simp only [computeConstants]
      split
      · exact ih h known
      · next l r hlit =>
          rw [value_of_literals? hlit, mapError_eq_ok_iff] at ha
          have happ : q.operator.apply l r = .ok a := ha
          rw [happ, ok_bind]
          exact ih h _

/-- Noting a type changes nothing that does not depend on it. -/
theorem apply_noteType {β : Type} {f : Quadruple → β}
    (hf : ∀ q t, f { q with resultType := t } = f q) (q : Quadruple) :
    f (noteType known q) = f q := by
  unfold noteType
  split
  · exact hf q _
  · rfl

@[simp] theorem noteType_id (q : Quadruple) : (noteType known q).id = q.id :=
  apply_noteType (fun _ _ => rfl) q

@[simp] theorem value_noteType (I : Interpretation α) (env : Bindings α) (done : Results α)
    (q : Quadruple) : (noteType known q).value I env done = q.value I env done :=
  apply_noteType (f := fun q => q.value I env done) (fun _ _ => rfl) q

/-- Noted types play no role in a run. -/
theorem runFrom_noteType (I : Interpretation α) (env : Bindings α) (done : Results α) :
    runFrom I env done (qs.map (noteType known)) = runFrom I env done qs :=
  runFrom_map I env noteType_id (fun q done => value_noteType I env done q) done qs

end Quadruple

open Quadruple

section Threads

variable {qs : List Quadruple} {known : Results Literal} {o : Folded} {env : Bindings Literal}

theorem Threaded.certified (ht : Threaded qs) (hk : computeConstants .empty qs = .ok known) :
    Certified .values known qs :=
  certified_of_computeConstants (ht.ids.imp Nat.ne_of_lt) hk

/-- Folding a threaded list changes no outcome of an evaluation, errors included. -/
theorem Quadruple.Folds.run_eq (h : Folds qs o) (ht : Threaded qs) :
    run .values env o.quadruples = run .values env qs := by
  induction h with
  | nothing => rfl
  | everything => simp only [run, runFrom_noteType]
  | pass hk _ hw _ ih =>
      have hc := ht.certified hk
      rw [ih (ht.withoutConstants hc hw), ht.run_withoutConstants hc hw]

/-- A threaded list that has a value under some bindings can be folded. -/
theorem Threaded.exists_folds (ht : Threaded qs) {l : Literal}
    (h : run .values env qs = .ok l) : ∃ o, Folds qs o := by
  induction qs using fold.induct with
  | case1 qs e hk =>
      obtain ⟨d, hd, -⟩ := bind_eq_ok_iff.1 h
      obtain ⟨known, hk'⟩ := exists_computeConstants hd .empty
      cases hk.symm.trans hk'
  | case2 qs known hk he => exact ⟨_, .nothing hk he⟩
  | case3 qs known hk he hw =>
      exact ⟨_, .everything hk (Bool.eq_false_iff.2 he) (List.isEmpty_iff.1 hw)⟩
  | case4 qs known hk he hw ih =>
      rw [List.isEmpty_iff] at hw
      have hc := ht.certified hk
      obtain ⟨rest, hrest⟩ := ih (ht.withoutConstants hc hw)
        ((ht.run_withoutConstants hc hw env).trans h)
      exact ⟨_, .pass hk (Bool.eq_false_iff.2 he) hw hrest⟩

end Threads

/-- A side without an empty part has code. -/
theorem Side.exists_generates {s : Side} (h : s.isFormula = true) (count : Nat) :
    ∃ x, Generates count s x := by
  induction s generalizing count with
  | literal | var => exact ⟨_, by constructor⟩
  | empty => cases h
  | nested l o r ihl ihr =>
      simp only [isFormula, Bool.and_eq_true] at h
      obtain ⟨⟨hl, -⟩, hr⟩ := h
      obtain ⟨x, hx⟩ := ihl hl count
      obtain ⟨y, hy⟩ := ihr hr (count + x.quadruples.length)
      exact ⟨_, .both hx hy⟩

namespace Tree

/-- The tree of a formula has no empty part, unless it is the tree of one operand. -/
theorem exists_ofSide_of_parse {source : String} {t : Tree} (h : parse source = .ok t) :
    ∃ s : Side, s.isFormula = true ∧ t = ofSide s := by
  obtain ⟨ts, s, -, -, hs, rfl⟩ := parse_eq_ok_iff_derives.1 h
  exact ⟨s, hs.isFormula, rfl⟩

/-- A formula has code. -/
theorem exists_generate_of_parse {source : String} {t : Tree} (h : parse source = .ok t) :
    ∃ qs, t.generate = .ok qs := by
  obtain ⟨s, hs, rfl⟩ := exists_ofSide_of_parse h
  obtain ⟨x, hx⟩ : ∃ x, Generates 0
      (.nested (ofSide s).left (ofSide s).operator (ofSide s).right) x := by
    cases s with
    | literal v => exact ⟨_, .left .literal⟩
    | var name t => exact ⟨_, .left .var⟩
    | nested l o r => exact Side.exists_generates hs 0
    | empty => cases hs
  exact ⟨x.quadruples, generate_eq_ok_iff.2 ⟨x.operand, hx⟩⟩

/-- The code of a tree is threaded. -/
theorem threaded_of_generate {t : Tree} {qs : List Quadruple} (h : t.generate = .ok qs) :
    Threaded qs := by
  obtain ⟨operand, h⟩ := generate_eq_ok_iff.1 h
  exact h.threaded rfl

end Tree

section Compile

variable {source : String} {t : Tree} {qs : List Quadruple}

/-- Once a formula has code, compiling is folding the code. -/
theorem compile_of_generate (ht : Tree.parse source = .ok t) (hq : t.generate = .ok qs)
    (options : CompileOptions) :
    compile source options = (options.fold qs).mapError .evaluation >>= fun o =>
      .ok ⟨o.quadruples, source, o.passes, o.dropped, compilerVersion⟩ := by
  rw [compile, ht, mapError_ok, ok_bind, hq, mapError_ok, ok_bind]
  rfl

/-- A compiled formula has a tree, and the tree has code. -/
theorem exists_generate_of_compile {options : CompileOptions} {p : Program}
    (h : compile source options = .ok p) :
    ∃ t qs, Tree.parse source = .ok t ∧ t.generate = .ok qs := by
  obtain ⟨t, ht, h⟩ := bind_eq_ok_iff.1 h
  obtain ⟨qs, hq, -⟩ := bind_eq_ok_iff.1 h
  exact ⟨t, qs, mapError_eq_ok_iff.1 ht, mapError_eq_ok_iff.1 hq⟩

theorem compile_unfolded (ht : Tree.parse source = .ok t) (hq : t.generate = .ok qs) :
    compile source { enableConstantFolding := false } =
      .ok ⟨qs, source, 0, 0, compilerVersion⟩ :=
  compile_of_generate ht hq _

theorem compile_folded_eq_ok_iff (ht : Tree.parse source = .ok t) (hq : t.generate = .ok qs)
    {p : Program} :
    compile source { enableConstantFolding := true } = .ok p ↔
      ∃ o, Folds qs o ∧ p = ⟨o.quadruples, source, o.passes, o.dropped, compilerVersion⟩ := by
  rw [compile_of_generate ht hq, bind_eq_ok_iff]
  refine exists_congr fun o => and_congr ?_ ?_
  · rw [mapError_eq_ok_iff]
    exact ⟨Folds.of_fold, Folds.fold_eq⟩
  · rw [Except.ok.injEq, eq_comm]

/-- A program is the code of its tree, as it is or folded. -/
theorem quadruples_of_compile (ht : Tree.parse source = .ok t) (hq : t.generate = .ok qs)
    {options : CompileOptions} {p : Program} (h : compile source options = .ok p) :
    p.quadruples = qs ∨ ∃ o, Folds qs o ∧ p.quadruples = o.quadruples := by
  rcases options with ⟨_ | _⟩
  · rw [compile_unfolded ht hq] at h
    obtain rfl := Except.ok.inj h
    exact .inl rfl
  · obtain ⟨o, ho, rfl⟩ := (compile_folded_eq_ok_iff ht hq).1 h
    exact .inr ⟨o, ho, rfl⟩

/-- Folding preserves evaluation. A formula has a value without folding exactly when it can be
folded and has the same value with folding; and once it can be folded, both programs end in
the same way under all bindings, errors included. -/
theorem evaluate_compile_fold (h : Tree.parse source = .ok t) :
    ∃ p, compile source { enableConstantFolding := false } = .ok p ∧ ∀ V : Bindings Literal,
      (∀ l, p.evaluate V = .ok l ↔
        ∃ p', compile source { enableConstantFolding := true } = .ok p' ∧ p'.evaluate V = .ok l) ∧
      ∀ p', compile source { enableConstantFolding := true } = .ok p' →
        p'.evaluate V = p.evaluate V := by
  obtain ⟨qs, hq⟩ := Tree.exists_generate_of_parse h
  have ht := Tree.threaded_of_generate hq
  refine ⟨_, compile_unfolded h hq, fun V => ?_⟩
  have same : ∀ p', compile source { enableConstantFolding := true } = .ok p' →
      p'.evaluate V = run .values V qs := by
    intro p' hp
    obtain ⟨o, ho, rfl⟩ := (compile_folded_eq_ok_iff h hq).1 hp
    exact ho.run_eq ht
  refine ⟨fun l => ⟨fun hl => ?_, ?_⟩, same⟩
  · obtain ⟨o, ho⟩ := ht.exists_folds hl
    have hp := (compile_folded_eq_ok_iff h hq).2 ⟨o, ho, rfl⟩
    exact ⟨_, hp, (same _ hp).trans hl⟩
  · rintro ⟨p', hp, hl⟩
    exact (same p' hp).symm.trans hl

/-- The tokens of a quotient by a product of numbers less a third one. -/
def quotientTokens (number : String) : List Token :=
  [.var "x", .operator "/", .group [.literal (.number "2"), .operator "*", .literal (.number "3"),
    .operator "-", .literal (.number number)]]

theorem parse_quotient {source number : String}
    (scanned : Token.scan source = .ok (quotientTokens number)) :
    Tree.parse source = .ok ⟨.var "x" .any, .div,
      .nested (.nested (.literal (.number "2")) .times (.literal (.number "3"))) .minus
        (.literal (.number number))⟩ := by
  have product : Derives (.times :: Operator.times.tighter)
      ([.literal (.number "2")] ++ .operator "*" :: [.literal (.number "3")]) _ :=
    .operate rfl .literal .literal
  have difference : Derives (.minus :: Operator.minus.tighter)
      ([.literal (.number "2"), .operator "*", .literal (.number "3")] ++
        .operator "-" :: [.literal (.number number)]) _ :=
    .operate rfl product .literal
  have quotient : Derives (.div :: Operator.div.tighter)
      ([.var "x"] ++ .operator "/" :: [.group [.literal (.number "2"), .operator "*",
        .literal (.number "3"), .operator "-", .literal (.number number)]]) _ :=
    .operate rfl .var difference.enclose
  rw [Tree.parse, scanned]
  exact (quotient.ofTokens_eq (by decide)).2

/-- Two passes leave nothing of the divisor but its value. -/
theorem compile_quotient {source number divisor : String}
    (scanned : Token.scan source = .ok (quotientTokens number))
    (folds : fold
      [⟨1, .literal (.number "2"), .literal (.number "3"), .times, .any⟩,
        ⟨2, .result 1, .literal (.number number), .minus, .any⟩,
        ⟨3, .var "x" .any, .result 2, .div, .any⟩] =
      .ok ⟨[⟨3, .var "x" .any, .literal (.number divisor), .div, .any⟩], 2, 2⟩) :
    ∃ p, compile source { enableConstantFolding := true } = .ok p ∧
      p.quadruples = [⟨3, .var "x" .any, .literal (.number divisor), .div, .any⟩] :=
  ⟨_, (compile_folded_eq_ok_iff (parse_quotient scanned) rfl).2 ⟨_, .of_fold folds, rfl⟩, rfl⟩

/-- A quotient whose divisor turns out to be zero. -/
def hiddenZero : String := "x/(2*3-6)"

theorem scan_hiddenZero : Token.scan hiddenZero = .ok (quotientTokens "6") := by
  decide +kernel

theorem parse_hiddenZero : Tree.parse hiddenZero = .ok ⟨.var "x" .any, .div,
    .nested (.nested (.literal (.number "2")) .times (.literal (.number "3"))) .minus
      (.literal (.number "6"))⟩ :=
  parse_quotient scan_hiddenZero

theorem compile_hiddenZero :
    ∃ p, compile hiddenZero { enableConstantFolding := true } = .ok p ∧
      p.quadruples = [⟨3, .var "x" .any, .literal (.number "0"), .div, .any⟩] :=
  compile_quotient scan_hiddenZero (by decide +kernel)

/-- A quotient whose divisor turns out to be two. -/
def hiddenTwo : String := "x/(2*3-4)"

theorem scan_hiddenTwo : Token.scan hiddenTwo = .ok (quotientTokens "4") := by
  decide +kernel

theorem parse_hiddenTwo : Tree.parse hiddenTwo = .ok ⟨.var "x" .any, .div,
    .nested (.nested (.literal (.number "2")) .times (.literal (.number "3"))) .minus
      (.literal (.number "4"))⟩ :=
  parse_quotient scan_hiddenTwo

theorem compile_hiddenTwo :
    ∃ p, compile hiddenTwo { enableConstantFolding := true } = .ok p ∧
      p.quadruples = [⟨3, .var "x" .any, .literal (.number "2"), .div, .any⟩] :=
  compile_quotient scan_hiddenTwo (by decide +kernel)

/-- Folding leaves the quotient alone. Both programs end in the same way: by zero in an unknown
variable or in the division, by two in a value once the variable has one. -/
theorem evaluate_compile_fold_hiddenZero :
    (∃ t p p', Tree.parse hiddenZero = .ok t ∧
      compile hiddenZero { enableConstantFolding := false } = .ok p ∧
      compile hiddenZero { enableConstantFolding := true } = .ok p' ∧
      p'.quadruples = [⟨3, .var "x" .any, .literal (.number "0"), .div, .any⟩] ∧
      ∀ V, p'.evaluate V = p.evaluate V) ∧
    ∃ p p', compile hiddenTwo { enableConstantFolding := false } = .ok p ∧
      compile hiddenTwo { enableConstantFolding := true } = .ok p' ∧
      p'.evaluate (fun _ => some (.number "7")) = .ok (.number "3.5") ∧
      p.evaluate (fun _ => some (.number "7")) = .ok (.number "3.5") := by
  constructor
  · obtain ⟨p', folded, hq⟩ := compile_hiddenZero
    obtain ⟨p, unfolded, h⟩ := evaluate_compile_fold parse_hiddenZero
    exact ⟨_, p, p', parse_hiddenZero, unfolded, folded, hq, fun V => (h V).2 p' folded⟩
  · obtain ⟨p', folded, hq⟩ := compile_hiddenTwo
    obtain ⟨p, unfolded, h⟩ := evaluate_compile_fold parse_hiddenTwo
    have value : p'.evaluate (fun _ => some (.number "7")) = .ok (.number "3.5") := by
      rw [Program.evaluate, hq]
      decide +kernel
    exact ⟨p, p', unfolded, folded, value, ((h _).1 _).2 ⟨p', folded, value⟩⟩

end Compile

end FormulaCode
