import FormulaCode.Operator.Basic

/-! # Operator aliases in text

The aliases of all operators, longer ones first, so that `>=` is found before `>` and the alias
that is found at a place is the longest one there. -/

namespace FormulaCode.Operator

/-- The characters of an alias, with the operator it stands for. -/
abbrev Spelling := List Char × Operator

/-- The aliases of all operators, from the longest to the shortest, those of one length in
binding order. -/
def spellings : List Spelling :=
  [([' ', 'a', 'n', 'd', ' '], and), ([' ', 'A', 'N', 'D', ' '], and),
    ([' ', 'o', 'r', ' '], or), ([' ', 'O', 'R', ' '], or), (['>', '='], greaterEq),
    (['<', '='], lessEq), (['&'], and), (['|'], or), (['='], eq), (['>'], greater),
    (['<'], less), (['+'], add), (['-'], minus), (['*'], times), (['/'], div), (['%'], rem)]

/-- The longest alias a text starts with. -/
def aliasAt? (cs : List Char) : Option Spelling :=
  spellings.find? fun a => a.1.isPrefixOf cs

/-- The operator with this spelling. -/
def ofSpelling? (cs : List Char) : Option Operator :=
  (spellings.find? fun a => a.1 == cs).map (·.2)

/-- The operator with this alias, spelled exactly. -/
def ofAlias? (s : String) : Option Operator := ofSpelling? s.toList

/-- The table holds the aliases of the operators and nothing else. -/
theorem mem_spellings_iff (cs : List Char) (o : Operator) :
    (cs, o) ∈ spellings ↔ String.ofList cs ∈ o.aliases := by
  have complete : ∀ s ∈ o.aliases, (s.toList, o) ∈ spellings := by
    cases o <;> decide
  have sound : ∀ a ∈ spellings, String.ofList a.1 ∈ a.2.aliases := by decide
  exact ⟨fun h => sound _ h, fun h => by simpa using complete _ h⟩

/-- No two operators share an alias. -/
theorem ofAlias?_of_mem_aliases {o : Operator} {sign : String} (h : sign ∈ o.aliases) :
    ofAlias? sign = some o := by
  have hall : ∀ o ∈ all, ∀ sign ∈ o.aliases, ofAlias? sign = some o := by decide
  exact hall o (by cases o <;> decide) sign h

theorem mem_aliases_of_ofAlias? {o : Operator} {sign : String} (h : ofAlias? sign = some o) :
    sign ∈ o.aliases := by
  obtain ⟨a, ha, rfl⟩ := Option.map_eq_some_iff.1 h
  have hspelling := List.find?_some ha
  have hmem : (a.1, a.2) ∈ spellings := List.mem_of_find?_eq_some ha
  rwa [mem_spellings_iff, eq_of_beq hspelling, String.ofList_toList] at hmem

theorem ofAlias?_eq_some_iff {o : Operator} {sign : String} :
    ofAlias? sign = some o ↔ sign ∈ o.aliases :=
  ⟨mem_aliases_of_ofAlias?, ofAlias?_of_mem_aliases⟩

/-- No alias stands behind a shorter one. -/
theorem pairwise_length_spellings :
    spellings.Pairwise fun a b => b.1.length ≤ a.1.length := by decide

/-- Only one operator has a spelling. -/
theorem eq_of_mem_spellings {a b : Spelling} (ha : a ∈ spellings) (hb : b ∈ spellings)
    (h : a.1 = b.1) : a = b := by
  have hall : ∀ a ∈ spellings, ∀ b ∈ spellings, a.1 = b.1 → a = b := by decide
  exact hall a ha b hb h

theorem mem_spellings_of_aliasAt? {cs : List Char} {a : Spelling} (h : aliasAt? cs = some a) :
    a ∈ spellings := List.mem_of_find?_eq_some h

/-- The text behind an alias it starts with. -/
theorem append_drop_of_aliasAt? {cs : List Char} {a : Spelling} (h : aliasAt? cs = some a) :
    a.1 ++ cs.drop a.1.length = cs := by
  have hp : a.1.isPrefixOf cs = true := by
    have := List.find?_some h
    exact this
  obtain ⟨rest, rfl⟩ := List.isPrefixOf_iff_prefix.1 hp
  simp

/-- No other alias that the text starts with is longer than the one that is found. -/
theorem length_le_of_aliasAt? {cs : List Char} {a b : Spelling} (h : aliasAt? cs = some a)
    (hb : b ∈ spellings) (hp : b.1 <+: cs) : b.1.length ≤ a.1.length := by
  obtain ⟨-, before, behind, hs, hbefore⟩ := List.find?_eq_some_iff_append.1 h
  have hpair := pairwise_length_spellings
  rw [hs] at hb hpair
  rcases List.mem_append.1 hb with hb | hb
  · have hn := hbefore b hb
    rw [List.isPrefixOf_iff_prefix.2 hp] at hn
    cases hn
  · rcases List.mem_cons.1 hb with rfl | hb
    · exact Nat.le_refl _
    · exact (List.pairwise_cons.1 (List.pairwise_append.1 hpair).2.1).1 b hb

/-- The alias that is found is the longest one that the text starts with. -/
theorem aliasAt?_eq_some_iff {cs : List Char} {a : Spelling} :
    aliasAt? cs = some a ↔ a ∈ spellings ∧ a.1 <+: cs ∧
      ∀ b ∈ spellings, b.1 <+: cs → b.1.length ≤ a.1.length := by
  constructor
  · intro h
    exact ⟨mem_spellings_of_aliasAt? h, ⟨_, append_drop_of_aliasAt? h⟩,
      fun b hb hp => length_le_of_aliasAt? h hb hp⟩
  · rintro ⟨ha, hp, hmax⟩
    obtain ⟨b, hb⟩ : ∃ b, aliasAt? cs = some b := by
      rw [← Option.isSome_iff_exists, aliasAt?, List.find?_isSome]
      exact ⟨a, ha, List.isPrefixOf_iff_prefix.2 hp⟩
    have hbs := mem_spellings_of_aliasAt? hb
    have hbp : b.1 <+: cs := ⟨_, append_drop_of_aliasAt? hb⟩
    -- Two beginnings of one text that have one length are equal.
    have hlen : a.1.length = b.1.length :=
      Nat.le_antisymm (length_le_of_aliasAt? hb ha hp) (hmax b hbs hbp)
    have he : a.1 = b.1 :=
      (List.prefix_of_prefix_length_le hp hbp (Nat.le_of_eq hlen)).eq_of_length hlen
    rw [hb, eq_of_mem_spellings ha hbs he]

/-- No alias is empty. -/
theorem ne_nil_of_mem_spellings {a : Spelling} (h : a ∈ spellings) : a.1 ≠ [] := by
  revert a
  decide

end FormulaCode.Operator
