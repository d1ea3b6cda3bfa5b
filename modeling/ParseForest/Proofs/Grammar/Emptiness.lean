import ParseForest.Proofs.Grammar.Built
import Mathlib.Order.Bounds.Basic

/-!
# The empty string

A rule derives the empty string when a finite derivation tree of it has no terminal at a leaf
(`DerivesEmpty`). The sweeps over a rule table mark these rules and no others, and where the
nullable tail of an alternative begins is told by the symbols that derive the empty string. Neither
depends on the order of rules and alternatives, since derivation trees do not (`Renumbers`).
-/

namespace ParseForest

/-! ## Derivation trees -/

/-- A tree with a terminal at a leaf and a rule elsewhere. -/
inductive DerivationTree
  | terminal (id : TerminalId)
  | rule (id : RuleId) (children : List DerivationTree)

namespace DerivationTree

/-- The symbol at the root. -/
def root : DerivationTree → Symbol
  | terminal id => .terminal id
  | rule id _ => .rule id

/-- The terminals at the leaves, from left to right. -/
def leaves : DerivationTree → List TerminalId
  | terminal id => [id]
  | rule _ children => children.flatMap leaves

/-- Below every rule of the tree are the symbols of one of its alternatives. -/
inductive Follows (rules : Array Rule) : DerivationTree → Prop
  | terminal (id : TerminalId) : Follows rules (terminal id)
  | rule (id : RuleId) (children : List DerivationTree) (a : Alternative)
      (ha : a ∈ (rules.getD id default).alternatives) (hroots : children.map root = a.symbols)
      (h : ∀ t ∈ children, Follows rules t) : Follows rules (rule id children)

theorem leaves_rule_eq_nil_iff {id : RuleId} {children : List DerivationTree} :
    (rule id children).leaves = [] ↔ ∀ t ∈ children, t.leaves = [] := by
  rw [leaves]
  exact List.flatMap_eq_nil_iff

end DerivationTree

/-- Some derivation tree of the symbol has no terminal at a leaf. -/
def DerivesEmpty (rules : Array Rule) (s : Symbol) : Prop :=
  ∃ t : DerivationTree, t.Follows rules ∧ t.root = s ∧ t.leaves = []

section Rules

variable {rules : Array Rule}

/-- Trees for each of the symbols stand side by side. -/
theorem exists_forest {symbols : List Symbol} (h : ∀ s ∈ symbols, DerivesEmpty rules s) :
    ∃ children : List DerivationTree, children.map DerivationTree.root = symbols ∧
      ∀ t ∈ children, t.Follows rules ∧ t.leaves = [] := by
  induction symbols with
  | nil => exact ⟨[], rfl, by simp⟩
  | cons s symbols ih =>
    obtain ⟨t, ht, hroot, hleaves⟩ := h s (by simp)
    obtain ⟨children, hroots, hall⟩ := ih fun s hs => h s (by simp [hs])
    refine ⟨t :: children, by rw [List.map_cons, hroot, hroots], ?_⟩
    exact List.forall_mem_cons.2 ⟨⟨ht, hleaves⟩, hall⟩

/-- What holds of a rule whenever it holds of all symbols of one of its alternatives holds of every
symbol that derives the empty string. -/
theorem DerivesEmpty.induction {P : Symbol → Prop}
    (step : ∀ i, ∀ a ∈ (rules.getD i default).alternatives, (∀ s ∈ a.symbols, P s) → P (.rule i))
    {s : Symbol} (h : DerivesEmpty rules s) : P s := by
  obtain ⟨t, ht, rfl, hleaves⟩ := h
  induction ht with
  | terminal id => simp [DerivationTree.leaves] at hleaves
  | rule id children a ha hroots _ ih =>
    refine step id a ha fun s hs => ?_
    rw [← hroots] at hs
    obtain ⟨t, hmem, rfl⟩ := List.mem_map.1 hs
    exact ih t hmem (DerivationTree.leaves_rule_eq_nil_iff.1 hleaves t hmem)

theorem derivesEmpty_rule {i : RuleId} {a : Alternative}
    (ha : a ∈ (rules.getD i default).alternatives) (h : ∀ s ∈ a.symbols, DerivesEmpty rules s) :
    DerivesEmpty rules (.rule i) := by
  obtain ⟨children, hroots, hall⟩ := exists_forest h
  exact ⟨.rule i children, .rule i children a ha hroots fun t ht => (hall t ht).1, rfl,
    DerivationTree.leaves_rule_eq_nil_iff.2 fun t ht => (hall t ht).2⟩

/-! ## The marks -/

/-- The symbols of marked rules are those that derive the empty string. -/
theorem symbolNullable_nullableRules_iff {s : Symbol} :
    symbolNullable (nullableRules rules) s = true ↔ DerivesEmpty rules s := by
  constructor
  · intro h
    cases s with
    | terminal id => simp [symbolNullable] at h
    | rule i =>
      refine nullableRules_induction (P := fun i => DerivesEmpty rules (.rule i)) ?_ h
      intro i a ha hs
      refine derivesEmpty_rule ha fun s hmem => ?_
      obtain ⟨id, rfl, hid⟩ := hs s hmem
      exact hid
  · intro h
    exact h.induction fun i a ha hs => nullableRules_closed ha hs

theorem nullableRules_iff {i : RuleId} :
    (nullableRules rules).getD i false = true ↔ DerivesEmpty rules (.rule i) :=
  symbolNullable_nullableRules_iff (s := .rule i)

/-- The start of the nullable tail is the least place from which every symbol derives the empty
string. -/
theorem isLeast_nullableSuffixStart (symbols : List Symbol) :
    IsLeast {k | ∀ s ∈ symbols.drop k, DerivesEmpty rules s}
      (nullableSuffixStart (nullableRules rules) symbols) := by
  have hle := nullableSuffixStart_le_iff (nullableRules rules) symbols
  simp only [symbolNullable_nullableRules_iff] at hle
  exact ⟨(hle _).1 le_rfl, fun k hk => (hle k).2 hk⟩

end Rules

/-! ## The order of declarations -/

/-- The symbol with the rule under its new number. -/
def Symbol.renumber (ρ : RuleId → RuleId) : Symbol → Symbol
  | .rule id => .rule (ρ id)
  | .terminal id => .terminal id

@[simp] theorem Symbol.renumber_id : Symbol.renumber id = id := by
  funext s
  cases s <;> rfl

/-- The second table has the rules of the first under other numbers, with their alternatives in any
order. -/
def Renumbers (ρ : RuleId → RuleId) (rules rules' : Array Rule) : Prop :=
  ∀ i symbols', (∃ a' ∈ (rules'.getD (ρ i) default).alternatives, a'.symbols = symbols') ↔
    ∃ a ∈ (rules.getD i default).alternatives, a.symbols.map (Symbol.renumber ρ) = symbols'

theorem Renumbers.derivesEmpty_iff {ρ : RuleId → RuleId} {rules rules' : Array Rule}
    (h : Renumbers ρ rules rules') {s : Symbol} :
    DerivesEmpty rules' (s.renumber ρ) ↔ DerivesEmpty rules s := by
  constructor
  · intro hs
    -- the rule that a symbol was before is not determined by its number, hence all at once
    refine hs.induction (P := fun s' => ∀ s, s.renumber ρ = s' → DerivesEmpty rules s) ?_ s rfl
    intro i' a' ha' ih s hs
    cases s with
    | terminal id => cases hs
    | rule i =>
      obtain rfl : ρ i = i' := by simpa [Symbol.renumber] using hs
      obtain ⟨a, ha, hsymbols⟩ := (h i a'.symbols).1 ⟨a', ha', rfl⟩
      refine derivesEmpty_rule ha fun s hs => ih _ ?_ s rfl
      rw [← hsymbols]
      exact List.mem_map_of_mem hs
  · intro hs
    refine hs.induction (P := fun s => DerivesEmpty rules' (s.renumber ρ)) fun i a ha ih => ?_
    obtain ⟨a', ha', hsymbols⟩ := (h i _).2 ⟨a, ha, rfl⟩
    refine derivesEmpty_rule ha' fun s' hs' => ?_
    rw [hsymbols] at hs'
    obtain ⟨s, hmem, rfl⟩ := List.mem_map.1 hs'
    exact ih s hmem

namespace GrammarBuilder

/-! ## Finished grammars -/

theorem renumbers_finishRules (terminals : Array Terminal) (rules : Array Rule) :
    Renumbers id rules (finishRules terminals rules) := by
  intro i symbols
  by_cases hi : i < rules.size
  · simp [finishRules, Array.getD_eq_getD_getElem?, hi, finishAlternative]
  · simp [finishRules, Array.getD_eq_getD_getElem?, hi]

theorem derivesEmpty_finishRules_iff {terminals : Array Terminal} {rules : Array Rule} {s : Symbol} :
    DerivesEmpty (finishRules terminals rules) s ↔ DerivesEmpty rules s := by
  simpa using (renumbers_finishRules terminals rules).derivesEmpty_iff (s := s)

theorem rules_of_build {b : GrammarBuilder} {g : Grammar} (hb : b.build = .ok g) :
    ∃ terminals rules, g.rules = finishRules terminals rules := by
  obtain ⟨first, -, rfl, -⟩ := exists_of_build hb
  exact ⟨_, _, rfl⟩

end GrammarBuilder

/-- Nullability is exact. Over every rule table the sweeps end with one that changes nothing, sweeping
on makes no difference, and the marked rules are those that derive the empty string. In every grammar
that is built the flag of a rule says the same, and the nullable tail of an alternative begins at the
least place from which every symbol derives the empty string. The numbers of rules and the order of
alternatives do not matter. -/
theorem nullability_exact :
    (∀ rules : Array Rule,
      sweep (hasNullableAlternative rules) (nullableRules rules) = nullableRules rules ∧
      (∀ fuel, rules.size < fuel → sweepAll (hasNullableAlternative rules) fuel
        (Array.replicate rules.size false) = nullableRules rules) ∧
      (nullableRules rules).size = rules.size ∧
      ∀ i, (nullableRules rules).getD i false = true ↔ DerivesEmpty rules (.rule i)) ∧
    (∀ (b : GrammarBuilder) (g : Grammar), b.build = .ok g → ∀ rule,
      (g.isNullable rule = true ↔ DerivesEmpty g.rules (.rule rule)) ∧
      ∀ a ∈ (g.rule rule).alternatives,
        IsLeast {k | ∀ s ∈ a.symbols.drop k, DerivesEmpty g.rules s} a.nullableFrom) ∧
    ∀ (ρ : RuleId → RuleId) (rules rules' : Array Rule), Renumbers ρ rules rules' →
      (∀ i, (nullableRules rules').getD (ρ i) false = (nullableRules rules).getD i false) ∧
      ∀ symbols, nullableSuffixStart (nullableRules rules') (symbols.map (Symbol.renumber ρ)) =
        nullableSuffixStart (nullableRules rules) symbols := by
  refine ⟨fun rules => ⟨sweep_leastMarks _ _, fun fuel hf => sweepAll_eq_leastMarks hf _,
    size_nullableRules rules, fun i => nullableRules_iff⟩, ?_, ?_⟩
  · intro b g hb rule
    obtain ⟨terminals, rules, hrules⟩ := GrammarBuilder.rules_of_build hb
    constructor
    · rw [Grammar.isNullable_of_finished hrules, nullableRules_iff, hrules,
        GrammarBuilder.derivesEmpty_finishRules_iff]
    · intro a ha
      obtain ⟨a₀, -, rfl⟩ := (Grammar.mem_alternatives_of_finished hrules).1 ha
      simpa only [hrules, GrammarBuilder.derivesEmpty_finishRules_iff] using!
        isLeast_nullableSuffixStart a₀.symbols
  · intro ρ rules rules' h
    constructor
    · intro i
      rw [Bool.eq_iff_iff, nullableRules_iff, nullableRules_iff]
      exact h.derivesEmpty_iff (s := .rule i)
    · intro symbols
      have hset : {k | ∀ s ∈ (symbols.map (Symbol.renumber ρ)).drop k, DerivesEmpty rules' s} =
          {k | ∀ s ∈ symbols.drop k, DerivesEmpty rules s} := by
        ext k
        simp only [Set.mem_ofPred_eq, ← List.map_drop, List.forall_mem_map, h.derivesEmpty_iff]
      have hleast : IsLeast {k | ∀ s ∈ symbols.drop k, DerivesEmpty rules s}
          (nullableSuffixStart (nullableRules rules') (symbols.map (Symbol.renumber ρ))) :=
        hset ▸ isLeast_nullableSuffixStart _
      exact hleast.unique (isLeast_nullableSuffixStart symbols)

/-- A rule that derives the empty string through another one, before and after it in the table, and
the grammar of one or more `a`, which has no nullable tails. -/
theorem nullability_exact_chain :
    let empty : Rule := ⟨"B", .normal, #[.ofSymbols []], false⟩
    let chain (id : RuleId) : Rule := ⟨"A", .normal, #[.ofSymbols [.rule id]], false⟩
    let swap (id : RuleId) : RuleId := if id = 0 then 1 else if id = 1 then 0 else id
    Renumbers swap #[chain 1, empty] #[empty, chain 0] ∧
      (nullableRules #[empty, chain 0]).getD (swap 0) false =
        (nullableRules #[chain 1, empty]).getD 0 false ∧
      Grammar.listBuilder.build = .ok Grammar.list ∧
      IsLeast {k | ∀ s ∈ [Symbol.rule 2, .rule 2].drop k, DerivesEmpty Grammar.list.rules s} 2 := by
  intro empty chain swap
  have hswap : Renumbers swap #[chain 1, empty] #[empty, chain 0] := by
    intro i symbols
    match i with
    | 0 => simp [swap, chain, Alternative.ofSymbols, Symbol.renumber]
    | 1 => simp [swap, empty, Alternative.ofSymbols]
    | i + 2 => simp [swap, Array.getD_eq_getD_getElem?]
  have hb : Grammar.listBuilder.build = .ok Grammar.list := by decide +kernel
  refine ⟨hswap, (nullability_exact.2.2 _ _ _ hswap).1 0, hb, ?_⟩
  exact (nullability_exact.2.1 _ _ hb 2).2 ⟨[.rule 2, .rule 2], 2, none⟩
    (by simp [Grammar.rule, Grammar.list])

end ParseForest
