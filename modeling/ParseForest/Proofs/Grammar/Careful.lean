import ParseForest.Proofs.Grammar.Finishing

/-!
# Careful building

A builder is put together with care when every call keeps to numbers that the builder has handed out
(`GrammarBuilder.Careful`). Numbers are handed out once for each name and once for each terminal, so such a
builder is `Resolved` at every moment, whatever the order of mentions, definitions and annotations. Main
statement (`Grammar.consistent_of_careful`): what the tables of the grammar guarantee that it answers, on which
every use of a number relies (`Grammar.Consistent`).
-/

namespace ParseForest

namespace GrammarBuilder

/-- The builders that calls on a new builder lead to when each call keeps to rules and terminals that are
there. -/
inductive Careful : GrammarBuilder → Prop
  | new : Careful .new
  | declareClass {b : GrammarBuilder} (h : Careful b) (name pattern : String) :
      Careful (b.declareClass name pattern)
  | internRule {b : GrammarBuilder} (h : Careful b) (name : String) (kind : RuleKind) :
      Careful (b.internRule name kind).2
  | mention {b : GrammarBuilder} (h : Careful b) (name : String) (place : Location) :
      Careful (b.mention name place).2
  | addAlternative {b : GrammarBuilder} (h : Careful b) (id : RuleId) (symbols : List Symbol)
      (hid : b.Knows [.rule id]) (hs : b.Knows symbols) : Careful (b.addAlternative id symbols)
  | setFirst {b : GrammarBuilder} (h : Careful b) (id : RuleId) (hid : b.Knows [.rule id]) :
      Careful (b.setFirst id)
  | literal {b : GrammarBuilder} (h : Careful b) (text : String) : Careful (b.literal text).2
  | pattern {b : GrammarBuilder} (h : Careful b) (text flags : String) : Careful (b.pattern text flags).2
  | annotate {b : GrammarBuilder} (h : Careful b) (id : TerminalId) (precedence : Option Nat)
      (associativity : Option Associativity) (place : Location) :
      Careful (b.annotate id precedence associativity place).2

variable {b : GrammarBuilder} {id : RuleId} {symbols : List Symbol}

instance : Decidable (b.Knows symbols) :=
  decidable_of_iff (∀ s ∈ symbols, (b.named? s).isSome)
    (forall₂_congr fun _ _ => Option.isSome_iff_exists)

theorem knows_rule_iff : b.Knows [.rule id] ↔ ∃ name, b.named? (.rule id) = some (.rule name) := by
  rw [Knows, List.forall_mem_singleton]
  constructor
  · rintro ⟨x, hx⟩
    obtain ⟨d, hd, rfl⟩ := Option.map_eq_some_iff.1 hx
    exact ⟨_, hx⟩
  · rintro ⟨name, hname⟩
    exact ⟨_, hname⟩

theorem Knows.terminal_lt (h : b.Knows symbols) {t : TerminalId} (ht : .terminal t ∈ symbols) :
    t < b.terminals.size := by
  obtain ⟨x, hx⟩ := h _ ht
  obtain ⟨t', ht', -⟩ := Option.map_eq_some_iff.1 hx
  exact (Array.getElem?_eq_some_iff.1 ht').1

theorem Careful.made (h : b.Careful) : b.Made := by
  induction h with
  | new => exact .new
  | declareClass _ name pattern ih => exact ih.declareClass name pattern
  | internRule _ name kind ih => exact ih.internRule name kind
  | mention _ name place ih => exact ih.mention name place
  | addAlternative _ id symbols _ hs ih => exact ih.addAlternative id symbols fun _ => hs.terminal_lt
  | setFirst _ id _ ih => exact ih.setFirst id
  | literal _ text ih => exact ih.literal text
  | pattern _ text flags ih => exact ih.pattern text flags
  | annotate _ id p a place ih => exact ih.annotate id p a place

theorem Careful.resolved (h : b.Careful) : b.Resolved := by
  induction h with
  | new => exact resolved_new
  | declareClass _ name pattern ih => exact (ih.declareClass name pattern).1
  | internRule _ name kind ih => exact (ih.effect_internRule name kind).1.resolved
  | mention _ name place ih => exact (ih.effect_mention name place).1.resolved
  | addAlternative _ id symbols hid hs ih =>
    obtain ⟨name, hname⟩ := knows_rule_iff.1 hid
    obtain ⟨changes, heffect⟩ := ih.effect_addKnown hname hs
    exact heffect.resolved
  | setFirst _ id hid ih =>
    obtain ⟨name, hname⟩ := knows_rule_iff.1 hid
    exact (ih.setFirst hname).1
  | literal _ text ih => exact (ih.effect_internTerminal _).1.resolved
  | pattern _ text flags ih => exact (ih.effect_internTerminal _).1.resolved
  | annotate _ id p a place ih => exact (ih.effect_annotate id p a place).resolved

/-! ## Terminals -/

theorem Resolved.nodup_atoms (h : b.Resolved) : (b.terminals.toList.map Terminal.atom).Nodup := by
  refine List.pairwise_iff_getElem.2 fun i j hi hj hij he => Nat.ne_of_lt hij ?_
  simp only [List.length_map, Array.length_toList] at hi hj
  refine h.atom_inj (Array.getElem?_eq_getElem hi) (Array.getElem?_eq_getElem hj) ?_
  simpa using he

/-- Patterns carry nothing but what they match. -/
theorem terminal_of_named?_ofClass {t : TerminalId} {name pattern : String}
    (h : b.named? (.terminal t) = some (.terminal (Terminal.ofClass name pattern).atom)) :
    b.terminals[t]? = some (.ofClass name pattern) := by
  obtain ⟨terminal, ht, hatom⟩ := Option.map_eq_some_iff.1 h
  rw [ht]
  cases terminal with
  | literal l => cases hatom
  | pattern p =>
    obtain rfl := Atom.pattern.inj (NamedSymbol.terminal.inj hatom)
    rfl

/-! ## Operators -/

/-- The operator of a right-hand side: the first literal in it that has a precedence, which binds as its
terminal says. -/
structure Heads (terminals : Array Terminal) (symbols : List Symbol) (op : Operator) : Prop where
  literal : ∃ (t : TerminalId) (l : Literal), symbols[op.index]? = some (.terminal t) ∧
    terminals[t]? = some (.literal l) ∧ l.precedence = some op.precedence ∧
    l.associativity = op.associativity
  first : ∀ k < op.index, ∀ (t : TerminalId) (l : Literal), symbols[k]? = some (.terminal t) →
    terminals[t]? = some (.literal l) → l.precedence = none

theorem bind_precedence?_iff {terminals : Array Terminal} {t : TerminalId} {p : Nat}
    {side : Associativity} : terminals[t]?.bind Terminal.precedence? = some (p, side) ↔
      ∃ l : Literal, terminals[t]? = some (.literal l) ∧ l.precedence = some p ∧
        l.associativity = side := by
  cases ht : terminals[t]? with
  | none => simp
  | some terminal =>
    cases terminal with
    | pattern p => simp [Terminal.precedence?]
    | literal l =>
      obtain ⟨text, precedence, associativity⟩ := l
      cases precedence <;> simp [Terminal.precedence?]

/-- The search from some place on finds the first literal from there on that has a precedence. -/
theorem operatorAmong_eq_some_iff {terminals : Array Terminal} {i : Nat} {op : Operator} :
    operatorAmong terminals i symbols = some op ↔
      ∃ k, op.index = i + k ∧ Heads terminals symbols { op with index := k } := by
  induction symbols generalizing i with
  | nil => simpa [operatorAmong] using fun k _ h => by simpa using h.literal
  | cons s rest ih =>
    -- a symbol without precedence in front moves the operator by one place
    have hskip : (∀ (t : TerminalId) (l : Literal), s = .terminal t → terminals[t]? = some (.literal l) →
        l.precedence = none) → (operatorAmong terminals (i + 1) rest = some op ↔
          ∃ k, op.index = i + k ∧ Heads terminals (s :: rest) { op with index := k }) := by
      intro hs
      rw [ih]
      constructor
      · rintro ⟨k, hk, hheads⟩
        refine ⟨k + 1, by omega, ⟨hheads.literal, fun j hj t l hjs hl => ?_⟩⟩
        cases j with
        | zero => exact hs t l (Option.some.inj hjs) hl
        | succ j => exact hheads.first j (Nat.lt_of_succ_lt_succ hj) t l hjs hl
      · rintro ⟨k, hk, hheads⟩
        cases k with
        | zero =>
          obtain ⟨t, l, hst, hl, hp, -⟩ := hheads.literal
          rw [hs t l (Option.some.inj hst) hl] at hp
          cases hp
        | succ k =>
          exact ⟨k, by omega, hheads.literal, fun j hj t l hjs hl =>
            hheads.first (j + 1) (Nat.succ_lt_succ hj) t l hjs hl⟩
    cases s with
    | rule id => exact hskip fun _ _ h => by cases h
    | terminal t =>
      rw [operatorAmong]
      split
      · rename_i p side hbind
        obtain ⟨l, hl, hp, hside⟩ := bind_precedence?_iff.1 hbind
        constructor
        · rintro h
          obtain rfl := Option.some.inj h
          exact ⟨0, rfl, ⟨t, l, rfl, hl, hp, hside⟩, fun k hk => absurd hk (Nat.not_lt_zero k)⟩
        · rintro ⟨k, hk, hheads⟩
          cases k with
          | succ k =>
            rw [hheads.first 0 (Nat.succ_pos k) t l rfl hl] at hp
            cases hp
          | zero =>
            obtain ⟨t', l', ht', hl', hp', hside'⟩ := hheads.literal
            obtain rfl := Symbol.terminal.inj (Option.some.inj ht')
            obtain rfl := Terminal.literal.inj (Option.some.inj (hl.symm.trans hl'))
            obtain ⟨index, precedence, associativity⟩ := op
            obtain rfl := Option.some.inj (hp.symm.trans hp')
            obtain rfl : index = i := hk
            rw [← hside, hside']
      · rename_i hnone
        refine hskip fun t' l ht' hl => ?_
        obtain rfl := Symbol.terminal.inj ht'
        cases hp : l.precedence with
        | none => rfl
        | some p =>
          rw [bind_precedence?_iff.2 ⟨l, hl, hp, rfl⟩] at hnone
          cases hnone

theorem operatorAmong_zero_eq_some_iff {terminals : Array Terminal} {op : Operator} :
    operatorAmong terminals 0 symbols = some op ↔ Heads terminals symbols op := by
  rw [operatorAmong_eq_some_iff]
  constructor
  · rintro ⟨k, hk, hheads⟩
    rw [Nat.zero_add] at hk
    rwa [← hk] at hheads
  · exact fun hheads => ⟨op.index, (Nat.zero_add _).symm, hheads⟩

end GrammarBuilder

namespace Grammar

/-- The tables of a grammar fit together: numbers, names and terminals determine each other, right-hand sides
are made of what is there, and the rules that every grammar has stand where they belong. -/
structure Consistent (g : Grammar) : Prop where
  nodup_names : (g.rules.toList.map Rule.name).Nodup
  ruleNamed?_iff : ∀ name id, g.ruleNamed? name = some id ↔
    id < g.rules.size ∧ (g.rule id).name = name
  nodup_terminals : (g.terminals.toList.map Terminal.atom).Nodup
  rule_lt : ∀ id, ∀ a ∈ (g.rule id).alternatives, ∀ i, Symbol.rule i ∈ a.symbols → i < g.rules.size
  terminal_lt : ∀ id, ∀ a ∈ (g.rule id).alternatives, ∀ t, Symbol.terminal t ∈ a.symbols →
    t < g.terminals.size
  start : g.start = 0 ∧ (g.rule 0).name = startRuleName ∧
    ∃ a, (g.rule 0).alternatives = #[a] ∧ a.symbols = [.rule g.first, .rule g.eofRule]
  eofRule : (g.rule g.eofRule).name = tokenRuleName eofClass ∧
    (∃ a, (g.rule g.eofRule).alternatives = #[a] ∧ a.symbols = [.terminal g.eof]) ∧
    g.terminals[g.eof]? = some (.ofClass eofClass "")
  alternatives_ne : ∀ id < g.rules.size, (g.rule id).alternatives ≠ #[]
  nodup_alternatives : ∀ id, ((g.rule id).alternatives.toList.map Alternative.symbols).Nodup
  not_isEpsilon : ∀ id, ∀ a ∈ (g.rule id).alternatives, ∀ t, Symbol.terminal t ∈ a.symbols →
    (g.terminal t).isEpsilon = false
  operator_iff : ∀ id, ∀ a ∈ (g.rule id).alternatives, ∀ op,
    a.operator = some op ↔ GrammarBuilder.Heads g.terminals a.symbols op

theorem not_isEpsilon_of_finished {g : Grammar} {b : GrammarBuilder}
    (hrules : g.rules = GrammarBuilder.finishRules b.terminals (b.drafts.map RuleDraft.rule))
    (hterminals : g.terminals = b.terminals) (h : b.Resolved) (id : RuleId) :
    ∀ a ∈ (g.rule id).alternatives, ∀ t, Symbol.terminal t ∈ a.symbols → (g.terminal t).isEpsilon = false := by
  intro a ha t ht
  obtain ⟨x, hx, hne⟩ := named_of_mem_symbols hrules h ha ht
  have hempty := GrammarBuilder.isEpsilonSymbol_of_named? hx
  obtain ⟨t', ht', -⟩ := Option.map_eq_some_iff.1 hx
  simpa [GrammarBuilder.isEpsilonSymbol, GrammarBuilder.isEpsilon, terminal, hterminals, ht', hne,
    Array.getD_eq_getD_getElem?] using hempty

/-- A builder that was put together with care answers a grammar whose tables fit together. Its terminals are
those of the builder, under their numbers and with the precedence and associativity that they have there in
the end, and what finishing adds; so the operator of an alternative binds as its literal does in the end. -/
theorem consistent_of_careful {b : GrammarBuilder} {g : Grammar} (h : b.Careful)
    (hb : b.build = .ok g) : g.Consistent ∧ b.terminals.toList <+: g.terminals.toList := by
  have hwf := Built.wellFormed ⟨b, h.made, hb⟩
  obtain ⟨hg, -⟩ := listing_of_build h.resolved hb
  obtain ⟨first, hfirst, heq, -⟩ := GrammarBuilder.exists_of_build hb
  obtain ⟨firstName, hnamed⟩ := h.resolved.first first hfirst
  obtain ⟨hc, -, heof, -⟩ := h.resolved.complete hnamed
  have hprefix := (b.terminals_internTerminal _).trans (b.terminals_complete first).2
  generalize b.complete first = c at heq hc heof hprefix
  obtain ⟨eof, c⟩ := c
  dsimp only at heq hc heof hprefix
  have hrules : g.rules = GrammarBuilder.finishRules c.terminals (c.drafts.map RuleDraft.rule) := by
    rw [heq]
  have hterminals : g.terminals = c.terminals := by rw [heq]
  have hname : ∀ {id name}, c.named? (.rule id) = some (.rule name) → (g.rule id).name = name :=
    fun hid => NamedSymbol.rule.inj (named_of_finished hrules hterminals hid)
  have hstart : g.start = 0 := by rw [heq]; rfl
  have heofRule : g.eofRule = GrammarBuilder.eofRuleId := by rw [heq]
  have hidEof : g.eof = eof := by rw [heq]
  exact ⟨{
    nodup_names := hg.nodup_names
    ruleNamed?_iff := fun _ _ => hg.ruleNamed?_eq_some_iff
    nodup_terminals := hterminals ▸ hc.nodup_atoms
    rule_lt := fun _ => hg.rule_lt
    terminal_lt := hwf.terminal_lt
    start := ⟨hstart, hname hc.start, hstart ▸ hwf.start_alternatives⟩
    eofRule := ⟨heofRule ▸ hname hc.eofRule, hwf.eof_alternatives,
      hterminals ▸ hidEof ▸ GrammarBuilder.terminal_of_named?_ofClass heof⟩
    alternatives_ne := alternatives_ne_of_build hb
    nodup_alternatives := nodup_symbols_of_finished hrules hc
    not_isEpsilon := not_isEpsilon_of_finished hrules hterminals hc
    operator_iff := fun id a ha _ => by
      rw [hwf.operator_eq id a ha, GrammarBuilder.operatorAmong_zero_eq_some_iff] },
    hterminals ▸ hprefix⟩

/-- Calls that build sums. The literal gets its annotation after the alternative with it is there. -/
def lateBuilder : GrammarBuilder :=
  let b := ((((GrammarBuilder.new.declareClass "int" "[0-9]+").mention "Sum" ⟨1, 1⟩).2.internRule "Token-int"
    .tokenClass).2.literal "+").2.literal ""
  (((b.2.addAlternative 2 [.rule 2, .terminal 0, .terminal 1, .rule 3]).addAlternative 2 [.rule 3]).annotate 0
    (some 1) (some .right) ⟨1, 20⟩).2

theorem consistent_late : ∃ g, lateBuilder.Careful ∧ lateBuilder.build = .ok g ∧
    (g.Consistent ∧ lateBuilder.terminals.toList <+: g.terminals.toList) ∧
    (g.rule 2).alternatives.map Alternative.operator = #[some ⟨1, 1, .right⟩, none] := by
  have hcareful : lateBuilder.Careful := by
    have h := ((((GrammarBuilder.Careful.new.declareClass "int" "[0-9]+").mention "Sum" ⟨1, 1⟩).internRule
      "Token-int" .tokenClass).literal "+").literal ""
    exact ((h.addAlternative 2 [.rule 2, .terminal 0, .terminal 1, .rule 3] (by decide +kernel)
      (by decide +kernel)).addAlternative 2 [.rule 3] (by decide +kernel) (by decide +kernel)).annotate 0 (some 1)
      (some .right) ⟨1, 20⟩
  have hoperators : lateBuilder.build.toOption.map (fun g => (g.rule 2).alternatives.map Alternative.operator) =
      some #[some ⟨1, 1, .right⟩, none] := by decide +kernel
  cases hg : lateBuilder.build with
  | error e => simp [hg, Except.toOption] at hoperators
  | ok g =>
    rw [hg] at hoperators
    exact ⟨g, hcareful, rfl, consistent_of_careful hcareful hg, Option.some.inj hoperators⟩

end Grammar

end ParseForest
