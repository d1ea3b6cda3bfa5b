import Mathlib
import ParseForest.Proofs.Lexer.Classes

/-!
# Tokens and the terminals that they satisfy

A token carries the name of its class only, and a literal class is named by its text; so the terminal of a
token class is satisfied by the tokens of that class, and by those of a literal that has the name of the
class for its text (`CompiledGrammar.mem_matching_class_iff`).
-/

namespace ParseForest

namespace CompiledGrammar

variable {form : GrammarForm} {text source : String} {lexer : LexerDescription}
  {c : CompiledGrammar} {tokens : TokenStream}

/-- The tokens of a text satisfy the terminal of a token class if they come from it, or from a literal
that has the name of the class for its text; where there is no such literal, exactly if they come from
the class. -/
theorem mem_matching_class_iff (hc : ofText form text lexer = .ok c)
    (hs : c.lexer.tokenize source = .ok tokens) : ∃ cut stop,
      c.lexer.Cuts ⟨1, 1, 0⟩ source.toList cut ∧
      tokens.tokens.toList = cut.map Prod.snd ++ [.eof stop] ∧
      ∀ x ∈ cut, x.2.isEof = false ∧ ∀ k ∈ lexer.tokenClasses, ∀ id,
        c.grammar.terminals[id]? = some (.ofClass k.name k.pattern) →
        (id ∈ c.matcher.matching x.2 ↔ x.1 = k ∨ (x.1.kind = .literal ∧ x.1.name = k.name)) ∧
        ((∀ k' ∈ c.lexer.description.classes, k'.kind = .literal → k'.name ≠ k.name) →
          (id ∈ c.matcher.matching x.2 ↔ x.1 = k)) := by
  obtain ⟨⟨b, hb⟩, hg⟩ := exists_build_of_ofText hc
  obtain ⟨-, -, -, hm, hl⟩ := parts_of_ofGrammar hg
  obtain ⟨hdescription, hreserved, hunique⟩ := Lexer.ofDescription_eq_ok hl
  obtain ⟨cut, stop, hcut, htokens⟩ := Lexer.tokenize_cuts hs
  refine ⟨cut, stop, hcut, htokens, fun x hx => ?_⟩
  obtain ⟨hmem, hskip, hname, hend⟩ := hcut.of_mem hx
  refine ⟨hend, fun k hk id hid => ?_⟩
  obtain ⟨hk, hkind⟩ := List.mem_filter.1 hk
  have hkind : k.kind ≠ .literal := by
    rw [of_decide_eq_true hkind]
    decide
  have hk' := (@LexerDescription.mem_foldl_literal c.grammar.literals _ _ hkind).2
    (Array.mem_toList_iff.1 hk)
  have hne : id ≠ c.grammar.eof := by
    rintro rfl
    rw [GrammarBuilder.terminal_eof hb] at hid
    obtain ⟨-, -, hid⟩ := PatternTerminal.mk.inj (Terminal.pattern.inj (Option.some.inj hid))
    exact hreserved k hk' hkind (Option.some.inj hid).symm
  have hiff : id ∈ c.matcher.matching x.2 ↔ x.1 = k ∨ (x.1.kind = .literal ∧ x.1.name = k.name) := by
    rw [TerminalMatcher.mem_matching_ofClass_iff hm hid hne hend, hname]
    constructor
    · intro he
      by_cases hliteral : x.1.kind = .literal
      · exact .inr ⟨hliteral, he⟩
      · exact .inl (hunique _ (hdescription ▸ hmem) _ hk' hliteral hkind he)
    · rintro (rfl | ⟨-, he⟩)
      · rfl
      · exact he
  exact ⟨hiff, fun hno => hiff.trans (or_iff_left fun ⟨hliteral, he⟩ => hno _ hmem hliteral he)⟩

end CompiledGrammar

/-! ## An example -/

/-- Calls for the grammar of a number. -/
def Grammar.numberBuilder : GrammarBuilder :=
  ((GrammarBuilder.new.declareClass "int" "[0-9]+").internRule "S" .normal).2
    |>.internRule "Token-int" .tokenClass |>.2
    |>.addAlternative 2 [.rule 3]

/-- What they build, and what the text `<S> ::= <Token-int>` is read as. -/
def Grammar.number : Grammar where
  rules := #[⟨startRuleName, .start, #[⟨[.rule 2, .rule 1], 2, none⟩], false⟩,
    ⟨"Token-EOF", .tokenClass, #[⟨[.terminal 0], 1, none⟩], false⟩,
    ⟨"S", .normal, #[⟨[.rule 3], 1, none⟩], false⟩,
    ⟨"Token-int", .tokenClass, #[⟨[.terminal 1], 1, none⟩], false⟩]
  terminals := #[.ofClass eofClass "", .ofClass "int" "[0-9]+"]
  start := 0
  first := 2
  eofRule := 1
  eof := 0

theorem Grammar.number_built : number.Built := by
  refine ⟨numberBuilder, ?_, by decide +kernel⟩
  have h := ((GrammarBuilder.Made.new.declareClass "int" "[0-9]+").internRule "S" .normal).internRule
    "Token-int" .tokenClass
  exact h.addAlternative 2 [.rule 3] (by simp)

/-- A lexer with a literal that has the name of a token class for its text. -/
def LexerDescription.numbers : LexerDescription := (empty.token "int" "[0-9]+").literal "int"

/-- The grammar compiles with the lexer, which cuts the text of its literal. -/
theorem CompiledGrammar.exists_numbers : ∃ c tokens,
    ofText .bnf "<S> ::= <Token-int>" .numbers = .ok c ∧ c.grammar = .number ∧
      c.lexer.tokenize "int" = .ok tokens := by
  obtain ⟨a, ha⟩ := Automaton.exists_ofGrammar Grammar.number_built.wellFormed
  have hclasses : LexerDescription.numbers.tokenClasses = [⟨"int", "[0-9]+", .token⟩] := by decide +kernel
  have hg : Grammar.ofText .bnf "<S> ::= <Token-int>" [("int", "[0-9]+")] = .ok .number := by decide +kernel
  have hm : TerminalMatcher.ofGrammar .number = .ok ⟨#[.never, .className "int"], 0⟩ := rfl
  have htokenize : (Lexer.ofDescription
      (Grammar.number.literals.foldl LexerDescription.literal .numbers)).toOption.any
        (fun l => (l.tokenize "int").isOk) = true := by cbv
  cases hl : Lexer.ofDescription (Grammar.number.literals.foldl LexerDescription.literal .numbers) with
  | error e =>
    rw [hl] at htokenize
    cases htokenize
  | ok l =>
    rw [hl] at htokenize
    cases ht : l.tokenize "int" with
    | error e =>
      simp only [Except.toOption, Option.any_some, ht] at htokenize
      cases htokenize
    | ok tokens =>
      refine ⟨⟨.number, a, .ofGrammar .number, l, ⟨#[.never, .className "int"], 0⟩⟩, tokens, ?_, rfl, ht⟩
      simp only [ofText, ofGrammar, assemble, bind, Except.bind, hclasses, List.map_cons,
        List.map_nil, hg, hl, ha, hm]

theorem CompiledGrammar.mem_matching_class_int :
    ∃ c tokens, ∃ cut : List (TokenClass × Token), ∃ stop,
      ofText .bnf "<S> ::= <Token-int>" .numbers = .ok c ∧
      c.lexer.tokenize "int" = .ok tokens ∧
      tokens.tokens.toList = cut.map Prod.snd ++ [.eof stop] ∧
      ∀ x ∈ cut, 1 ∈ c.matcher.matching x.2 ↔
        x.1 = ⟨"int", "[0-9]+", .token⟩ ∨ (x.1.kind = .literal ∧ x.1.name = "int") := by
  have hclasses : LexerDescription.numbers.tokenClasses = [⟨"int", "[0-9]+", .token⟩] := by decide +kernel
  obtain ⟨c, tokens, hc, hgrammar, ht⟩ := exists_numbers
  obtain ⟨cut, stop, -, htokens, hcut⟩ := mem_matching_class_iff hc ht
  refine ⟨c, tokens, cut, stop, hc, ht, htokens, fun x hx => ?_⟩
  exact ((hcut x hx).2 _ (hclasses ▸ .head _) 1 (hgrammar ▸ rfl)).1

end ParseForest
