import ParseForest.Automaton.Basic
import ParseForest.Epsilon
import ParseForest.Grammar.Matching
import ParseForest.Lexer.Basic
import ParseForest.Notation.Reader

/-!
# Compiled grammars

All that is computed once per grammar and used by every parse.
-/

namespace ParseForest

/-- A grammar with what a parser needs. -/
structure CompiledGrammar where
  grammar : Grammar
  automaton : Automaton
  epsilon : EpsilonForest
  lexer : Lexer
  matcher : TerminalMatcher

namespace CompiledGrammar

/-- Puts the parts together. -/
def assemble (grammar : Grammar) (automaton : Automaton) (epsilon : EpsilonForest) (lexer : Lexer) :
    Except GrammarError CompiledGrammar := do
  .ok ⟨grammar, automaton, epsilon, lexer, ← TerminalMatcher.ofGrammar grammar⟩

/-- Compiles a grammar. Its literals are added to the lexer. -/
def ofGrammar (g : Grammar) (lexer : LexerDescription) : Except GrammarError CompiledGrammar := do
  let lexer ← Lexer.ofDescription (g.literals.foldl LexerDescription.literal lexer)
  let automaton ← Automaton.ofGrammar g
  assemble g automaton (.ofGrammar g) lexer

/-- Reads grammar text over the token classes of a lexer, and compiles it. -/
def ofText (form : GrammarForm) (text : String) (lexer : LexerDescription) :
    Except GrammarError CompiledGrammar := do
  let g ← Grammar.ofText form text (lexer.tokenClasses.map fun c => (c.name, c.pattern))
  ofGrammar g lexer

/-- Number of pairs of a state and a lookahead with more than one action. -/
def conflicts (c : CompiledGrammar) : Nat := c.automaton.conflicts c.grammar.terminals.size

end CompiledGrammar

end ParseForest
