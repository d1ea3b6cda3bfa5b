import ParseForest.Parser.Engine

/-!
# Parsers

A parser is a compiled grammar with settings and disambiguators.
-/

namespace ParseForest

/-- A parser whose disambiguators share a state of type `σ`. -/
structure Parser (σ : Type) where
  compiled : CompiledGrammar
  config : ParserConfig
  user : List (Disambiguator σ)

namespace Parser

/-- A parser without disambiguators of the user. -/
def plain (compiled : CompiledGrammar) (config : ParserConfig) : Parser Unit := ⟨compiled, config, []⟩

variable {σ : Type} (p : Parser σ)

/-- Parses a token stream; the end of input is added if it is missing. -/
def parseTokens (tokens : TokenStream) (user : σ) : Except ParseError Forest × σ :=
  Engine.run ⟨p.compiled, p.config, p.user, tokens.ensureEof⟩ user

/-- Cuts a text into tokens and parses them. -/
def parse (source : String) (user : σ) : Except ParseError Forest × σ :=
  match p.compiled.lexer.tokenize source with
  | .ok tokens => p.parseTokens tokens user
  | .error e => (.error (.lexing e), user)

end Parser

end ParseForest
