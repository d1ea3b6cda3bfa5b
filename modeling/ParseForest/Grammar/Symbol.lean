import ParseForest.Text.Quoted

/-!
# Grammar symbols

Rules and terminals are numbered; a symbol of a right-hand side is one or the other. A terminal is
an exact text, possibly an operator with a precedence, or a pattern; the patterns spliced in for
token classes carry the name of their class.
-/

namespace ParseForest

/-- Number of a rule in its grammar. -/
abbrev RuleId := Nat

/-- Number of a terminal in its grammar. -/
abbrev TerminalId := Nat

/-- One position of a right-hand side. -/
inductive Symbol
  | rule (id : RuleId)
  | terminal (id : TerminalId)
deriving DecidableEq, Inhabited, Hashable

namespace Symbol

/-- The rule, if the symbol is one. -/
def rule? : Symbol → Option RuleId
  | .rule id => some id
  | .terminal _ => none

/-- The terminal, if the symbol is one. -/
def terminal? : Symbol → Option TerminalId
  | .rule _ => none
  | .terminal id => some id

/-- Rules come before terminals; each kind is ordered by number. -/
def le : Symbol → Symbol → Bool
  | .rule a, .rule b => a ≤ b
  | .rule _, .terminal _ => true
  | .terminal _, .rule _ => false
  | .terminal a, .terminal b => a ≤ b

end Symbol

/-- How operators of equal precedence group. -/
inductive Associativity
  /-- `a + b + c` is `(a + b) + c` -/
  | left
  /-- `a = b = c` is `a = (b = c)` -/
  | right
  /-- `a == b == c` has no grouping -/
  | none
deriving DecidableEq

/-- A terminal matched by the exact text of a token. A higher precedence binds tighter. -/
structure Literal where
  text : String
  precedence : Option Nat
  associativity : Associativity
deriving DecidableEq

/-- A terminal tested by token class, when it has one, and otherwise by a pattern that must cover
the token's text. -/
structure PatternTerminal where
  pattern : String
  flags : String
  className : Option String
deriving DecidableEq

/-- The pattern with its flags, made to cover the whole text. -/
def PatternTerminal.anchored (t : PatternTerminal) : String :=
  if t.flags.isEmpty then "\\A(?:" ++ t.pattern ++ ")\\z"
  else "(?" ++ t.flags ++ ")\\A(?:" ++ t.pattern ++ ")\\z"

/-- A terminal of a grammar. -/
inductive Terminal
  | literal (value : Literal)
  | pattern (value : PatternTerminal)
deriving DecidableEq

namespace Terminal

/-- The literal of a text, without operator metadata. -/
def ofText (text : String) : Terminal := .literal ⟨text, none, .left⟩

/-- The terminal of a token class. -/
def ofClass (name pattern : String) : Terminal := .pattern ⟨pattern, "", some name⟩

/-- True of the empty literal, which stands for the empty string. -/
def isEpsilon : Terminal → Bool
  | .literal l => l.text.isEmpty
  | .pattern _ => false

/-- Precedence and associativity of an operator. -/
def precedence? : Terminal → Option (Nat × Associativity)
  | .literal ⟨_, some p, a⟩ => some (p, a)
  | _ => none

/-- Two terminals are one when their texts agree, or their pattern, flags and class. Operator
metadata does not count. -/
def same : Terminal → Terminal → Bool
  | .literal a, .literal b => a.text == b.text
  | .pattern a, .pattern b => a == b
  | _, _ => false

/-- How grammar text and messages show a terminal. -/
def display : Terminal → String
  | .literal l => Quoted.encode l.text
  | .pattern ⟨_, _, some name⟩ => name
  | .pattern ⟨p, flags, none⟩ => "/" ++ p ++ "/" ++ flags

end Terminal

end ParseForest
