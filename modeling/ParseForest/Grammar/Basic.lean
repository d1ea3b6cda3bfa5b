import ParseForest.Grammar.Rule

/-!
# Grammars

A finished grammar is a table of rules and a table of terminals. It always has the rule `#S`, whose
one alternative is the first rule followed by the rule of the end of input, and one `Token-` rule
per token class.
-/

namespace ParseForest

/-- Name of the rule that accepts. -/
def startRuleName : String := "#S"

/-- What the names of token class rules begin with. -/
def tokenRulePrefix : String := "Token-"

/-- Class of the end-of-input token. -/
def eofClass : String := "EOF"

/-- Name of the rule of a token class. -/
def tokenRuleName (className : String) : String := tokenRulePrefix ++ className

/-- A finished grammar. -/
structure Grammar where
  rules : Array Rule
  terminals : Array Terminal
  /-- The rule that accepts -/
  start : RuleId
  /-- The first rule of the author -/
  first : RuleId
  /-- The rule of the end of input -/
  eofRule : RuleId
  /-- The terminal of the end of input -/
  eof : TerminalId
deriving DecidableEq

namespace Grammar

variable (g : Grammar)

/-- The rule of a number. -/
def rule (id : RuleId) : Rule := g.rules.getD id default

/-- The terminal of a number. -/
def terminal (id : TerminalId) : Terminal := g.terminals.getD id (.ofText "")

/-- The rule of a name. -/
def ruleNamed? (name : String) : Option RuleId := g.rules.findIdx? (·.name == name)

/-- Whether a rule derives the empty string. -/
def isNullable (id : RuleId) : Bool := (g.rule id).nullable

/-- The alternative of a number of the rule of a number. -/
def alternative (rule : RuleId) (alt : Nat) : Alternative :=
  (g.rule rule).alternatives.getD alt default

/-- The texts of the literals, in the order of the terminals, the empty one left out. -/
def literals : List String :=
  g.terminals.toList.filterMap fun t => match t with
    | .literal l => if l.text.isEmpty then none else some l.text
    | .pattern _ => none

/-- How grammar text shows a symbol. -/
def symbolName : Symbol → String
  | .rule id => "<" ++ (g.rule id).name ++ ">"
  | .terminal id => (g.terminal id).display

/-- The symbols of an alternative with a dot before the one at `dot`, each after a blank. -/
def displayFrom (dot : Option Nat) : Nat → List Symbol → String
  | k, [] => if dot = some k then " •" else ""
  | k, s :: rest =>
    (if dot = some k then " •" else "") ++ " " ++ g.symbolName s ++ displayFrom dot (k + 1) rest

/-- One alternative as grammar text, with a dot if one is given. -/
def displayAlternative (rule : RuleId) (alt : Nat) (dot : Option Nat) : String :=
  "<" ++ (g.rule rule).name ++ "> ::=" ++ g.displayFrom dot 0 (g.alternative rule alt).symbols

/-- One alternative in a rule of grammar text, after a blank; the empty one is written as the empty
literal. -/
def bnfAlternative (a : Alternative) : String :=
  if a.isEmpty then " \"\"" else String.join (a.symbols.map fun s => " " ++ g.symbolName s)

/-- A rule as a line of grammar text. -/
def bnfRule (r : Rule) : String :=
  "<" ++ r.name ++ "> ::=" ++ " |".intercalate (r.alternatives.toList.map g.bnfAlternative) ++ "\n"

/-- The rules as grammar text, without `#S` and the rules of token classes. -/
def toBnf : String :=
  String.join <| g.rules.toList.zipIdx.filterMap fun (r, id) =>
    if id = g.start ∨ r.kind = .tokenClass then none else some (g.bnfRule r)

end Grammar

end ParseForest
