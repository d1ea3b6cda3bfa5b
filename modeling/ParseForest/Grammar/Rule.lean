import ParseForest.Grammar.Symbol

/-!
# Rules

A rule has a name and alternatives. What is known about an alternative beside its symbols, its
nullable tail and its operator, is filled in when the grammar is finished.
-/

namespace ParseForest

/-- Where a rule comes from. -/
inductive RuleKind
  /-- Written by the author of the grammar -/
  | normal
  /-- One or more of something -/
  | list
  /-- Something or nothing -/
  | optional
  /-- A group with more than one alternative -/
  | group
  /-- One token class of the lexer -/
  | tokenClass
  /-- The rule that accepts: the first rule, then the end of input -/
  | start
deriving DecidableEq

namespace RuleKind

/-- Every kind but `normal`. -/
def isSynthetic : RuleKind → Bool
  | .normal => false
  | _ => true

/-- The kinds between whose matches the longest is preferred. -/
def isRepetition : RuleKind → Bool
  | .list => true
  | .optional => true
  | _ => false

end RuleKind

/-- The operator that heads an alternative: where it stands, and how it binds. -/
structure Operator where
  index : Nat
  precedence : Nat
  associativity : Associativity
deriving DecidableEq

/-- One right-hand side. -/
structure Alternative where
  symbols : List Symbol
  /-- The least index from which every symbol is nullable -/
  nullableFrom : Nat
  operator : Option Operator
deriving DecidableEq, Inhabited

namespace Alternative

/-- An alternative of which only the symbols are known. -/
def ofSymbols (symbols : List Symbol) : Alternative := ⟨symbols, symbols.length, none⟩

/-- Number of symbols. -/
def length (a : Alternative) : Nat := a.symbols.length

/-- True when there is no symbol. -/
def isEmpty (a : Alternative) : Bool := a.symbols.isEmpty

/-- True when every symbol is nullable. -/
def isNullable (a : Alternative) : Bool := a.nullableFrom == 0

end Alternative

/-- What makes two rules of separately built grammars the same rule. -/
structure RuleIdentity where
  name : String
deriving DecidableEq

/-- A rule of a grammar. -/
structure Rule where
  name : String
  kind : RuleKind
  alternatives : Array Alternative
  nullable : Bool
deriving DecidableEq

namespace Rule

/-- A rule without alternatives. -/
def named (name : String) (kind : RuleKind) : Rule := ⟨name, kind, #[], false⟩

/-- The identity of the rule. -/
def identity (r : Rule) : RuleIdentity := ⟨r.name⟩

instance : Inhabited Rule := ⟨.named "" .normal⟩

end Rule

end ParseForest
