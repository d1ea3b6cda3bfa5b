/-!
# Grammar errors

What can be wrong with grammar text or with a grammar put together in code. Every fault of a text
knows its line and column, both counted from one.
-/

namespace ParseForest

/-- A place in grammar text. -/
structure Location where
  line : Nat
  column : Nat
deriving DecidableEq, Inhabited

/-- What makes a grammar text malformed. Lexemes stand in as the messages show them. -/
inductive Malformation
  | unterminatedReference
  | emptyName
  | unterminatedLiteral
  | unterminatedPattern
  | unsupportedFlag (flag : Char)
  | expectedDefine
  | unclosedPrecedence (digits : String)
  | precedenceOutOfRange (digits : String)
  | unclosedAssociativity
  | unknownAssociativity (word : String)
  | unexpectedCharacter (c : Char)
  | expected (what found : String)
  | reservedName (name : String)
  | emptyAlternative
  | extendedOnly (lexeme : String)
  | nothingToModify (lexeme : String)
  | modifiedNothing (modifier : Char)
deriving DecidableEq

/-- The words of a malformation. -/
def Malformation.message : Malformation → String
  | .unterminatedReference => "unterminated rule reference"
  | .emptyName => "empty rule name"
  | .unterminatedLiteral => "unterminated literal"
  | .unterminatedPattern => "unterminated pattern"
  | .unsupportedFlag flag => "unsupported pattern flag '" ++ flag.toString ++ "'"
  | .expectedDefine => "expected '::='"
  | .unclosedPrecedence digits => "expected '+' to close precedence +" ++ digits
  | .precedenceOutOfRange digits => "precedence " ++ digits ++ " is out of range"
  | .unclosedAssociativity => "expected '=' to close associativity"
  | .unknownAssociativity word => "unknown associativity '" ++ word ++ "'"
  | .unexpectedCharacter c => "unexpected character '" ++ c.toString ++ "'"
  | .expected what found => "expected " ++ what ++ ", found " ++ found
  | .reservedName name => "rule name <" ++ name ++ "> is reserved"
  | .emptyAlternative => "empty alternative; write \"\" for epsilon"
  | .extendedOnly lexeme => lexeme ++ " is only valid in EBNF grammars"
  | .nothingToModify lexeme => "modifier " ++ lexeme ++ " has nothing to apply to"
  | .modifiedNothing modifier => "modifier '" ++ modifier.toString ++ "' applied to an empty expression"

/-- Why there is no grammar. -/
inductive GrammarError
  | unknownRule (name : String) (place : Location)
  | malformed (fault : Malformation) (place : Location)
  | unterminatedGroup (place : Location)
  | doubleModifier (modifier : Char) (place : Location)
  | misplacedMark (mark : String) (place : Location)
  | conflictingPrecedence (literal : String) (place : Location)
  | emptyGrammar
  | noAlternatives (name : String)
  /-- The pattern of `owner` does not read -/
  | invalidPattern (owner : String)
  | duplicateTokenClass (name : String)
  | internal (text : String)
deriving DecidableEq

namespace GrammarError

/-- The place in grammar text the error is about. -/
def location? : GrammarError → Option Location
  | .unknownRule _ place => some place
  | .malformed _ place => some place
  | .unterminatedGroup place => some place
  | .doubleModifier _ place => some place
  | .misplacedMark _ place => some place
  | .conflictingPrecedence _ place => some place
  | _ => none

/-- `line L, column C`. -/
def placeText (place : Location) : String :=
  "line " ++ toString place.line ++ ", column " ++ toString place.column

/-- The words of an error. -/
def message : GrammarError → String
  | .unknownRule name place => "unknown rule <" ++ name ++ "> referenced at " ++ placeText place
  | .malformed fault place => fault.message ++ " at " ++ placeText place
  | .unterminatedGroup place => "unterminated group opened at " ++ placeText place
  | .doubleModifier modifier place =>
    "modifier '" ++ modifier.toString ++ "' applied twice at " ++ placeText place
  | .misplacedMark mark place =>
    "annotation " ++ mark ++ " must follow a literal (" ++ placeText place ++ ")"
  | .conflictingPrecedence literal place =>
    "literal \"" ++ literal ++ "\" has conflicting precedence annotations at " ++ placeText place
  | .emptyGrammar => "grammar defines no rules"
  | .noAlternatives name => "rule <" ++ name ++ "> has no alternatives"
  | .invalidPattern owner => "invalid pattern for " ++ owner
  | .duplicateTokenClass name => "token class '" ++ name ++ "' declared twice"
  | .internal text => "internal grammar compiler error: " ++ text

end GrammarError

end ParseForest
