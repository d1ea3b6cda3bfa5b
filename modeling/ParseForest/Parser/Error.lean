import ParseForest.Lexer.Basic

/-!
# Parse errors
-/

namespace ParseForest

/-- The most alternatives that a message lists. -/
def expectedShown : Nat := 8

/-- What was expected, as the end of a message. -/
def expectedList (names : List String) : String :=
  match names with
  | [] => ""
  | [name] => ", expected " ++ name
  | _ =>
    if names.length ≤ expectedShown then ", expected one of: " ++ ", ".intercalate names
    else ", expected one of: " ++ ", ".intercalate (names.take expectedShown) ++ ", ... ("
      ++ toString (names.length - expectedShown) ++ " more)"

/-- Why there is no forest. -/
inductive ParseError
  /-- No stack could get past the token -/
  | unexpectedToken (position : Position) (found near : String) (expected : List String)
  /-- Every derivation was turned down -/
  | emptyForest
  /-- The stack outgrew its budget -/
  | stackLimit (limit : Nat)
  | internal (text : String)
  | lexing (error : LexError)
deriving DecidableEq

namespace ParseError

/-- The place in the input that the error is about. -/
def position? : ParseError → Option Position
  | .unexpectedToken position _ _ _ => some position
  | .lexing e => some e.position
  | _ => none

/-- The words of an error. -/
def message : ParseError → String
  | .unexpectedToken position found near expected =>
    "unexpected " ++ found ++ " at line " ++ toString position.line ++ ", column "
      ++ toString position.column ++ ": near `" ++ near ++ "`" ++ expectedList expected
  | .emptyForest => "parse forest is empty after disambiguation"
  | .stackLimit limit => "graph-structured stack exceeded " ++ toString limit ++ " nodes"
  | .internal text => "internal parser error: " ++ text
  | .lexing e => e.message

end ParseError

end ParseForest
