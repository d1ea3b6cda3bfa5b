import ParseForest.Json.Reader
import ParseForest.Lexer.Description

/-!
# Lexer descriptions in JSON

A description is an object with the member `classes`, a list of objects with the members `name`,
`pattern` and `kind`. Members with other names are ignored; one of these must be there exactly once.
In place of an object, its members may be listed in order in an array. A kind is written by its
name, or as an object that gives the name the value `null`.
-/

namespace ParseForest

namespace LexerDescription

/-- The values of the named members, each of which occurs once; or the items of an array of
as many. -/
def fields? (names : List String) : Json → Option (List Json)
  | .object members =>
    names.mapM fun name =>
      match members.filter (·.1 == name) with
      | [(_, value)] => some value
      | _ => none
  | .array items => if items.length = names.length then some items else none
  | _ => none

/-- The text of a string. -/
def string? : Json → Option String
  | .string s => some s
  | _ => none

/-- The kind of a name. -/
def kindNamed? (name : String) : Option ClassKind :=
  match name with
  | "token" => some .token
  | "skip" => some .skip
  | "literal" => some .literal
  | _ => none

/-- The kind that a value writes. -/
def kind? : Json → Option ClassKind
  | .string name => kindNamed? name
  | .object [(name, .null)] => kindNamed? name
  | _ => none

/-- The class that a value describes. -/
def class? (value : Json) : Option TokenClass := do
  match ← fields? ["name", "pattern", "kind"] value with
  | [name, pattern, kind] => some ⟨← string? name, ← string? pattern, ← kind? kind⟩
  | _ => none

/-- The description that a value gives. -/
def ofJson? (value : Json) : Option LexerDescription := do
  match ← fields? ["classes"] value with
  | [.array classes] => some ⟨(← classes.mapM class?).toArray⟩
  | _ => none

/-- The description that a JSON text gives. -/
def ofJsonText? (text : String) : Option LexerDescription := do ofJson? (← Json.read? text)

end LexerDescription

end ParseForest
