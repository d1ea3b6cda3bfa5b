/-!
# JSON

JSON values and their text over several lines: two blanks per level, one member or item per line.
Members are written in the order they are given.
-/

namespace ParseForest

/-- A JSON value. A number is kept as its text. A value is `illFormed` when its text keeps to the
grammar but holds a string, or the name of a member, with half of a character in it. -/
inductive Json
  | null
  | bool (b : Bool)
  | number (text : String)
  | string (s : String)
  | array (items : List Json)
  | object (members : List (String × Json))
  | illFormed

namespace Json

/-- The number of a natural number. -/
def nat (n : Nat) : Json := .number (toString n)

/-- A hexadecimal number of four digits. -/
def hex4 (n : Nat) : List Char :=
  let digits := Nat.toDigits 16 n
  List.replicate (4 - digits.length) '0' ++ digits

/-- How one character of a string is written. -/
def encodeChar (c : Char) : List Char :=
  if c = '"' then ['\\', '"']
  else if c = '\\' then ['\\', '\\']
  else if c = '\x08' then ['\\', 'b']
  else if c = '\x0c' then ['\\', 'f']
  else if c = '\n' then ['\\', 'n']
  else if c = '\r' then ['\\', 'r']
  else if c = '\t' then ['\\', 't']
  else if c.toNat < 32 then ['\\', 'u'] ++ hex4 c.toNat
  else [c]

/-- A string between quotes. -/
def encodeString (s : String) : String :=
  String.ofList ('"' :: s.toList.flatMap encodeChar ++ ['"'])

/-- A new line that is indented by `depth` levels. -/
def newLine (depth : Nat) : String := "\n" ++ String.ofList (List.replicate (2 * depth) ' ')

mutual

/-- The text of a value that begins at level `depth`. A value without a text of its own is written
as null. -/
def prettyAt (depth : Nat) : Json → String
  | .null | .illFormed => "null"
  | .bool true => "true"
  | .bool false => "false"
  | .number text => text
  | .string s => encodeString s
  | .array [] => "[]"
  | .array (item :: items) =>
    "[" ++ newLine (depth + 1) ++ prettyAt (depth + 1) item ++ prettyItems depth items
  | .object [] => "\x7b\x7d"
  | .object ((name, value) :: members) =>
    "\x7b" ++ newLine (depth + 1) ++ encodeString name ++ ": " ++ prettyAt (depth + 1) value
      ++ prettyMembers depth members

/-- The items after the first, and the end of the array. -/
def prettyItems (depth : Nat) : List Json → String
  | [] => newLine depth ++ "]"
  | item :: items =>
    "," ++ newLine (depth + 1) ++ prettyAt (depth + 1) item ++ prettyItems depth items

/-- The members after the first, and the end of the object. -/
def prettyMembers (depth : Nat) : List (String × Json) → String
  | [] => newLine depth ++ "\x7d"
  | (name, value) :: members =>
    "," ++ newLine (depth + 1) ++ encodeString name ++ ": " ++ prettyAt (depth + 1) value
      ++ prettyMembers depth members

end

/-- The text of a value over several lines. -/
def pretty (value : Json) : String := prettyAt 0 value

end Json

end ParseForest
