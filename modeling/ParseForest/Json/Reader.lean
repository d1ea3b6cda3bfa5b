import ParseForest.Json.Basic

/-!
# Reading JSON

Every reader takes the characters that are left and answers with what it read and the characters
after it, or with `none`. Members of an object keep their order, and a name may occur twice: what
that means is for the one who reads the value.
-/

namespace ParseForest

namespace Json

/-- True of the characters between values. -/
def isSpace (c : Char) : Bool := c == ' ' || c == '\n' || c == '\t' || c == '\r'

/-- Drops what lies between values. -/
def skipSpace (cs : List Char) : List Char := cs.dropWhile isSpace

/-- The value of a hexadecimal digit. -/
def hexDigit? (c : Char) : Option Nat :=
  if c.isDigit then some (c.toNat - '0'.toNat)
  else if 'a' ≤ c ∧ c ≤ 'f' then some (c.toNat - 'a'.toNat + 10)
  else if 'A' ≤ c ∧ c ≤ 'F' then some (c.toNat - 'A'.toNat + 10)
  else none

/-- The 16-bit unit of four hexadecimal digits. -/
def readUnit : List Char → Option (Nat × List Char)
  | a :: b :: c :: d :: cs => do
    let a ← hexDigit? a
    let b ← hexDigit? b
    let c ← hexDigit? c
    let d ← hexDigit? d
    some (((a * 16 + b) * 16 + c) * 16 + d, cs)
  | _ => none

/-- The character of a `\u` escape, after the `u`. A character beyond the first 65536 takes two
escapes; half of one is no character, and what follows it is read on its own. -/
def readCodePoint (cs : List Char) : Option (Option Char × List Char) := do
  let (unit, cs) ← readUnit cs
  if 0xD800 ≤ unit ∧ unit < 0xDC00 then
    match cs with
    | '\\' :: 'u' :: rest =>
      let (low, rest) ← readUnit rest
      if 0xDC00 ≤ low ∧ low < 0xE000 then
        some (some (Char.ofNat (0x10000 + (unit - 0xD800) * 0x400 + (low - 0xDC00))), rest)
      else some (none, cs)
    | _ => some (none, cs)
  else if 0xDC00 ≤ unit ∧ unit < 0xE000 then some (none, cs)
  else some (some (Char.ofNat unit), cs)

/-- The control or sign of an escape letter. -/
def escapeLetter? (c : Char) : Option Char :=
  match c with
  | '"' => some '"'
  | '\\' => some '\\'
  | '/' => some '/'
  | 'b' => some '\x08'
  | 'f' => some '\x0c'
  | 'n' => some '\n'
  | 'r' => some '\r'
  | 't' => some '\t'
  | _ => none

/-- Reads the characters of a string up to its closing quote. `done` holds the ones before, the
last one first, if all of them are whole. -/
def readChars : Nat → Option (List Char) → List Char → Option (Option String × List Char)
  | 0, _, _ => none
  | _ + 1, _, [] => none
  | fuel + 1, done, c :: cs =>
    if c = '"' then some (done.map fun done => String.ofList done.reverse, cs)
    else if c.toNat < 32 then none
    else if c = '\\' then
      match cs with
      | 'u' :: cs => do
        let (c, cs) ← readCodePoint cs
        readChars fuel (do some ((← c) :: (← done))) cs
      | e :: cs => do
        let c ← escapeLetter? e
        readChars fuel (done.map (c :: ·)) cs
      | [] => none
    else readChars fuel (done.map (c :: ·)) cs

/-- Reads a string, after its opening quote. A string with half of a character in it has an end, but
is none. -/
def readString (cs : List Char) : Option (Option String × List Char) :=
  readChars (cs.length + 1) (some []) cs

/-- The value of a string that was read. -/
def ofString : Option String → Json
  | some s => .string s
  | none => .illFormed

/-- The value of members that were read. -/
def ofMembers (members : List (Option String × Json)) : Json :=
  match members.mapM fun (name, value) => name.map (·, value) with
  | some members => .object members
  | none => .illFormed

/-- Reads at least one digit. -/
def readDigits (cs : List Char) : Option (List Char × List Char) :=
  let digits := cs.takeWhile Char.isDigit
  if digits.isEmpty then none else some (digits, cs.drop digits.length)

/-- Reads a number: an integer without a leading zero, a fraction, an exponent. -/
def readNumber (cs : List Char) : Option (String × List Char) := do
  let (sign, cs) := match cs with
    | '-' :: cs => (['-'], cs)
    | cs => ([], cs)
  let (whole, cs) ← match cs with
    | '0' :: cs => some (['0'], cs)
    | cs => readDigits cs
  let (fraction, cs) ← match cs with
    | '.' :: cs => (readDigits cs).map fun (digits, cs) => ('.' :: digits, cs)
    | cs => some ([], cs)
  let (exponent, cs) ← match cs with
    | 'e' :: cs => exponent cs
    | 'E' :: cs => exponent cs
    | cs => some ([], cs)
  if (cs.head?.any Char.isDigit) then none
  else some (String.ofList (sign ++ whole ++ fraction ++ exponent), cs)
where
  /-- Reads an exponent, after its letter. -/
  exponent (cs : List Char) : Option (List Char × List Char) :=
    match cs with
    | '+' :: cs => (readDigits cs).map fun (digits, cs) => ('e' :: digits, cs)
    | '-' :: cs => (readDigits cs).map fun (digits, cs) => ('e' :: '-' :: digits, cs)
    | cs => (readDigits cs).map fun (digits, cs) => ('e' :: digits, cs)

mutual

/-- Reads a value. The fuel counts characters. -/
def readValue : Nat → List Char → Option (Json × List Char)
  | 0, _ => none
  | fuel + 1, cs =>
    match skipSpace cs with
    | 'n' :: 'u' :: 'l' :: 'l' :: cs => some (.null, cs)
    | 't' :: 'r' :: 'u' :: 'e' :: cs => some (.bool true, cs)
    | 'f' :: 'a' :: 'l' :: 's' :: 'e' :: cs => some (.bool false, cs)
    | '"' :: cs => (readString cs).map fun (s, cs) => (ofString s, cs)
    | '[' :: cs =>
      match skipSpace cs with
      | ']' :: cs => some (.array [], cs)
      | cs => (readItems fuel cs).map fun (items, cs) => (.array items, cs)
    | '\x7b' :: cs =>
      match skipSpace cs with
      | '\x7d' :: cs => some (.object [], cs)
      | cs => (readMembers fuel cs).map fun (members, cs) => (ofMembers members, cs)
    | cs => (readNumber cs).map fun (text, cs) => (.number text, cs)

/-- Reads at least one item of an array, and its end. -/
def readItems : Nat → List Char → Option (List Json × List Char)
  | 0, _ => none
  | fuel + 1, cs => do
    let (item, cs) ← readValue fuel cs
    match skipSpace cs with
    | ',' :: cs =>
      let (items, cs) ← readItems fuel cs
      some (item :: items, cs)
    | ']' :: cs => some ([item], cs)
    | _ => none

/-- Reads at least one member of an object, and its end. -/
def readMembers : Nat → List Char → Option (List (Option String × Json) × List Char)
  | 0, _ => none
  | fuel + 1, cs =>
    match skipSpace cs with
    | '"' :: cs => do
      let (name, cs) ← readString cs
      match skipSpace cs with
      | ':' :: cs =>
        let (value, cs) ← readValue fuel cs
        match skipSpace cs with
        | ',' :: cs =>
          let (members, cs) ← readMembers fuel cs
          some ((name, value) :: members, cs)
        | '\x7d' :: cs => some ([(name, value)], cs)
        | _ => none
      | _ => none
    | _ => none

end

/-- The value that a text writes, with nothing but space around it. -/
def read? (text : String) : Option Json := do
  let cs := text.toList
  let (value, cs) ← readValue (2 * cs.length + 2) cs
  if (skipSpace cs).isEmpty then some value else none

end Json

end ParseForest
