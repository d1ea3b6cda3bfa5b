import ParseForest.Pattern.Basic
import ParseForest.Text.CharSet
import ParseForest.Text.Folding
import ParseForest.Text.Named
import ParseForest.Text.Property

/-!
# Flags, blanks, numbers and escapes of pattern text

What the reader of groups and the reader of bracketed classes share. Every reader takes the
characters that are left and answers with what it read and the characters after it, or with `none`
when the text is no pattern.
-/

namespace ParseForest

/-- The flags in force at a point of pattern text. -/
structure PatternFlags where
  ignoreCase : Bool
  multiLine : Bool
  dotMatchesNewline : Bool
  swapGreed : Bool
  unicode : Bool
  returnEndsLine : Bool
  extended : Bool
deriving DecidableEq

/-- Case matters, the text is one line, the dot stops at its end, `*` is greedy, characters of every
script are classified, only a newline ends a line, blanks count. -/
def PatternFlags.initial : PatternFlags := ⟨false, false, false, false, true, false, false⟩

/-- Switches the flag of one letter on or off. -/
def PatternFlags.assign (flags : PatternFlags) (letter : Char) (on : Bool) : Option PatternFlags :=
  match letter with
  | 'i' => some { flags with ignoreCase := on }
  | 'm' => some { flags with multiLine := on }
  | 's' => some { flags with dotMatchesNewline := on }
  | 'U' => some { flags with swapGreed := on }
  | 'u' => some { flags with unicode := on }
  | 'R' => some { flags with returnEndsLine := on }
  | 'x' => some { flags with extended := on }
  | _ => none

/-- The characters that words are made of. -/
def PatternFlags.alphabet (flags : PatternFlags) : WordAlphabet :=
  if flags.unicode then .all else .ascii

/-- What ends a line. -/
def PatternFlags.lineEnding (flags : PatternFlags) : LineEnding :=
  if flags.returnEndsLine then .anyReturn else .newline

/-- Adds the case variants of the members, where case does not matter. -/
def PatternFlags.fold (flags : PatternFlags) (s : CharSet) : CharSet :=
  if !flags.ignoreCase then s
  else if flags.unicode then s.closeUnderCase
  else s.closeUnderAsciiCase

namespace PatternText

/-- What a piece of pattern text stands for, and how deeply that text is nested. -/
structure Nested (α : Type) where
  value : α
  depth : Nat

/-- Drops the rest of a comment, its newline included. -/
def dropLine : List Char → List Char
  | [] => []
  | c :: cs => if c = '\n' then cs else dropLine cs

theorem dropLine_length_le (cs : List Char) : (dropLine cs).length ≤ cs.length := by
  fun_induction dropLine cs <;> simp_all
  omega

/-- Drops blanks and comments. -/
def dropBlanks (cs : List Char) : List Char :=
  match cs with
  | [] => []
  | c :: rest =>
    if isBlank c then dropBlanks rest
    else if c = '#' then dropBlanks (dropLine rest)
    else c :: rest
termination_by cs.length
decreasing_by
  · simp
  · have := dropLine_length_le rest
    simp
    omega

/-- Drops blanks and comments where the flags say that they do not count. -/
def skip (flags : PatternFlags) (cs : List Char) : List Char :=
  if flags.extended then dropBlanks cs else cs

/-- The largest repetition count is one less than this. -/
def countLimit : Nat := 0x100000000

/-- Reads decimal digits, between which blanks may be skipped. -/
def readDigits (flags : PatternFlags) : Nat → List Char → List Char → List Char × List Char
  | 0, digits, cs => (digits.reverse, cs)
  | _ + 1, digits, [] => (digits.reverse, [])
  | fuel + 1, digits, c :: cs =>
    if c.isDigit then readDigits flags fuel (c :: digits) (skip flags cs)
    else (digits.reverse, c :: cs)

/-- The number that decimal digits write. -/
def ofDigits (digits : List Char) : Nat :=
  digits.foldl (fun n c => 10 * n + (c.toNat - '0'.toNat)) 0

/-- Reads a count, with blanks on either side: `some none` when there are no digits, `none` when the
count is too large. -/
def readCount (flags : PatternFlags) (cs : List Char) : Option (Option Nat) × List Char :=
  let cs := cs.dropWhile isBlank
  let (digits, cs) := readDigits flags (cs.length + 1) [] cs
  let cs := skip flags (cs.dropWhile isBlank)
  if digits.isEmpty then (some none, cs)
  else if ofDigits digits < countLimit then (some (some (ofDigits digits)), cs)
  else (none, cs)

/-- The characters that mean something in a pattern. -/
def isMeta (c : Char) : Bool :=
  ['\\', '.', '+', '*', '?', '(', ')', '|', '[', ']', '\x7b', '\x7d', '^', '$', '#', '&', '-',
    '~'].contains c

/-- The text as a pattern that matches it alone: a backslash before each character that means
something. -/
def escape (text : String) : String :=
  String.ofList (text.toList.flatMap fun c => if isMeta c then ['\\', c] else [c])

/-- The characters other than those of `isMeta` that a backslash leaves as they are. -/
def isPlainEscape (c : Char) : Bool :=
  c.toNat < 128 && !c.isAlphanum && c != '<' && c != '>'

/-- The value of a hexadecimal digit. -/
def hexValue? (c : Char) : Option Nat :=
  if c.isDigit then some (c.toNat - '0'.toNat)
  else if 'a' ≤ c ∧ c ≤ 'f' then some (c.toNat - 'a'.toNat + 10)
  else if 'A' ≤ c ∧ c ≤ 'F' then some (c.toNat - 'A'.toNat + 10)
  else none

/-- The character of a code point given by hexadecimal digits. -/
def ofHex? (digits : List Nat) : Option Char :=
  let code := digits.foldl (fun n d => 16 * n + d) 0
  if h : code.isValidChar then some (Char.ofNatAux code h) else none

/-- Reads exactly `n` hexadecimal digits. -/
def readHexDigits (flags : PatternFlags) : Nat → List Char → Option (List Nat × List Char)
  | 0, cs => some ([], cs)
  | _ + 1, [] => none
  | n + 1, c :: cs => do
    let digit ← hexValue? c
    let (digits, cs) ← readHexDigits flags n (skip flags cs)
    some (digit :: digits, cs)

/-- Reads hexadecimal digits up to a closing brace. -/
def readHexBraced (flags : PatternFlags) : Nat → List Char → Option (List Nat × List Char)
  | 0, _ => none
  | _ + 1, [] => none
  | fuel + 1, c :: cs =>
    if c = '\x7d' then some ([], skip flags cs)
    else do
      let digit ← hexValue? c
      let (digits, cs) ← readHexBraced flags fuel (skip flags cs)
      some (digit :: digits, cs)

/-- Reads the digits of a `\x`, `\u` or `\U` escape: `n` of them, or any number between braces.
Without the classes of every script, two digits stand for a byte, and a byte beyond the first 128 is
no character. -/
def readHex (flags : PatternFlags) (n : Nat) (cs : List Char) : Option (Char × List Char) := do
  let cs := skip flags cs
  let inBraces := cs.head? == some '\x7b'
  let (digits, cs) ←
    if inBraces then readHexBraced flags (cs.length + 1) (skip flags cs.tail)
    else readHexDigits flags n cs
  if digits.isEmpty then none
  else
    let c ← ofHex? digits
    if n = 2 && !inBraces && !flags.unicode && 128 ≤ c.toNat then none else some (c, cs)

/-- What an escape stands for. -/
inductive Escaped
  | char (c : Char)
  | chars (s : CharSet)
  | test (a : Assertion)

/-- The set of a class letter: `d` digits, `s` blanks, `w` word characters, and their complements in
upper case. Without the classes of every script, the letters stand for members among the first 128
characters, and there are no complements. -/
def classOf (flags : PatternFlags) (letter : Char) : Option CharSet :=
  let part (s : CharSet) : CharSet := if flags.unicode then s else s.inter (.range 0 127)
  let rest (s : CharSet) : Option CharSet := if flags.unicode then some s.complement else none
  match letter with
  | 'd' => some (part .digit)
  | 's' => some (part .blank)
  | 'w' => some (part .word)
  | 'D' => rest .digit
  | 'S' => rest .blank
  | 'W' => rest .word
  | _ => none

/-- Reads the name of a property in braces. -/
def readPropertyName (flags : PatternFlags) : Nat → List Char → Option (List Char × List Char)
  | 0, _ => none
  | _ + 1, [] => none
  | fuel + 1, c :: cs =>
    if c = '\x7d' then some ([], cs)
    else do
      let (name, cs) ← readPropertyName flags fuel (skip flags cs)
      some (c :: name, cs)

/-- Cuts a name at the first place where `mark` stands. -/
def cutAt (mark : List Char) : List Char → Option (List Char × List Char)
  | [] => none
  | c :: cs =>
    if mark.isPrefixOf (c :: cs) then some ([], (c :: cs).drop mark.length)
    else (cutAt mark cs).map fun (before, after) => (c :: before, after)

/-- The set that a name in braces stands for, and whether it is to be complemented: a property by
itself, or a property and a value after `!=`, `:` or `=`. -/
def setOfName (name : List Char) : Option CharSet × Bool :=
  let valued : List Char × List Char → Option CharSet := fun (property, value) =>
    CharSet.valued? (String.ofList property) (String.ofList value)
  match cutAt ['!', '='] name, cutAt [':'] name, cutAt ['='] name with
  | some parts, _, _ => (valued parts, true)
  | none, some parts, _ => (valued parts, false)
  | none, none, some parts => (valued parts, false)
  | none, none, none => (CharSet.named? (String.ofList name), false)

/-- Reads what follows `\p`, or `\P` if `negated`: a letter, or a name in braces. -/
def readProperty (flags : PatternFlags) (negated : Bool) (cs : List Char) :
    Option (CharSet × List Char) := do
  let ((set, unlike), cs) ← match skip flags cs with
    | [] => none
    | '\\' :: _ => none
    | '\x7b' :: cs =>
      (readPropertyName flags (cs.length + 1) (skip flags cs)).map fun (name, cs) =>
        (setOfName name, cs)
    | c :: cs => some ((CharSet.named? (String.singleton c), false), skip flags cs)
  let s := flags.fold (← set)
  if !flags.unicode then none
  else some (if negated != unlike then s.complement else s, cs)

/-- The names of the assertions written `\b` and a name in braces. -/
def namedEdge (alphabet : WordAlphabet) (name : String) : Option Assertion :=
  match name with
  | "start" => some (.wordStart alphabet)
  | "end" => some (.wordEnd alphabet)
  | "start-half" => some (.wordStartHalf alphabet)
  | "end-half" => some (.wordEndHalf alphabet)
  | _ => none

/-- True of the characters of such a name. -/
def isEdgeNameChar (c : Char) : Bool := c.isAlpha || c == '-'

/-- Reads the characters of such a name. -/
def readEdgeName (flags : PatternFlags) : Nat → List Char → List Char × List Char
  | 0, cs => ([], cs)
  | _ + 1, [] => ([], [])
  | fuel + 1, c :: cs =>
    if isEdgeNameChar c then
      let (name, cs) := readEdgeName flags fuel (skip flags cs)
      (c :: name, cs)
    else ([], c :: cs)

/-- Reads what follows `\b`: a name in braces, unless the brace opens a count. -/
def readWordEdge (flags : PatternFlags) (cs : List Char) : Option (Escaped × List Char) :=
  match cs with
  | '\x7b' :: inner =>
    match skip flags inner with
    | [] => none
    | c :: inner =>
      if isEdgeNameChar c then
        match readEdgeName flags (inner.length + 2) (c :: inner) with
        | (name, '\x7d' :: rest) =>
          (namedEdge flags.alphabet (String.ofList name)).map (.test ·, rest)
        | _ => none
      else some (.test (.wordEdge flags.alphabet), cs)
  | _ => some (.test (.wordEdge flags.alphabet), cs)

/-- Reads an escape, after its backslash. -/
def readEscape (flags : PatternFlags) : List Char → Option (Escaped × List Char)
  | [] => none
  | c :: cs =>
    if isMeta c || isPlainEscape c then some (.char c, cs)
    else match c with
      | 'x' => (readHex flags 2 cs).map fun (c, cs) => (.char c, cs)
      | 'u' => (readHex flags 4 cs).map fun (c, cs) => (.char c, cs)
      | 'U' => (readHex flags 8 cs).map fun (c, cs) => (.char c, cs)
      | 'p' => (readProperty flags false cs).map fun (s, cs) => (.chars s, cs)
      | 'P' => (readProperty flags true cs).map fun (s, cs) => (.chars s, cs)
      | 'a' => some (.char '\x07', cs)
      | 'f' => some (.char '\x0c', cs)
      | 't' => some (.char '\t', cs)
      | 'n' => some (.char '\n', cs)
      | 'r' => some (.char '\r', cs)
      | 'v' => some (.char '\x0b', cs)
      | 'A' => some (.test .textStart, cs)
      | 'z' => some (.test .textEnd, cs)
      | 'b' => readWordEdge flags cs
      | 'B' => some (.test (.notWordEdge flags.alphabet), cs)
      | '<' => some (.test (.wordStart flags.alphabet), cs)
      | '>' => some (.test (.wordEnd flags.alphabet), cs)
      | c => (classOf flags c).map (.chars ·, cs)

end PatternText

end ParseForest
