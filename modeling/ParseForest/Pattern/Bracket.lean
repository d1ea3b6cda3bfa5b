import ParseForest.Pattern.Escape

/-!
# Bracketed classes

A bracketed class lists characters, ranges, escapes, named classes and further bracketed classes;
`&&`, `--` and `~~` combine what stands before them with what follows, from left to right. Beside
the set, the reader keeps count of how deeply the class is nested.
-/

namespace ParseForest

namespace PatternText

/-- The items of a class: their members, their number, and the depth of the deepest. -/
structure ClassItems where
  chars : CharSet
  count : Nat
  deepest : Nat

namespace ClassItems

/-- No items. -/
def nil : ClassItems := ⟨.empty, 0, 0⟩

/-- One more item. -/
def add (items : ClassItems) (item : Nested CharSet) : ClassItems :=
  ⟨items.chars.union item.value, items.count + 1, max items.deepest item.depth⟩

/-- One more item, of one character. -/
def addChar (items : ClassItems) (c : Char) : ClassItems := items.add ⟨.singleton c, 0⟩

/-- The items as a whole: several of them are one level deeper than the deepest. -/
def whole (items : ClassItems) : Nested CharSet :=
  ⟨items.chars, if items.count ≤ 1 then items.deepest else items.deepest + 1⟩

end ClassItems

/-- What combines two parts of a bracketed class. -/
inductive SetOperation
  | inter
  | diff
  | symmDiff

/-- The set of two operands. -/
def SetOperation.apply : SetOperation → CharSet → CharSet → CharSet
  | .inter => CharSet.inter
  | .diff => CharSet.diff
  | .symmDiff => CharSet.symmDiff

/-- The classes that have a name between `[:` and `:]`; all their members are among the first 128
characters. -/
def namedClass (name : String) : Option CharSet :=
  let span (lo hi : Char) : CharSet := .range lo.toNat hi.toNat
  let digits := span '0' '9'
  let letters := (span 'A' 'Z').union (span 'a' 'z')
  match name with
  | "alnum" => some (digits.union letters)
  | "alpha" => some letters
  | "ascii" => some (.range 0 127)
  | "blank" => some (.ofCodes [9, 32])
  | "cntrl" => some ((CharSet.range 0 31).union (.range 127 127))
  | "digit" => some digits
  | "graph" => some (span '!' '~')
  | "lower" => some (span 'a' 'z')
  | "print" => some (span ' ' '~')
  | "punct" => some (((span '!' '/').union (span ':' '@')).union
      ((span '[' (Char.ofNat 96)).union (span '\x7b' '~')))
  | "space" => some ((CharSet.range 9 13).union (.range 32 32))
  | "upper" => some (span 'A' 'Z')
  | "word" => some ((digits.union letters).union (span '_' '_'))
  | "xdigit" => some ((digits.union (span 'A' 'F')).union (span 'a' 'f'))
  | _ => none

/-- The members, or their complement. Without the classes of every script there are no
complements. -/
def negateIf (flags : PatternFlags) (negated : Bool) (s : CharSet) : Option CharSet :=
  if !negated then some s
  else if flags.unicode then some s.complement
  else none

/-- Reads `:name:]` or `:^name:]`, after the opening bracket: the set, and whether it is negated. -/
def readNamedClass : List Char → Option ((CharSet × Bool) × List Char)
  | ':' :: cs =>
    let (negated, cs) := match cs with
      | '^' :: cs => (true, cs)
      | cs => (false, cs)
    let name := cs.takeWhile (· != ':')
    match cs.drop name.length with
    | ':' :: ']' :: rest =>
      (namedClass (String.ofList name)).map fun s => ((s, negated), rest)
    | _ => none
  | _ => none

/-- Reads dashes, each of which stands for itself. -/
def readDashes (flags : PatternFlags) : Nat → ClassItems → List Char → ClassItems × List Char
  | fuel + 1, items, '-' :: cs => readDashes flags fuel (items.addChar '-') (skip flags cs)
  | _, items, cs => (items, cs)

/-- Reads what may follow an opening bracket: `^`, then literal dashes, then a literal `]` if
nothing stands before it. Answers whether the class is negated and what it holds so far. -/
def openBracket (flags : PatternFlags) (fuel : Nat) (cs : List Char) :
    Bool × ClassItems × List Char :=
  let cs := skip flags cs
  let (negated, cs) := match cs with
    | '^' :: cs => (true, skip flags cs)
    | cs => (false, cs)
  match readDashes flags fuel .nil cs with
  | (items, ']' :: cs) =>
    if items.count = 0 then (negated, items.addChar ']', skip flags cs)
    else (negated, items, ']' :: cs)
  | (items, cs) => (negated, items, cs)

/-- Reads one character or escape of a class. -/
def readClassItem (flags : PatternFlags) : List Char → Option (Escaped × List Char)
  | '\\' :: cs => readEscape flags cs
  | c :: cs => some (.char c, cs)
  | [] => none

/-- The character that follows a dash in a class. Blanks do not count where the flags say so, nor
does the sign that begins a comment. -/
def afterDash? (flags : PatternFlags) (cs : List Char) : Option Char :=
  if !flags.extended then cs.head?
  else
    match cs.dropWhile isBlank with
    | [] => cs.head?
    | '#' :: rest =>
      match rest.dropWhile isBlank with
      | [] => cs.head?
      | c :: _ => some c
    | c :: _ => some c

/-- The character as a member of a class. Without the classes of every script only the first 128
characters are members. -/
def member? (flags : PatternFlags) (c : Char) : Option Char :=
  if flags.unicode || c.toNat < 128 then some c else none

/-- Reads one item of a class, or a range between two characters. A dash before `]` or another dash
makes no range. -/
def readClassRange (flags : PatternFlags) (cs : List Char) : Option (CharSet × List Char) := do
  let (first, cs) ← readClassItem flags cs
  let cs := skip flags cs
  let alone : Option (CharSet × List Char) := match first with
    | .char c => (member? flags c).map fun c => (.singleton c, cs)
    | .chars s => some (s, cs)
    | .test _ => none
  match cs with
  | [] => none
  | '-' :: after =>
    if afterDash? flags after = some ']' ∨ afterDash? flags after = some '-' then alone
    else
      let (last, cs) ← readClassItem flags (skip flags after)
      match first, last with
      | .char lo, .char hi =>
        let lo ← member? flags lo
        let hi ← member? flags hi
        if lo ≤ hi then some (.between lo hi, cs) else none
      | _, _ => none
  | _ => alone

/-- An operation that waits for its right operand. -/
structure Pending where
  left : Nested CharSet
  operation : SetOperation

/-- Applies a pending operation to its two operands. -/
def applyPending (flags : PatternFlags) (pending : Option Pending) (items : ClassItems) :
    Nested CharSet :=
  match pending with
  | none => items.whole
  | some p =>
    let right := items.whole
    ⟨p.operation.apply (flags.fold p.left.value) (flags.fold right.value),
      max p.left.depth right.depth + 1⟩

/-- Reads the items of a bracketed class up to its closing bracket. `pending` is the operation
before them. -/
def readItems (flags : PatternFlags) :
    Nat → Option Pending → ClassItems → List Char → Option (Nested CharSet × List Char)
  | 0, _, _, _ => none
  | fuel + 1, pending, items, cs =>
    let operation (op : SetOperation) (rest : List Char) : Option (Nested CharSet × List Char) :=
      readItems flags fuel (some ⟨applyPending flags pending items, op⟩) .nil rest
    match skip flags cs with
    | [] => none
    | ']' :: rest => some (applyPending flags pending items, rest)
    | '[' :: rest =>
      match readNamedClass rest with
      | some ((s, negated), rest) => do
        let s ← negateIf flags negated (flags.fold s)
        readItems flags fuel pending (items.add ⟨s, 0⟩) rest
      | none => do
        let (negated, start, rest) := openBracket flags fuel rest
        let (inner, rest) ← readItems flags fuel none start rest
        let s ← negateIf flags negated (flags.fold inner.value)
        readItems flags fuel pending (items.add ⟨s, inner.depth + 1⟩) rest
    | '&' :: '&' :: rest => operation .inter rest
    | '-' :: '-' :: rest => operation .diff rest
    | '~' :: '~' :: rest => operation .symmDiff rest
    | cs => do
      let (s, rest) ← readClassRange flags cs
      readItems flags fuel pending (items.add ⟨s, 0⟩) rest

/-- Reads a bracketed class, after its opening bracket. The fuel is to be more than the number of
characters. -/
def readBracket (flags : PatternFlags) (fuel : Nat) (cs : List Char) :
    Option (Nested CharSet × List Char) := do
  let (negated, start, cs) := openBracket flags fuel cs
  let (inner, rest) ← readItems flags fuel none start cs
  let s ← negateIf flags negated (flags.fold inner.value)
  some (⟨s, inner.depth + 1⟩, rest)

end PatternText

end ParseForest
