import ParseForest.Pattern.Bracket
import ParseForest.Pattern.Program
import ParseForest.Pattern.Weight
import ParseForest.Text.Latest

/-!
# Reading patterns

The syntax of patterns: alternatives between `|`, groups with numbers, names or flags, classes,
counted and uncounted repetition. There is no look-around and no reference to a group, so a pattern
that has one does not read; neither does one that is nested too deeply or too heavy.

The depth of pattern text is that of its tree. A character, a dot, an escape or an assertion has no
depth. A group and a repetition are one deeper than what they hold, a sequence of several parts and
several alternatives one deeper than the deepest of them.
-/

namespace ParseForest

namespace PatternText

/-- The largest depth of a pattern. -/
def nestingLimit : Nat := 250

/-! ## Parts of a group -/

/-- Pattern text without depth. -/
def flat (p : Pattern) : Nested Pattern := ⟨p, 0⟩

/-- The depth of the deepest. -/
def deepest (ps : List (Nested Pattern)) : Nat := ps.foldl (fun d p => max d p.depth) 0

/-- The depth of several pieces of text as a whole. -/
def depthOfAll (ps : List (Nested Pattern)) : Nat :=
  if ps.length ≤ 1 then deepest ps else deepest ps + 1

/-- A part of a sequence that has been read. A repetition cannot follow a change of flags, which
counts as a part. -/
structure Part where
  nested : Nested Pattern
  repeatable : Bool

/-- What a group has been read into so far: finished alternatives and the parts of the current one,
both last first. -/
structure GroupParts where
  alternatives : List (Nested Pattern)
  parts : List Part

/-- The group before anything has been read. -/
def GroupParts.nil : GroupParts := ⟨[], []⟩

namespace GroupParts

/-- The current alternative. -/
def current (g : GroupParts) : Nested Pattern :=
  let parts := g.parts.reverse.map Part.nested
  ⟨.sequence (parts.map Nested.value), depthOfAll parts⟩

/-- Ends the current alternative. -/
def close (g : GroupParts) : GroupParts := ⟨g.current :: g.alternatives, []⟩

/-- The whole group. -/
def whole (g : GroupParts) : Nested Pattern :=
  let alternatives := g.close.alternatives.reverse
  ⟨.choices (alternatives.map Nested.value), depthOfAll alternatives⟩

/-- Adds a part to the current alternative. -/
def push (g : GroupParts) (p : Nested Pattern) : GroupParts :=
  { g with parts := ⟨p, true⟩ :: g.parts }

/-- Adds the place of a change of flags. -/
def pushFlags (g : GroupParts) : GroupParts :=
  { g with parts := ⟨flat .empty, false⟩ :: g.parts }

/-- Repeats the last part. -/
def repeatLast (g : GroupParts) (least : Nat) (most : Option Nat) (greedy : Bool) :
    Option GroupParts :=
  match g.parts with
  | ⟨p, true⟩ :: parts =>
    some { g with parts := ⟨⟨p.value.repeated least most greedy, p.depth + 1⟩, true⟩ :: parts }
  | _ => none

end GroupParts

/-! ## Counts, names and flags -/

/-- Reads the `?` that makes a repetition lazy. -/
def readLazy : List Char → Bool × List Char
  | '?' :: cs => (true, cs)
  | cs => (false, cs)

/-- Reads a count in braces, after the opening one: the least and the most number of rounds. -/
def readBounds (flags : PatternFlags) (cs : List Char) : Option (Nat × Option Nat × List Char) := do
  let (least, cs) := readCount flags (skip flags cs)
  match cs with
  | [] => none
  | ',' :: cs =>
    match skip flags cs with
    | [] => none
    | '\x7d' :: cs =>
      let least ← (← least)
      some (least, none, cs)
    | cs =>
      let least ← (← least)
      let (most, cs) := readCount flags cs
      let most ← (← most)
      match cs with
      | '\x7d' :: cs => if least ≤ most then some (least, some most, cs) else none
      | _ => none
  | '\x7d' :: cs =>
    let least ← (← least)
    some (least, some least, cs)
  | _ => none

/-- True of a letter. -/
def isLetter (c : Char) : Bool :=
  CharSet.alphabetic.contains c || CharSet.latestAlphabetic.contains c

/-- True of a number. -/
def isNumber (c : Char) : Bool :=
  (CharSet.ofCategories ["nd", "nl", "no"]).contains c || CharSet.latestNumbers.contains c

/-- True of a character that may begin the name of a group. -/
def startsGroupName (c : Char) : Bool := c == '_' || isLetter c

/-- True of a character that may stand in the name of a group. -/
def inGroupName (c : Char) : Bool :=
  startsGroupName c || isNumber c || c == '.' || c == '[' || c == ']'

/-- Reads the name of a group, up to `>`. -/
def readGroupName (cs : List Char) : Option (List Char × List Char) :=
  let name := cs.takeWhile (· != '>')
  match name, cs.drop name.length with
  | c :: rest, '>' :: cs =>
    if startsGroupName c && rest.all inGroupName then some (name, cs) else none
  | _, _ => none

/-- Reads flags up to `:` or `)`; a dash switches those after it off. No flag and no dash may be
repeated, and the dash does not come last. Answers the flags, whether there was any, and the text
from the closing character on. -/
def readFlags (flags : PatternFlags) (seen : List Char) :
    List Char → Option (PatternFlags × Bool × List Char)
  | [] => none
  | c :: cs =>
    if c = ':' ∨ c = ')' then
      if seen.head? = some '-' then none else some (flags, !seen.isEmpty, c :: cs)
    else if seen.contains c then none
    else if c = '-' then readFlags flags (c :: seen) cs
    else do
      let flags ← flags.assign c (!seen.contains '-')
      readFlags flags (c :: seen) cs

/-! ## Groups -/

/-- What the text after an opening parenthesis begins. -/
inductive GroupHead
  /-- A group with a number and perhaps a name -/
  | numbered (name : Option (List Char))
  /-- A group without a number whose parts are read under these flags -/
  | plain (flags : PatternFlags)
  /-- A change of flags up to the end of the surrounding group -/
  | change (flags : PatternFlags)

/-- Reads the head of a group, after the opening parenthesis. -/
def readGroupHead (flags : PatternFlags) (cs : List Char) : Option (GroupHead × List Char) :=
  let named (cs : List Char) : Option (GroupHead × List Char) :=
    (readGroupName cs).map fun (name, cs) => (.numbered (some name), cs)
  match skip flags cs with
  | '?' :: '=' :: _ => none
  | '?' :: '!' :: _ => none
  | '?' :: '<' :: '=' :: _ => none
  | '?' :: '<' :: '!' :: _ => none
  | '?' :: 'P' :: '<' :: cs => named cs
  | '?' :: '<' :: cs => named cs
  | '?' :: cs =>
    match readFlags flags [] cs with
    | some (flags, any, ')' :: cs) => if any then some (.change flags, cs) else none
    | some (flags, _, ':' :: cs) => some (.plain flags, cs)
    | _ => none
  | cs => some (.numbered none, cs)

/-- The numbered groups that have been opened. -/
structure Groups where
  count : Nat
  names : List (List Char)

/-- No groups. -/
def Groups.nil : Groups := ⟨0, []⟩

/-- One more group. No two of them have one name. -/
def Groups.open? (groups : Groups) (name : Option (List Char)) : Option Groups :=
  match name with
  | none => some { groups with count := groups.count + 1 }
  | some name =>
    if groups.names.contains name then none else some ⟨groups.count + 1, name :: groups.names⟩

/-! ## Characters -/

/-- The pattern of one character. -/
def literal (flags : PatternFlags) (c : Char) : Pattern := .ofSet (flags.fold (.singleton c))

/-- The pattern of the dot. Without the classes of every script there is none. -/
def dot (flags : PatternFlags) : Option Pattern :=
  if !flags.unicode then none
  else if flags.dotMatchesNewline then some (.set .full)
  else match flags.lineEnding with
    | .newline => some (.set (CharSet.complement (.singleton '\n')))
    | .anyReturn => some (.set (CharSet.complement (.ofChars ['\n', '\r'])))

/-- The pattern of an escape. -/
def escaped (flags : PatternFlags) : Escaped → Pattern
  | .char c => literal flags c
  | .chars s => .ofSet s
  | .test a => .check a

/-- The assertion of a circumflex. -/
def startTest (flags : PatternFlags) : Assertion :=
  if flags.multiLine then .lineStart flags.lineEnding else .textStart

/-- The assertion of a dollar sign. -/
def endTest (flags : PatternFlags) : Assertion :=
  if flags.multiLine then .lineEnd flags.lineEnding else .textEnd

/-- Reads the parts of a group up to its closing parenthesis if it is `inner`, up to the end of the
text otherwise. -/
def readGroup : Nat → Bool → PatternFlags → Groups → GroupParts → List Char →
    Option (Nested Pattern × Groups × List Char)
  | 0, _, _, _, _, _ => none
  | fuel + 1, inner, flags, groups, g, cs =>
    let push (p : Pattern) (cs : List Char) : Option (Nested Pattern × Groups × List Char) :=
      readGroup fuel inner flags groups (g.push (flat p)) cs
    let counted (least : Nat) (most : Option Nat) (cs : List Char) :
        Option (Nested Pattern × Groups × List Char) := do
      let (isLazy, cs) := readLazy cs
      let g ← g.repeatLast least most (isLazy == flags.swapGreed)
      readGroup fuel inner flags groups g cs
    match skip flags cs with
    | [] => if inner then none else some (g.whole, groups, [])
    | ')' :: cs => if inner then some (g.whole, groups, cs) else none
    | '|' :: cs => readGroup fuel inner flags groups g.close cs
    | '*' :: cs => counted 0 none cs
    | '+' :: cs => counted 1 none cs
    | '?' :: cs => counted 0 (some 1) cs
    | '\x7b' :: cs => do
      let (least, most, cs) ← readBounds flags cs
      counted least most (skip flags cs)
    | '(' :: cs => do
      let (head, cs) ← readGroupHead flags cs
      match head with
      | .change flags => readGroup fuel inner flags groups g.pushFlags cs
      | .plain changed =>
        let (p, groups, cs) ← readGroup fuel true changed groups .nil cs
        readGroup fuel inner flags groups (g.push ⟨p.value, p.depth + 1⟩) cs
      | .numbered name =>
        let opened ← groups.open? name
        let (p, groups, cs) ← readGroup fuel true flags opened .nil cs
        readGroup fuel inner flags groups (g.push ⟨.group opened.count p.value, p.depth + 1⟩) cs
    | '[' :: cs => do
      let (s, cs) ← readBracket flags fuel cs
      readGroup fuel inner flags groups (g.push ⟨.ofSet s.value, s.depth⟩) cs
    | '.' :: cs => do push (← dot flags) cs
    | '^' :: cs => push (.check (startTest flags)) cs
    | '$' :: cs => push (.check (endTest flags)) cs
    | '\\' :: cs => do
      let (e, cs) ← readEscape flags cs
      push (escaped flags e) cs
    | c :: cs => push (literal flags c) cs

end PatternText

/-- Reads a pattern, or answers `none` when the text is none or the pattern is nested too deeply or
too heavy. -/
def Pattern.read? (text : String) : Option Pattern := do
  let cs := text.toList
  let (p, _, _) ← PatternText.readGroup (cs.length + 1) false .initial .nil .nil cs
  if p.depth ≤ PatternText.nestingLimit && !p.value.isHeavy then some p.value else none

/-- Reads and compiles a pattern. -/
def Matcher.ofText? (text : String) : Option Matcher := (Pattern.read? text).map .ofPattern

end ParseForest
