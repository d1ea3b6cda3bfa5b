import ParseForest.Text.CharSet
import ParseForest.Text.Property

/-!
# Patterns

A regular expression after reading: classes, flags and escapes are resolved, so that a pattern is
built from texts, character sets and assertions by sequence, choice and repetition. A choice prefers
its first branch, a greedy repetition one more round, a lazy one to stop.

Patterns are kept in a normal form, which `sequence`, `choices`, `repeated` and `ofSet` make: a
sequence is not the first part of another, nor a choice the first branch of another; two texts do
not follow each other; a set has more than one member or none; and what takes no character is not
repeated more than once.
-/

namespace ParseForest

/-! ## Assertions -/

/-- The characters that words are made of. -/
inductive WordAlphabet
  /-- Word characters of every script -/
  | all
  /-- Letters, digits and the underscore among the first 128 characters -/
  | ascii
deriving DecidableEq

/-- What ends a line. -/
inductive LineEnding
  /-- A newline -/
  | newline
  /-- A newline, a carriage return, or both in this order: carriage return, newline -/
  | anyReturn
deriving DecidableEq

/-- A test on a position of the text that takes no character. -/
inductive Assertion
  | textStart
  | textEnd
  | lineStart (ending : LineEnding)
  | lineEnd (ending : LineEnding)
  | wordEdge (alphabet : WordAlphabet)
  | notWordEdge (alphabet : WordAlphabet)
  | wordStart (alphabet : WordAlphabet)
  | wordEnd (alphabet : WordAlphabet)
  | wordStartHalf (alphabet : WordAlphabet)
  | wordEndHalf (alphabet : WordAlphabet)
deriving DecidableEq

/-- True of a word character. -/
def WordAlphabet.contains (alphabet : WordAlphabet) (c : Char) : Bool :=
  match alphabet with
  | .all => CharSet.word.contains c
  | .ascii => c.isAlphanum || c == '_'

/-- True when the position holds a word character. -/
def WordAlphabet.isAt (alphabet : WordAlphabet) (c : Option Char) : Bool := c.any alphabet.contains

/-- Whether a line starts between the characters `before` and `after`. -/
def LineEnding.startsLine (ending : LineEnding) (before after : Option Char) : Bool :=
  match ending with
  | .newline => before.isNone || before == some '\n'
  | .anyReturn =>
    before.isNone || before == some '\n' || (before == some '\r' && after != some '\n')

/-- Whether a line ends between the characters `before` and `after`. -/
def LineEnding.endsLine (ending : LineEnding) (before after : Option Char) : Bool :=
  match ending with
  | .newline => after.isNone || after == some '\n'
  | .anyReturn =>
    after.isNone || after == some '\r' || (after == some '\n' && before != some '\r')

/-- Whether the assertion holds between the characters `before` and `after`. -/
def Assertion.holds (before after : Option Char) : Assertion → Bool
  | .textStart => before.isNone
  | .textEnd => after.isNone
  | .lineStart ending => ending.startsLine before after
  | .lineEnd ending => ending.endsLine before after
  | .wordEdge alphabet => alphabet.isAt before != alphabet.isAt after
  | .notWordEdge alphabet => alphabet.isAt before == alphabet.isAt after
  | .wordStart alphabet => !alphabet.isAt before && alphabet.isAt after
  | .wordEnd alphabet => alphabet.isAt before && !alphabet.isAt after
  | .wordStartHalf alphabet => !alphabet.isAt before
  | .wordEndHalf alphabet => !alphabet.isAt after

/-! ## Patterns -/

/-- A regular expression. -/
inductive Pattern
  | empty
  | text (chars : List Char)
  | set (chars : CharSet)
  | check (test : Assertion)
  /-- A numbered group, which matches as its body does -/
  | group (number : Nat) (body : Pattern)
  | loop (body : Pattern) (least : Nat) (most : Option Nat) (greedy : Bool)
  | seq (first rest : Pattern)
  | choice (first rest : Pattern)
deriving DecidableEq

namespace Pattern

/-- The pattern of one character of a set. -/
def ofSet (chars : CharSet) : Pattern :=
  match chars.only? with
  | some c => .text [c]
  | none => .set chars

/-- The pattern that never matches. -/
def never : Pattern := .set .empty

/-- The parts of a sequence; the one part of anything else. -/
def parts : Pattern → List Pattern
  | .empty => []
  | .seq p q => p :: q.parts
  | p => [p]

/-- The branches of a choice; the one branch of anything else. -/
def branches : Pattern → List Pattern
  | .choice p q => p :: q.branches
  | p => [p]

/-- The sequence of parts. -/
def ofParts : List Pattern → Pattern
  | [] => .empty
  | [p] => p
  | p :: ps => .seq p (ofParts ps)

/-- The choice between branches. -/
def ofBranches : List Pattern → Pattern
  | [] => never
  | [p] => p
  | p :: ps => .choice p (ofBranches ps)

/-- Makes one text of texts that follow each other. -/
def joinTexts : List Pattern → List Pattern
  | [] => []
  | .text cs :: ps =>
    match joinTexts ps with
    | .text ds :: ps => .text (cs ++ ds) :: ps
    | ps => .text cs :: ps
  | p :: ps => p :: joinTexts ps

/-- The sequence of all the patterns. -/
def sequence (ps : List Pattern) : Pattern := ofParts (joinTexts (ps.flatMap parts))

/-- Number of constructors. -/
def nodes : Pattern → Nat
  | .group _ p => p.nodes + 1
  | .loop p _ _ _ => p.nodes + 1
  | .seq p q => p.nodes + q.nodes + 1
  | .choice p q => p.nodes + q.nodes + 1
  | _ => 1

/-- The character of a text of one. -/
def char? : Pattern → Option Char
  | .text [c] => some c
  | _ => none

/-- The characters of a set. -/
def set? : Pattern → Option CharSet
  | .set s => some s
  | _ => none

/-- The parts of a sequence of several. -/
def manyParts? : Pattern → Option (List Pattern)
  | .seq p q => some (p :: q.parts)
  | _ => none

/-- The longest list that both lists begin with. -/
def sharedStart : List Pattern → List Pattern → List Pattern
  | p :: ps, q :: qs => if p = q then p :: sharedStart ps qs else []
  | _, _ => []

/-- What all the branches begin with, if each is a sequence of several parts. -/
def sharedParts (ps : List Pattern) : List Pattern :=
  match ps.mapM manyParts? with
  | some (first :: others) => others.foldl sharedStart first
  | _ => []

/-- The choice between all the patterns, the earlier ones preferred. A choice between characters, or
between sets, is a set; and what all branches begin with is taken out in front. The fuel bounds how
often there is something to take out. -/
def choicesWith : Nat → List Pattern → Pattern
  | 0, ps => ofBranches ps
  | fuel + 1, ps =>
    match ps.flatMap branches with
    | [] => never
    | [p] => p
    | ps =>
      match ps.mapM char?, ps.mapM set? with
      | some cs, _ => ofSet (.ofChars cs)
      | none, some sets => ofSet (.unions sets)
      | none, none =>
        match sharedParts ps with
        | [] => ofBranches ps
        | shared =>
          let rests := ps.map fun p => sequence (p.parts.drop shared.length)
          sequence (shared ++ [choicesWith fuel rests])

/-- The choice between all the patterns, the earlier ones preferred. -/
def choices : List Pattern → Pattern
  | [p] => p
  | ps => choicesWith (ps.foldl (fun n p => n + p.nodes) 1) ps

/-! ## Lengths -/

/-- True when every match is empty. -/
def isBlank : Pattern → Bool
  | .empty => true
  | .text cs => cs.isEmpty
  | .set _ => false
  | .check _ => true
  | .group _ p => p.isBlank
  | .loop p _ most _ => most.isSome && p.isBlank
  | .seq p q => p.isBlank && q.isBlank
  | .choice p q => p.isBlank && q.isBlank

/-- The least number of characters in a match, or `none` for a pattern that cannot match. -/
def leastLength : Pattern → Option Nat
  | .empty => some 0
  | .text cs => some cs.length
  | .set s => if s.isEmpty then none else some 1
  | .check _ => some 0
  | .group _ p => p.leastLength
  | .loop p least _ _ => p.leastLength.map (· * least)
  | .seq p q => do some ((← p.leastLength) + (← q.leastLength))
  | .choice p q => do some (min (← p.leastLength) (← q.leastLength))

/-- True when every match has a character. -/
def takesChar (p : Pattern) : Bool := p.leastLength.any (0 < ·)

/-- The pattern from `least` to `most` times in a row. -/
def repeated (p : Pattern) (least : Nat) (most : Option Nat) (greedy : Bool) : Pattern :=
  let (least, most) :=
    if p.isBlank then (min least 1, some (min (most.getD 1) 1)) else (least, most)
  if least = 0 ∧ most = some 0 then .empty
  else if least = 1 ∧ most = some 1 then p
  else .loop p least most greedy

/-! ## Anchors -/

/-- True when every match begins at the start of the text. -/
def isAnchored : Pattern → Bool
  | .check .textStart => true
  | .group _ p => p.isAnchored
  | .loop p least _ _ => 0 < least && p.isAnchored
  | .seq p q => p.isAnchored || (p.isBlank && q.isAnchored)
  | .choice p q => p.isAnchored && q.isAnchored
  | _ => false

/-- True when every match ends at the end of the text. -/
def isEndAnchored : Pattern → Bool
  | .check .textEnd => true
  | .group _ p => p.isEndAnchored
  | .loop p least _ _ => 0 < least && p.isEndAnchored
  | .seq p q => q.isEndAnchored || (q.isBlank && p.isEndAnchored)
  | .choice p q => p.isEndAnchored && q.isEndAnchored
  | _ => false

end Pattern

end ParseForest
