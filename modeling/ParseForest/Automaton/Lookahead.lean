import ParseForest.Grammar.Symbol

/-!
# Lookaheads

A reduction looks at the next terminal, or at the end of all input after the token that marks it. A
set of lookaheads is the number whose binary digits say which are members: terminal `t` is digit
`t`, the end is the digit after the last terminal. A set has room for whole blocks of 64 digits.

The same set can be kept in words, one for each block (`PackedSet`). There a digit is found by the number of
its word and its place in the word. The automaton is built on numbers, whose unions and comparisons are each one
operation on all digits; words are how such a set is laid out. As long as numbers of terminals have 32 bits, the
same calls give the same digits in both forms. The word form keeps a larger number of terminals as the largest of
32 bits, so there the end has the digit of a terminal.
-/

namespace ParseForest

/-- What may follow a reduction. -/
inductive Lookahead
  | terminal (id : TerminalId)
  /-- Nothing is left, not even the end-of-input token -/
  | finish
deriving DecidableEq, Hashable

/-- Terminals in increasing order, then the end. -/
def Lookahead.le : Lookahead → Lookahead → Bool
  | .terminal a, .terminal b => a ≤ b
  | .terminal _, .finish => true
  | .finish, .terminal _ => false
  | .finish, .finish => true

/-- A set of lookaheads over a number of terminals. -/
structure LookaheadSet where
  digits : Nat
  terminals : Nat
deriving DecidableEq, Inhabited

namespace LookaheadSet

/-- Digits per block. -/
def blockSize : Nat := 64

/-- The empty set over a number of terminals. -/
def empty (terminals : Nat) : LookaheadSet := ⟨0, terminals⟩

variable (s : LookaheadSet)

/-- Number of digits the set has room for. -/
def capacity : Nat := (s.terminals + 1 + (blockSize - 1)) / blockSize * blockSize

/-- The digit of a lookahead. -/
def slot : Lookahead → Nat
  | .terminal id => id
  | .finish => s.terminals

/-- The lookahead of a digit. -/
def ofSlot (i : Nat) : Lookahead := if i = s.terminals then .finish else .terminal i

/-- Adds a member, if there is room for it. -/
def insert (l : Lookahead) : LookaheadSet :=
  if s.slot l < s.capacity then { s with digits := s.digits ||| (1 <<< s.slot l) } else s

/-- Membership. -/
def contains (l : Lookahead) : Bool := s.digits.testBit (s.slot l)

/-- Adds the members of another set that there is room for. -/
def union (t : LookaheadSet) : LookaheadSet :=
  { s with digits := s.digits ||| (t.digits % (1 <<< s.capacity)) }

/-- True when there is no member. -/
def isEmpty : Bool := s.digits == 0

/-- Whether a lookahead is one of the members. The number after the last terminal stands for the
end and is no terminal. -/
def lists : Lookahead → Bool
  | .terminal id => id != s.terminals && s.digits.testBit id
  | .finish => s.digits.testBit s.terminals

/-- The digits of the members, in increasing order. -/
def slots : List Nat := (List.range s.capacity).filter s.digits.testBit

/-- Number of members. -/
def size : Nat := s.slots.length

/-- The members, in order of their digits. -/
def members : List Lookahead := s.slots.map s.ofSlot

end LookaheadSet

/-- A set of lookaheads over a number of terminals, in words of 64 digits, the lowest first. -/
structure PackedSet where
  words : Array UInt64
  terminals : UInt32
deriving DecidableEq, Inhabited

namespace PackedSet

/-- Digits per word. -/
def wordSize : Nat := 64

/-- Number of words that take the digits of some terminals and that of the end. -/
def wordCount (terminals : Nat) : Nat := (terminals + 1 + (wordSize - 1)) / wordSize

/-- The empty set over a number of terminals, which is kept as the largest of 32 bits if it is larger. -/
def empty (terminals : Nat) : PackedSet :=
  ⟨Array.replicate (wordCount terminals) 0, UInt32.ofNatClamp terminals⟩

/-- The word in which only the digit at a place is set. -/
def digitAt (place : Nat) : UInt64 := 1 <<< UInt64.ofNat place

/-- The places of the digits that are set in a word, in increasing order. -/
def onesOf (word : UInt64) : List Nat :=
  if word = 0 then [] else (List.range wordSize).filter fun place => word &&& digitAt place != 0

variable (s : PackedSet)

/-- The digit of a lookahead. -/
def slot : Lookahead → Nat
  | .terminal id => id
  | .finish => s.terminals.toNat

/-- The lookahead of a digit, if it is that of the end or no larger than terminals can be. -/
def ofSlot? (i : Nat) : Option Lookahead :=
  if i = s.terminals.toNat then some .finish
  else if i < UInt32.size then some (.terminal i)
  else none

/-- Adds a member, if there is a word for it. -/
def insert? (l : Lookahead) : Option PackedSet :=
  if s.slot l / wordSize < s.words.size then
    some { s with
      words := s.words.modify (s.slot l / wordSize) (· ||| digitAt (s.slot l % wordSize)) }
  else none

/-- Membership. -/
def contains (l : Lookahead) : Bool :=
  (s.words[s.slot l / wordSize]?).any fun word => word &&& digitAt (s.slot l % wordSize) != 0

/-- Adds the members of another set, as far as both have words, and says whether this changed a word. -/
def unionWith (t : PackedSet) : PackedSet × Bool :=
  ({ s with words := s.words.mapIdx fun k mine => mine ||| t.words.getD k 0 },
    (s.words.zip t.words).any fun (mine, theirs) => mine ||| theirs != mine)

/-- True when there is no member. -/
def isEmpty : Bool := s.words.all (· == 0)

/-- Number of members, counted word by word. -/
def size : Nat := s.words.foldl (fun n word => n + (onesOf word).length) 0

/-- The members of which the digits are in the word with a number. -/
def membersIn (k : Nat) (word : UInt64) : List Lookahead :=
  (onesOf word).filterMap fun place => s.ofSlot? (wordSize * k + place)

/-- The members, word by word and in each in order of their digits. -/
def members : List Lookahead :=
  s.words.size.foldRev (fun k h rest => s.membersIn k s.words[k] ++ rest) []

end PackedSet

end ParseForest
