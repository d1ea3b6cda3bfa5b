/-!
# Character sets

A set of code points is kept as the increasing list of the code points at which membership
changes: a member is a code point with an odd number of changes at or before it. Set algebra
is then one merge of two change lists (`CharSet.combine`), and membership a binary search. Tables
are texts of gaps between changes (`CharSet.ofGaps`).
-/

namespace ParseForest

/-- A set of code points, given by the code points where membership changes, in increasing order. -/
structure CharSet where
  changes : Array Nat
deriving DecidableEq

namespace CharSet

/-- One more than the largest code point. -/
def limit : Nat := 0x110000

/-- How many of the changes `lo ≤ i < hi` lie at or before `c`, plus `lo`, by bisection. -/
def rank (changes : Array Nat) (c lo hi : Nat) : Nat :=
  if lo < hi then
    let mid := (lo + hi) / 2
    if changes.getD mid 0 ≤ c then rank changes c (mid + 1) hi else rank changes c lo mid
  else lo
termination_by hi - lo

/-- Membership of a code point. -/
def containsCode (s : CharSet) (c : Nat) : Bool :=
  rank s.changes c 0 s.changes.size % 2 == 1

/-- Membership of a character. -/
def contains (s : CharSet) (c : Char) : Bool := s.containsCode c.toNat

/-- The set without members. -/
def empty : CharSet := ⟨#[]⟩

/-- The code points `lo` to `hi`, both included. -/
def range (lo hi : Nat) : CharSet := if lo ≤ hi then ⟨#[lo, hi + 1]⟩ else empty

/-- The set of one character. -/
def singleton (c : Char) : CharSet := range c.toNat c.toNat

/-- Every character: the code points but for the surrogates. -/
def full : CharSet := ⟨#[0, 0xD800, 0xE000, limit]⟩

/-- The changes of `f a b`, where `a` and `b` say whether the current code point is in the first
and in the second set, and `out` whether it is in the result so far. -/
def merge (f : Bool → Bool → Bool) (a b out : Bool) : List Nat → List Nat → List Nat
  | [], [] => []
  | x :: xs, [] => flip x (!a) b (merge f (!a) b (f (!a) b) xs [])
  | [], y :: ys => flip y a (!b) (merge f a (!b) (f a (!b)) [] ys)
  | x :: xs, y :: ys =>
    if x < y then flip x (!a) b (merge f (!a) b (f (!a) b) xs (y :: ys))
    else if y < x then flip y a (!b) (merge f a (!b) (f a (!b)) (x :: xs) ys)
    else flip x (!a) (!b) (merge f (!a) (!b) (f (!a) (!b)) xs ys)
termination_by xs ys => xs.length + ys.length
where
  /-- Keeps the change at `c` when the result changes there. -/
  flip (c : Nat) (a' b' : Bool) (rest : List Nat) : List Nat :=
    if f a' b' == out then rest else c :: rest

/-- The set whose members are those `f` accepts, for `f false false = false`. -/
def combine (f : Bool → Bool → Bool) (s t : CharSet) : CharSet :=
  ⟨(merge f false false false s.changes.toList t.changes.toList).toArray⟩

/-- Union. -/
def union (s t : CharSet) : CharSet := combine (· || ·) s t

/-- Intersection. -/
def inter (s t : CharSet) : CharSet := combine (· && ·) s t

/-- Difference. -/
def diff (s t : CharSet) : CharSet := combine (fun a b => a && !b) s t

/-- Members of exactly one of the two sets. -/
def symmDiff (s t : CharSet) : CharSet := combine (fun a b => a != b) s t

/-- Every character that is not a member. -/
def complement (s : CharSet) : CharSet := diff full s

/-- True when there is no member. -/
def isEmpty (s : CharSet) : Bool := s.changes.isEmpty

/-- The characters `lo` to `hi`, both included. -/
def between (lo hi : Char) : CharSet := (range lo.toNat hi.toNat).inter full

/-- The union of all the sets. -/
def unions (sets : List CharSet) : CharSet := sets.foldl union empty

/-- The set of the listed code points. -/
def ofCodes (codes : List Nat) : CharSet := unions (codes.map fun c => range c c)

/-- The set of the listed characters. -/
def ofChars (cs : List Char) : CharSet := unions (cs.map singleton)

/-- The first and the last code point of each run of members. -/
def runs (s : CharSet) : List (Nat × Nat) := pairs s.changes.toList
where
  /-- A run ends before the next change. -/
  pairs : List Nat → List (Nat × Nat)
    | lo :: hi :: rest => (lo, hi - 1) :: pairs rest
    | _ => []

/-- True when all members are among the first 128 characters. -/
def isAscii (s : CharSet) : Bool := s.changes.all (· ≤ 128)

/-- The only member, if there is just one. -/
def only? (s : CharSet) : Option Char :=
  match s.runs with
  | [(lo, hi)] => if lo = hi then some (Char.ofNat lo) else none
  | _ => none

/-! ## Tables -/

/-- The value of a digit of base 36. -/
def gapDigit (c : Char) : Nat :=
  if c.isDigit then c.toNat - '0'.toNat else c.toNat - 'a'.toNat + 10

/-- Reads numbers of base 36 between blanks, and answers with their running sums. `code` is the sum
so far and `gap` the number that is being read. -/
def readGaps (code : Nat) (gap : Option Nat) : List Char → List Nat
  | [] => gap.toList.map (code + ·)
  | c :: cs =>
    if c.isAlphanum then readGaps code (some (36 * gap.getD 0 + gapDigit c)) cs
    else match gap with
      | some gap => (code + gap) :: readGaps (code + gap) none cs
      | none => readGaps code none cs

/-- The set whose changes are given by the gaps between them, in base 36. -/
def ofGaps (text : String) : CharSet := ⟨(readGaps 0 none text.toList).toArray⟩

end CharSet

/-!
## White space

The code points with the property White_Space: the blanks that separate lexemes of grammar text and
that `trim` takes off a text.
-/

/-- White_Space. -/
def CharSet.blank : CharSet where
  changes := #[
    9, 14, 32, 33, 133, 134, 160, 161, 5760, 5761, 8192, 8203, 8232, 8234,
    8239, 8240, 8287, 8288, 12288, 12289]

/-- True of white space. -/
def isBlank (c : Char) : Bool := CharSet.blank.contains c

/-- The text without the white space at its two ends. -/
def trimBlank (text : String) : String :=
  String.ofList ((text.toList.dropWhile isBlank).reverse.dropWhile isBlank).reverse

end ParseForest
