import ParseForest.Pattern.Basic
import ParseForest.Text.Utf8
import Std.Data.HashMap

/-!
# The weight of a pattern

A pattern is refused when a program that matches it byte by byte would take too much space. The
program is not built; this module counts what it would be made of.

A program is a list of states, which are numbered as they are added. A state takes `stateBytes`; one
that leads to several others takes more for each of them. There are two programs: the one that reads
forwards and also notes where groups begin and end, and the one that reads backwards. Each must keep
within `weightLimit`.

A set of characters is a graph of byte ranges, in which equal parts are shared as long as the table
of parts remembers them. The table has a fixed number of places, a part belongs to the place that
`Part.place` gives, and a later part displaces an earlier one.
-/

namespace ParseForest

open Utf8 (ByteRange)

namespace Weight

/-- Space for a state. -/
def stateBytes : Nat := 32

/-- Space for each byte range of a state that has a list of them. -/
def rangeBytes : Nat := 8

/-- Space for each way on of a state that has a list of them. -/
def wayBytes : Nat := 4

/-- What has been counted: the states, and the space they take besides `stateBytes`. -/
structure Meter where
  states : Nat
  extra : Nat

namespace Meter

/-- Nothing. -/
def zero : Meter := ⟨0, 0⟩

/-- All the space. -/
def bytes (m : Meter) : Nat := stateBytes * m.states + m.extra

/-- Adds some states. -/
def add (m : Meter) (n : Nat) : Meter := { m with states := m.states + n }

/-- Adds a state with `n` byte ranges. -/
def addRanges (m : Meter) (n : Nat) : Meter := ⟨m.states + 1, m.extra + rangeBytes * n⟩

/-- Adds ways on to states that are there. -/
def ways (m : Meter) (n : Nat) : Meter := { m with extra := m.extra + wayBytes * n }

end Meter

/-- The largest weight. -/
def weightLimit : Nat := 10 * 1024 * 1024

/-- True beyond the largest weight. -/
def Meter.isHeavy (m : Meter) : Bool := weightLimit < m.bytes

/-- What has been counted for a part of a pattern, and whether its last state has a list of ways on,
so that to go on from there is one way more. -/
structure Counted where
  meter : Meter
  branches : Bool

/-- Counts the step from the last state to what follows. -/
def Counted.link (c : Counted) : Meter := if c.branches then c.meter.ways 1 else c.meter

/-! ## Sets -/

/-- The place of a part in a table of `size` places: the remainder of the hash FNV-1a of its
numbers, each taken as one step. -/
def place (size : Nat) (numbers : List Nat) : Nat :=
  let hash := numbers.foldl (fun (h : UInt64) n => (h ^^^ n.toUInt64) * 0x100000001b3)
    0xcbf29ce484222325
  (hash % size.toUInt64).toNat

/-- A byte range and the state after it. -/
abbrev Edge := ByteRange × Nat

/-- The parts of a graph of byte ranges that are remembered, by place, with their states. -/
structure Table (α : Type) where
  meter : Meter
  places : Std.HashMap Nat (α × Nat)

/-- Adds a part as a state, at its place. -/
def Table.add {α : Type} (t : Table α) (here : Nat) (part : α) (grow : Meter → Meter) :
    Nat × Table α :=
  match t with
  | ⟨meter, places⟩ => (meter.states, ⟨grow meter, places.insert here (part, meter.states)⟩)

/-- The state of a part. A part that is not remembered is added, by `grow`. -/
def Table.state {α : Type} [BEq α] (t : Table α) (size : Nat) (numbers : List Nat) (part : α)
    (grow : Meter → Meter) : Nat × Table α :=
  let here := place size numbers
  match t.places[here]? with
  | some (known, state) => if known == part then (state, t) else t.add here part grow
  | none => t.add here part grow

/-- Number of places for parts of forward programs. -/
def forwardPlaces : Nat := 10000

/-- Number of places for parts of backward programs. -/
def backwardPlaces : Nat := 1000

/-- The numbers of a part of a forward program. -/
def edgeNumbers (edges : List Edge) : List Nat :=
  edges.flatMap fun ((lo, hi), next) => [lo, hi, next]

/-- Groups lists by their heads, where equal heads follow each other. -/
def groupHeads : List (List ByteRange) → List (ByteRange × List (List ByteRange))
  | [] => []
  | [] :: rest => groupHeads rest
  | (r :: tail) :: rest =>
    match groupHeads rest with
    | (s, tails) :: groups =>
      if r = s then (r, tail :: tails) :: groups else (r, [tail]) :: (s, tails) :: groups
    | [] => [(r, [tail])]

/-- Counts the graph of spellings of at most `n` bytes that ends in the state `target`, parts before
the whole. -/
def countGraph (target : Nat) : Nat → List (List ByteRange) → Table (List Edge) →
    Nat × Table (List Edge)
  | 0, _, table => (target, table)
  | n + 1, spellings, table =>
    let (edges, table) := (groupHeads spellings).foldl
      (fun (edges, table) (r, tails) =>
        if tails.all List.isEmpty then ((r, target) :: edges, table)
        else
          let (next, table) := countGraph target n tails table
          ((r, next) :: edges, table))
      ([], table)
    let edges := edges.reverse
    table.state forwardPlaces (edgeNumbers edges) edges (·.addRanges edges.length)

/-- Counts a set in a forward program. -/
def countForward (s : CharSet) (m : Meter) : Meter :=
  (countGraph m.states 4 (Utf8.spellingsOf s) ⟨m.add 1, ∅⟩).2.meter

/-- Counts the states of one spelling of a backward program, from its first byte to its last; the
state after each is the one before it in the text. -/
def countSpelling (spelling : List ByteRange) (last : Nat) (table : Table (Nat × ByteRange)) :
    Table (Nat × ByteRange) :=
  (spelling.foldl
    (fun (next, table) (lo, hi) =>
      table.state backwardPlaces [next, lo, hi] (next, (lo, hi)) (·.add 1))
    (last, table)).2

/-- Counts a set in a backward program: every spelling is one way on from the first state. -/
def countBackward (s : CharSet) (m : Meter) : Meter :=
  let last := m.states + 1
  let spellings := Utf8.spellingsOf s
  let table := spellings.foldl (fun table spelling => countSpelling spelling last table)
    ⟨m.add 2, ∅⟩
  table.meter.ways spellings.length

/-- Counts a set. One of the first 128 characters only is a state with a list of byte ranges. -/
def countSet (backward : Bool) (s : CharSet) (m : Meter) : Meter :=
  if m.isHeavy then m
  else if s.isAscii then (m.add 1).addRanges s.runs.length
  else if backward then countBackward s m
  else countForward s m

/-! ## Choices between texts -/

/-- Cuts texts at each empty one. -/
def cutAtEmpty : List (List Nat) → List (List (List Nat))
  | [] => [[]]
  | [] :: rest => [] :: cutAtEmpty rest
  | text :: rest =>
    match cutAtEmpty rest with
    | cut :: cuts => (text :: cut) :: cuts
    | [] => [[text]]

/-- The texts that begin with each byte, without it. -/
def byFirst (texts : List (List Nat)) : List (List (List Nat)) :=
  let firsts := (texts.filterMap List.head?).eraseDups
  firsts.map fun b => (texts.filter fun t => t.head? == some b).map List.tail

/-- Drops repeated empty texts at the beginning. -/
def dropRepeatedEmpty : List (List Nat) → List (List Nat)
  | [] :: [] :: rest => dropRepeatedEmpty ([] :: rest)
  | texts => texts

/-- Counts the tree of texts of less than `n` bytes. A node leads to the bytes that may come next;
the texts after one that ends at the node are kept apart from those before it. A node where all
texts end is no state. -/
def countTree : Nat → Bool → List (List Nat) → Meter → Meter
  | 0, _, _, m => m
  | n + 1, isRoot, texts, m =>
    if !isRoot && texts.all List.isEmpty then m
    else
      let cuts := (cutAtEmpty (dropRepeatedEmpty texts)).map byFirst
      let m := cuts.flatten.foldl (fun m texts => countTree n false texts m) m
      let full := cuts.filter fun cut => !cut.isEmpty
      let m := full.foldl
        (fun m cut => if cut.length = 1 then m.add 1 else m.addRanges cut.length) m
      (m.add 1).ways (full.length + (cuts.length - 1))

/-- Counts a choice between texts. -/
def countTexts (backward : Bool) (texts : List (List Nat)) (m : Meter) : Meter :=
  let texts := if backward then texts.map List.reverse else texts
  let longest := texts.foldl (fun n t => max n t.length) 0
  countTree (longest + 1) true texts (m.add 1)

/-- The characters of a text. -/
def text? : Pattern → Option (List Char)
  | .text cs => some cs
  | _ => none

/-! ## Patterns -/

/-- Counts `n` more rounds after what has been counted. -/
def rounds (step : Meter → Counted) : Nat → Counted → Counted
  | 0, c => c
  | n + 1, c => if c.meter.isHeavy then c else rounds step n (step c.link)

/-- Counts exactly `n` rounds. -/
def exactly (step : Meter → Counted) (n : Nat) (m : Meter) : Counted :=
  match n with
  | 0 => ⟨m.add 1, false⟩
  | n + 1 => rounds step n (step m)

/-- Counts `n` rounds of which each may be the one not taken. -/
def upTo (step : Meter → Counted) : Nat → Counted → Counted
  | 0, c => c
  | n + 1, c =>
    if c.meter.isHeavy then c
    else
      let next := step (c.meter.add 1)
      let ways := if c.branches then 3 else 2
      upTo step n { next with meter := next.meter.ways ways }

/-- Counts a repetition without a bound. -/
def atLeast (step : Meter → Counted) (takesChar : Bool) (least : Nat) (m : Meter) : Counted :=
  match least with
  | 0 =>
    if takesChar then ⟨(step (m.add 1)).link.ways 1, true⟩
    else ⟨((step m).link.add 3).ways 4, false⟩
  | 1 => ⟨((step m).link.add 1).ways 1, true⟩
  | n + 2 => ⟨((rounds step 1 (exactly step (n + 1) m)).link.add 1).ways 1, true⟩

mutual

/-- Counts a pattern in a program of one direction. -/
def count (backward : Bool) : Pattern → Meter → Counted
  | .empty, m => ⟨m.add 1, false⟩
  | .text cs, m => ⟨m.add (Utf8.encodeText cs).length, false⟩
  | .set s, m => ⟨countSet backward s m, false⟩
  | .check _, m => ⟨m.add 1, false⟩
  | .group _ p, m =>
    if backward then count backward p m else ⟨(count backward p (m.add 1)).link.add 1, false⟩
  | .loop p 0 (some 1) _, m => ⟨((count backward p (m.add 1)).link.add 1).ways 2, false⟩
  | .loop p least none _, m => atLeast (count backward p) p.takesChar least m
  | .loop p least (some most) _, m =>
    let start := exactly (count backward p) least m
    if least = most then start
    else ⟨(upTo (count backward p) (most - least) { start with meter := start.meter.add 1 }).link,
      false⟩
  | .seq p q, m =>
    if backward then count backward p (count backward q m).link
    else count backward q (count backward p m).link
  | .choice p q, m =>
    match ((Pattern.choice p q).branches.mapM text?) with
    | some texts => ⟨countTexts backward (texts.map Utf8.encodeText) m, false⟩
    | none =>
      match q with
      | .choice q r =>
        let second := count backward q (count backward p m).link
        ⟨countBranches backward r ((second.link.add 2).ways 2), false⟩
      | q =>
        let second := count backward q (count backward p m).link
        ⟨(second.link.add 2).ways 2, false⟩

/-- Counts the branches of a choice after its second one. -/
def countBranches (backward : Bool) : Pattern → Meter → Meter
  | .choice p q, m => countBranches backward q ((count backward p m).link.ways 1)
  | p, m => (count backward p m).link.ways 1

end

/-- Counts what stands before a pattern: a state, or a loop over all bytes when a match may begin
anywhere. -/
def countStart (anchored : Bool) : Meter :=
  if anchored then Meter.zero.add 1 else ((Meter.zero.add 2).addRanges 1).ways 2

/-- The space that the forward program of a pattern takes. The whole pattern is a group. -/
def forwardBytes (p : Pattern) : Nat :=
  ((count false p ((countStart p.isAnchored).add 1)).link.add 2).bytes

/-- The space that the backward program of a pattern takes. -/
def backwardBytes (p : Pattern) : Nat :=
  ((count true p (countStart p.isEndAnchored)).link.add 1).bytes

end Weight

/-- True of a pattern whose programs take too much space. -/
def Pattern.isHeavy (p : Pattern) : Bool :=
  Weight.weightLimit < Weight.forwardBytes p || Weight.weightLimit < Weight.backwardBytes p

end ParseForest
