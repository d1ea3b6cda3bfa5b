import ParseForest.Text.CharSet

/-!
# Characters as bytes

A character is one to four bytes: a lead byte, and for each six further bits a byte of its own. The
characters of a range are the byte strings that some lists of byte ranges spell; `Utf8.spellings`
gives those lists, in increasing order and with no character twice.
-/

namespace ParseForest

namespace Utf8

/-- A range of bytes, both ends included. -/
abbrev ByteRange := Nat × Nat

/-- The bytes of a code point. -/
def encode (code : Nat) : List Nat :=
  if code < 0x80 then [code]
  else if code < 0x800 then [0xC0 + code / 0x40, 0x80 + code % 0x40]
  else if code < 0x10000 then
    [0xE0 + code / 0x1000, 0x80 + code / 0x40 % 0x40, 0x80 + code % 0x40]
  else
    [0xF0 + code / 0x40000, 0x80 + code / 0x1000 % 0x40, 0x80 + code / 0x40 % 0x40,
      0x80 + code % 0x40]

/-- The bytes of a text. -/
def encodeText (cs : List Char) : List Nat := cs.flatMap fun c => encode c.toNat

/-- The numbers `lo` to `hi` as lists of ranges of digits of base 64: a digit without bound, and
then `n` digits. A range that does not fill its first or last block of equal leading digits is cut
there. -/
def digitRanges : Nat → Nat → Nat → List (List (Nat × Nat))
  | 0, lo, hi => [[(lo, hi)]]
  | n + 1, lo, hi =>
    let block := 1 <<< (6 * (n + 1))
    let first := lo / block
    let last := hi / block
    if first = last then (digitRanges n (lo % block) (hi % block)).map ((first, first) :: ·)
    else
      let cutLow := lo % block ≠ 0
      let cutHigh := hi % block ≠ block - 1
      let low :=
        if cutLow then (digitRanges n (lo % block) (block - 1)).map ((first, first) :: ·) else []
      let high := if cutHigh then (digitRanges n 0 (hi % block)).map ((last, last) :: ·) else []
      let start := if cutLow then first + 1 else first
      let upTo := if cutHigh then last - 1 else last
      let middle := if start ≤ upTo then [(start, upTo) :: List.replicate (n + 1) (0, 63)] else []
      low ++ middle ++ high

/-- Makes bytes of the digits of a character: `lead` marks the first byte, `0x80` the others. -/
def mark (lead : Nat) : List (Nat × Nat) → List ByteRange
  | [] => []
  | (lo, hi) :: rest => (lead + lo, lead + hi) :: rest.map fun (lo, hi) => (0x80 + lo, 0x80 + hi)

/-- The first and last code point of each form, the number of bytes after the lead byte, and what
marks the lead byte. -/
def forms : List (Nat × Nat × Nat × Nat) :=
  [(0, 0x7F, 0, 0), (0x80, 0x7FF, 1, 0xC0), (0x800, 0xD7FF, 2, 0xE0), (0xE000, 0xFFFF, 2, 0xE0),
    (0x10000, 0x10FFFF, 3, 0xF0)]

/-- The byte strings of the characters `lo` to `hi`. -/
def spellings (lo hi : Nat) : List (List ByteRange) :=
  forms.flatMap fun (first, last, n, m) =>
    if max lo first ≤ min hi last then (digitRanges n (max lo first) (min hi last)).map (mark m)
    else []

/-- The byte strings of the members of a set. -/
def spellingsOf (s : CharSet) : List (List ByteRange) :=
  s.runs.flatMap fun (lo, hi) => spellings lo hi

end Utf8

end ParseForest
