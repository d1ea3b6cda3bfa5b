/-!
# Context of a byte range

Diagnostics quote the text around a byte range. The range is clamped to the text, moved down to
character boundaries, and extended by a number of characters on either side. A text is cut at byte
offsets, and only where a character begins or the text ends; a cut elsewhere gives no text.
-/

namespace ParseForest

/-- The offset, or else the last one before it where a character begins. -/
def floorOffset (source : String) : Nat → Nat
  | 0 => 0
  | n + 1 =>
    if String.Pos.Raw.isValid source ⟨n + 1⟩ then n + 1 else floorOffset source n

/-- The text between two byte offsets, if it can be cut there. -/
def cut? (source : String) (start stop : Nat) : Option String :=
  if h : String.Pos.Raw.IsValid source ⟨start⟩ ∧ String.Pos.Raw.IsValid source ⟨stop⟩ ∧
      start ≤ stop then
    some (source.extract (source.pos ⟨start⟩ h.1) (source.pos ⟨stop⟩ h.2.1))
  else none

/-- Number of bytes of a text. -/
def byteLength : List Char → Nat
  | [] => 0
  | c :: cs => c.utf8Size + byteLength cs

/-- The text of the byte range from `start` to `stop` with up to `radius` characters on
either side, unless it takes a cut where there is none. -/
def context? (source : String) (start stop radius : Nat) : Option String := do
  let start := floorOffset source (min start source.utf8ByteSize)
  let stop := max (floorOffset source (min stop source.utf8ByteSize)) start
  let front ← cut? source 0 start
  let before := byteLength (front.toList.reverse.take radius)
  let back ← cut? source stop source.utf8ByteSize
  let after := byteLength (back.toList.take radius)
  cut? source (start - before) (stop + after)

/-- The text of the byte range from `start` to `stop` with up to `radius` characters on
either side. -/
def contextAround (source : String) (start stop radius : Nat) : String :=
  (context? source start stop radius).getD ""

end ParseForest
