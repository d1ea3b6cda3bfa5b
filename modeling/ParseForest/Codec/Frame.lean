import ParseForest.Codec.Basic

/-!
# Frames

A frame tells damaged bytes from whole ones: it begins with a fixed mark, then come the number of
bytes, their checksum, and the bytes.
-/

namespace ParseForest

/-- The largest prime below `2 ^ 16`. -/
def checksumModulus : Nat := 65521

/-- Two sums of the bytes, a plain one that begins with 1 and one that weighs every byte with its
distance from the end, in one number. -/
def checksum (bytes : Bytes) : Nat :=
  let (plain, weighted) := bytes.foldl
    (fun (plain, weighted) b =>
      let plain := (plain + b.toNat) % checksumModulus
      (plain, (weighted + plain) % checksumModulus))
    (1, 0)
  weighted * 65536 + plain

namespace Codec

/-- The first two bytes of a frame. -/
def frameMark : Bytes := [0x78, 0x9c]

/-- Reads the length, the checksum and the bytes of a frame. -/
def readFrame (input : Bytes) : Option (Bytes × Bytes) := do
  let (n, rest) ← readNat input
  let (sum, rest) ← readNat rest
  if (rest.take n).length = n ∧ checksum (rest.take n) = sum then some (rest.take n, rest.drop n)
  else none

/-- Bytes in a frame. -/
def frame : Codec Bytes where
  write bytes := frameMark ++ (writeNat bytes.length ++ (writeNat (checksum bytes) ++ bytes))
  read input :=
    match input with
    | a :: b :: rest => if [a, b] = frameMark then readFrame rest else none
    | _ => none
  read_write bytes rest := by
    simp [frameMark, readFrame, List.append_assoc, readNat_writeNat]

/-- A value in a frame of its own, which it fills. -/
def framed {α : Type} (c : Codec α) : Codec α :=
  frame.via c.write
    (fun bytes => match c.read bytes with
      | some (a, []) => some a
      | _ => none)
    (by
      intro a
      have h := c.read_write a []
      rw [List.append_nil] at h
      simp [h])

end Codec

end ParseForest
