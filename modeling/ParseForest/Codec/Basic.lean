/-!
# Codecs

A codec writes values of a type as bytes and reads them back. The law that what is written is read
back, and that no byte after it is touched, is part of every codec, so codecs of large values are
put together from those of their parts without a proof of their own.
-/

namespace ParseForest

/-- Bytes. -/
abbrev Bytes := List UInt8

/-- A way of writing values as bytes and reading them back. -/
structure Codec (α : Type) where
  write : α → Bytes
  /-- The value at the beginning of some bytes, and the bytes after it -/
  read : Bytes → Option (α × Bytes)
  read_write : ∀ (a : α) (rest : Bytes), read (write a ++ rest) = some (a, rest)

namespace Codec

/-! ## Numbers -/

/-- A number in digits of base 128, the lowest first; all but the last digit have the high bit. -/
def writeNat (n : Nat) : Bytes :=
  if n < 128 then [n.toUInt8] else (n % 128 + 128).toUInt8 :: writeNat (n / 128)

/-- Reads a number up to the first digit without the high bit. -/
def readNat : Bytes → Option (Nat × Bytes)
  | [] => none
  | b :: rest =>
    if b.toNat < 128 then some (b.toNat, rest)
    else (readNat rest).map fun (n, rest) => (b.toNat - 128 + 128 * n, rest)

theorem readNat_writeNat (n : Nat) (rest : Bytes) : readNat (writeNat n ++ rest) = some (n, rest) := by
  fun_induction writeNat n with
  | case1 n h =>
    have hb : n.toUInt8.toNat = n := by simp [Nat.toUInt8]; omega
    simp [readNat, hb, h]
  | case2 n h ih =>
    have hb : (n % 128 + 128).toUInt8.toNat = n % 128 + 128 := by simp [Nat.toUInt8]; omega
    simp only [List.cons_append, readNat, hb, ih]
    rw [if_neg (by omega)]
    simp only [Option.map_some, Option.some.injEq, Prod.mk.injEq, and_true]
    omega

/-- Natural numbers. -/
def nat : Codec Nat := ⟨writeNat, readNat, readNat_writeNat⟩

/-! ## Putting codecs together -/

/-- Values that stand for values of another type. -/
def via {α β : Type} (c : Codec β) (encode : α → β) (decode : β → Option α)
    (h : ∀ a, decode (encode a) = some a) : Codec α where
  write a := c.write (encode a)
  read bytes := do
    let (b, rest) ← c.read bytes
    (decode b).map (·, rest)
  read_write a rest := by simp [c.read_write, h]

/-- One value, then another. -/
def pair {α β : Type} (c : Codec α) (d : Codec β) : Codec (α × β) where
  write ab := c.write ab.1 ++ d.write ab.2
  read bytes := do
    let (a, rest) ← c.read bytes
    let (b, rest) ← d.read rest
    some ((a, b), rest)
  read_write ab rest := by simp [c.read_write, d.read_write, List.append_assoc]

/-- Reads a number of values. -/
def readMany {α : Type} (c : Codec α) : Nat → Bytes → Option (List α × Bytes)
  | 0, bytes => some ([], bytes)
  | n + 1, bytes => do
    let (a, rest) ← c.read bytes
    let (as, rest) ← readMany c n rest
    some (a :: as, rest)

theorem readMany_flatMap_write {α : Type} (c : Codec α) (as : List α) (rest : Bytes) :
    readMany c as.length (as.flatMap c.write ++ rest) = some (as, rest) := by
  induction as with
  | nil => rfl
  | cons a as ih => simp [readMany, List.append_assoc, c.read_write, ih]

/-- Lists: the length, then the items. -/
def list {α : Type} (c : Codec α) : Codec (List α) where
  write as := writeNat as.length ++ as.flatMap c.write
  read bytes := do
    let (n, rest) ← readNat bytes
    readMany c n rest
  read_write as rest := by
    simp [List.append_assoc, readNat_writeNat, readMany_flatMap_write]

/-! ## Codecs of common types -/

/-- Arrays are written as lists. -/
def array {α : Type} (c : Codec α) : Codec (Array α) :=
  c.list.via Array.toList (fun as => some as.toArray) (by simp)

/-- An absent value is the empty list, a present one a list of one item. -/
def option {α : Type} (c : Codec α) : Codec (Option α) :=
  c.list.via Option.toList
    (fun as => match as with
      | [] => some none
      | [a] => some (some a)
      | _ => none)
    (by intro a; cases a <;> rfl)

/-- Truth values are 0 and 1. -/
def bool : Codec Bool :=
  nat.via Bool.toNat
    (fun n => match n with
      | 0 => some false
      | 1 => some true
      | _ => none)
    (by intro b; cases b <;> rfl)

/-- Characters are their code points. -/
def char : Codec Char :=
  nat.via Char.toNat (fun n => if n.isValidChar then some (Char.ofNat n) else none)
    (fun c => (if_pos c.valid).trans (congrArg some (Char.ofNat_toNat c)))

/-- Texts are lists of characters. -/
def string : Codec String :=
  char.list.via String.toList (fun cs => some (String.ofList cs)) (by simp)

end Codec

end ParseForest
