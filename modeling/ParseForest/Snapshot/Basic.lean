import ParseForest.Codec.Frame
import ParseForest.Compiled
import ParseForest.Snapshot.Tables

/-!
# Snapshots

A compiled grammar can be written as bytes and restored later without building its automaton again.
The bytes begin with a header of eight bytes, four that say what they are and the version of the
format; the rest is a frame with the tables. Patterns are kept as text and are read again.
-/

namespace ParseForest

/-- The parts of a compiled grammar from which the rest is rebuilt. -/
structure Snapshot where
  grammar : Grammar
  automaton : Automaton
  epsilon : EpsilonForest
  lexer : LexerDescription
deriving DecidableEq

/-- Why bytes are not a compiled grammar. -/
inductive SnapshotError
  | badMagic
  | versionMismatch (found : Nat)
  /-- The bytes after the header are damaged -/
  | corrupt
  /-- A pattern cannot be read any more -/
  | rebuild (cause : GrammarError)
deriving DecidableEq

namespace Snapshot

/-- What every snapshot begins with. -/
def magic : Bytes := [0x54, 0x48, 0x4b, 0x54]

/-- The version of the format. -/
def formatVersion : Nat := 1

/-- Number of bytes before the frame. -/
def headerLength : Nat := 8

/-- A number in `n` bytes, the lowest first. -/
def littleEndian : Nat → Nat → Bytes
  | 0, _ => []
  | n + 1, value => (value % 256).toUInt8 :: littleEndian n (value / 256)

/-- The number that bytes stand for, the lowest first. -/
def ofLittleEndian : Bytes → Nat
  | [] => 0
  | b :: rest => b.toNat + 256 * ofLittleEndian rest

/-- The magic bytes and the version. -/
def header : Bytes := magic ++ littleEndian 4 formatVersion

/-- The members of a snapshot, one after another. -/
def codec : Codec Snapshot :=
  (Grammar.codec.pair (Automaton.codec.pair (EpsilonForest.codec.pair LexerDescription.codec))).via
    (fun s => (s.grammar, s.automaton, s.epsilon, s.lexer))
    (fun (grammar, automaton, epsilon, lexer) => some ⟨grammar, automaton, epsilon, lexer⟩)
    (fun _ => rfl)

/-- The snapshot as bytes: the header, then the tables in any codec. -/
def toBytes (body : Codec Snapshot) (s : Snapshot) : Bytes := header ++ body.write s

/-- Reads a snapshot with tables in a codec. Bytes after it do not matter. -/
def ofBytes (body : Codec Snapshot) (bytes : Bytes) : Except SnapshotError Snapshot :=
  if bytes.length < headerLength ∨ bytes.take 4 ≠ magic then .error .badMagic
  else
    let found := ofLittleEndian ((bytes.drop 4).take 4)
    if found ≠ formatVersion then .error (.versionMismatch found)
    else
      match body.read (bytes.drop headerLength) with
      | some (s, _) => .ok s
      | none => .error .corrupt

/-- Reads the patterns and puts the compiled grammar together. -/
def restore (s : Snapshot) : Except GrammarError CompiledGrammar := do
  CompiledGrammar.assemble s.grammar s.automaton s.epsilon (← Lexer.ofDescription s.lexer)

end Snapshot

/-- The words of an error. -/
def SnapshotError.message : SnapshotError → String
  | .badMagic => "not a compiled grammar blob"
  | .versionMismatch found =>
    "compiled grammar format version " ++ toString found ++ " is not supported (expected "
      ++ toString Snapshot.formatVersion ++ ")"
  | .corrupt => "failed to decode compiled grammar"
  | .rebuild cause => "failed to rebuild compiled grammar: " ++ cause.message

namespace CompiledGrammar

/-- The parts that a snapshot keeps. -/
def snapshot (c : CompiledGrammar) : Snapshot :=
  ⟨c.grammar, c.automaton, c.epsilon, c.lexer.description⟩

/-- The compiled grammar as bytes, its tables in a codec. -/
def toBytesWith (body : Codec Snapshot) (c : CompiledGrammar) : Bytes := c.snapshot.toBytes body

/-- Restores a compiled grammar whose tables are in a codec. -/
def ofBytesWith (body : Codec Snapshot) (bytes : Bytes) : Except SnapshotError CompiledGrammar := do
  (← Snapshot.ofBytes body bytes).restore.mapError .rebuild

/-- The compiled grammar as bytes. -/
def toBytes (c : CompiledGrammar) : Bytes := c.toBytesWith Snapshot.codec.framed

/-- Restores a compiled grammar. -/
def ofBytes (bytes : Bytes) : Except SnapshotError CompiledGrammar :=
  ofBytesWith Snapshot.codec.framed bytes

end CompiledGrammar

end ParseForest
