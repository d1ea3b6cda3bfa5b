import ParseForest.Proofs.Lexer.Matching
import ParseForest.Snapshot.Basic

/-!
# Snapshots of compiled grammars

A compiled grammar that is written as bytes is restored from them as it was
(`CompiledGrammar.ofBytesWith_toBytesWith`), whatever codec its tables are in: the lexer and
the tests of the terminals, which are not written, follow from what is. Bytes that do not begin with the
header of the format are told apart by it.
-/

namespace ParseForest

/-! ## Headers -/

namespace Snapshot

variable {body : Codec Snapshot} {bytes : Bytes}

theorem take_four_eq_magic_iff : bytes.take 4 = magic ↔ magic <+: bytes :=
  ⟨fun h => h ▸ List.take_prefix 4 bytes, fun h => (List.prefix_iff_eq_take.1 h).symm⟩

/-- Four bytes as a number, the lowest first. -/
theorem ofLittleEndian_four (b₀ b₁ b₂ b₃ : UInt8) : ofLittleEndian [b₀, b₁, b₂, b₃] =
    b₀.toNat + 2 ^ 8 * b₁.toNat + 2 ^ 16 * b₂.toNat + 2 ^ 24 * b₃.toNat := by
  simp only [ofLittleEndian]
  omega

theorem ofBytes_eq_badMagic_iff :
    ofBytes body bytes = .error .badMagic ↔ bytes.length < 8 ∨ ¬magic <+: bytes := by
  rw [← take_four_eq_magic_iff, ofBytes]
  constructor
  · intro h
    split at h
    · assumption
    · dsimp only at h
      split at h
      · cases h
      · split at h <;> cases h
  · exact fun h => if_pos h

/-- Bytes of a snapshot are its magic, its version and the rest. -/
theorem exists_of_magic (hlength : 8 ≤ bytes.length) (hmagic : magic <+: bytes) :
    ∃ b₀ b₁ b₂ b₃ rest, bytes = magic ++ b₀ :: b₁ :: b₂ :: b₃ :: rest := by
  obtain ⟨tail, rfl⟩ := hmagic
  rw [List.length_append] at hlength
  match tail with
  | b₀ :: b₁ :: b₂ :: b₃ :: rest => exact ⟨b₀, b₁, b₂, b₃, rest, rfl⟩
  | [] | [_] | [_, _] | [_, _, _] => simp [magic] at hlength

/-- What is read depends on the version alone until that is the current one. -/
theorem ofBytes_magic (b₀ b₁ b₂ b₃ : UInt8) (rest : Bytes) :
    ofBytes body (magic ++ b₀ :: b₁ :: b₂ :: b₃ :: rest) =
      if ofLittleEndian [b₀, b₁, b₂, b₃] ≠ formatVersion then
        .error (.versionMismatch (ofLittleEndian [b₀, b₁, b₂, b₃]))
      else match body.read rest with
        | some (s, _) => .ok s
        | none => .error .corrupt :=
  rfl

theorem ofBytes_eq_versionMismatch_iff {found : Nat} :
    ofBytes body bytes = .error (.versionMismatch found) ↔ found ≠ formatVersion ∧
      ∃ b₀ b₁ b₂ b₃ rest, bytes = magic ++ b₀ :: b₁ :: b₂ :: b₃ :: rest ∧
        found = b₀.toNat + 2 ^ 8 * b₁.toNat + 2 ^ 16 * b₂.toNat + 2 ^ 24 * b₃.toNat := by
  constructor
  · intro h
    have hmagic : ¬(bytes.length < 8 ∨ ¬magic <+: bytes) := fun hbad => by
      cases (ofBytes_eq_badMagic_iff.2 hbad).symm.trans h
    obtain ⟨hlength, hmagic⟩ := not_or.1 hmagic
    obtain ⟨b₀, b₁, b₂, b₃, rest, rfl⟩ := exists_of_magic (not_lt.1 hlength) (not_not.1 hmagic)
    rw [ofBytes_magic] at h
    split at h
    · rename_i hversion
      obtain rfl := SnapshotError.versionMismatch.inj (Except.error.inj h)
      exact ⟨hversion, b₀, b₁, b₂, b₃, rest, rfl, ofLittleEndian_four b₀ b₁ b₂ b₃⟩
    · split at h <;> cases h
  · rintro ⟨hversion, b₀, b₁, b₂, b₃, rest, rfl, rfl⟩
    rw [ofBytes_magic, ofLittleEndian_four, if_pos hversion]

/-- A snapshot is read back, whatever comes after it. -/
theorem ofBytes_toBytes_append (body : Codec Snapshot) (s : Snapshot) (rest : Bytes) :
    ofBytes body (s.toBytes body ++ rest) = .ok s := by
  have hbytes : s.toBytes body ++ rest = magic ++ 1 :: 0 :: 0 :: 0 :: (body.write s ++ rest) := rfl
  rw [hbytes, ofBytes_magic, if_neg (by decide), body.read_write]

end Snapshot

/-! ## Compiled grammars -/

namespace CompiledGrammar

/-- Compiled grammars are made of a grammar, from text, or from the bytes of another one. -/
inductive Compiled : CompiledGrammar → Prop
  | ofGrammar {g : Grammar} {lexer : LexerDescription} {c : CompiledGrammar}
      (h : CompiledGrammar.ofGrammar g lexer = .ok c) : Compiled c
  | ofText {form : GrammarForm} {text : String} {lexer : LexerDescription} {c : CompiledGrammar}
      (h : CompiledGrammar.ofText form text lexer = .ok c) : Compiled c
  | ofBytes {body : Codec Snapshot} {bytes : Bytes} {c : CompiledGrammar}
      (h : ofBytesWith body bytes = .ok c) : Compiled c

variable {c : CompiledGrammar}

/-- What a compiled grammar keeps is enough to put it together again. -/
theorem restore_snapshot (hlexer : Lexer.ofDescription c.lexer.description = .ok c.lexer)
    (hmatcher : TerminalMatcher.ofGrammar c.grammar = .ok c.matcher) :
    c.snapshot.restore = .ok c := by
  simp only [Snapshot.restore, snapshot, assemble, bind, Except.bind, hlexer, hmatcher]

theorem restore_snapshot_of_restore {s : Snapshot} (h : s.restore = .ok c) :
    c.snapshot.restore = .ok c := by
  simp only [Snapshot.restore, assemble, bind, Except.bind] at h
  cases hl : Lexer.ofDescription s.lexer with
  | error e => simp [hl] at h
  | ok l =>
    cases hm : TerminalMatcher.ofGrammar s.grammar with
    | error e => simp [hl, hm] at h
    | ok m =>
      simp only [hl, hm] at h
      obtain rfl := Except.ok.inj h
      exact restore_snapshot ((Lexer.ofDescription_eq_ok hl).1 ▸ hl) hm

theorem restore_snapshot_of_ofGrammar {g : Grammar} {lexer : LexerDescription}
    (h : CompiledGrammar.ofGrammar g lexer = .ok c) : c.snapshot.restore = .ok c := by
  obtain ⟨rfl, -, -, hm, hl⟩ := parts_of_ofGrammar h
  exact restore_snapshot ((Lexer.ofDescription_eq_ok hl).1 ▸ hl) hm

/-- The lexer of a compiled grammar is that of its description, and its tests are those of its
grammar. -/
theorem Compiled.restore_snapshot (h : c.Compiled) : c.snapshot.restore = .ok c := by
  cases h with
  | ofGrammar h => exact restore_snapshot_of_ofGrammar h
  | ofText h => exact restore_snapshot_of_ofGrammar (exists_build_of_ofText h).2
  | @ofBytes body bytes _ h =>
    simp only [ofBytesWith, bind, Except.bind] at h
    split at h
    · cases h
    · rename_i s hs
      cases hr : s.restore with
      | error e => simp [hr, Except.mapError] at h
      | ok c' =>
        rw [hr] at h
        obtain rfl := Except.ok.inj h
        exact restore_snapshot_of_restore hr

/-- An error of the header is one of the bytes, and not of what they are put together to. -/
theorem ofBytesWith_eq_error_iff {body : Codec Snapshot} {bytes : Bytes} {e : SnapshotError}
    (he : ∀ cause, e ≠ .rebuild cause) :
    ofBytesWith body bytes = .error e ↔ Snapshot.ofBytes body bytes = .error e := by
  simp only [ofBytesWith, bind, Except.bind]
  cases Snapshot.ofBytes body bytes with
  | error e' => simp
  | ok s =>
    dsimp only
    cases s.restore with
    | error cause => simp [Except.mapError, (he cause).symm]
    | ok c => simp [Except.mapError]

/-- A compiled grammar comes back from its bytes as it was, in whatever codec its tables are written.
Bytes that are too short or begin otherwise are no compiled grammar, and those of another version of
the format are told by it, with the version that was found. -/
theorem ofBytesWith_toBytesWith (body : Codec Snapshot) :
    (∀ c : CompiledGrammar, c.Compiled → ofBytesWith body (c.toBytesWith body) = .ok c) ∧
    (∀ bytes, ofBytesWith body bytes = .error .badMagic ↔
      bytes.length < 8 ∨ ¬[0x54, 0x48, 0x4b, 0x54] <+: bytes) ∧
    ∀ bytes found, ofBytesWith body bytes = .error (.versionMismatch found) ↔ found ≠ 1 ∧
      ∃ b₀ b₁ b₂ b₃ rest, bytes = [0x54, 0x48, 0x4b, 0x54] ++ b₀ :: b₁ :: b₂ :: b₃ :: rest ∧
        found = b₀.toNat + 2 ^ 8 * b₁.toNat + 2 ^ 16 * b₂.toNat + 2 ^ 24 * b₃.toNat := by
  refine ⟨fun c hc => ?_, fun bytes => ?_, fun bytes found => ?_⟩
  · have hread := Snapshot.ofBytes_toBytes_append body c.snapshot []
    rw [List.append_nil] at hread
    simp only [ofBytesWith, toBytesWith, bind, Except.bind, hread, hc.restore_snapshot,
      Except.mapError]
  · exact (ofBytesWith_eq_error_iff (fun _ h => by cases h)).trans Snapshot.ofBytes_eq_badMagic_iff
  · exact (ofBytesWith_eq_error_iff (fun _ h => by cases h)).trans
      Snapshot.ofBytes_eq_versionMismatch_iff

/-- The grammar of a number with its lexer, written and restored. -/
theorem ofBytesWith_toBytesWith_number : ∃ c : CompiledGrammar,
    ofText .bnf "<S> ::= <Token-int>" .numbers = .ok c ∧ c.Compiled ∧
      ofBytesWith Snapshot.codec.framed (c.toBytesWith Snapshot.codec.framed) = .ok c := by
  obtain ⟨c, -, hc, -⟩ := exists_numbers
  exact ⟨c, hc, .ofText hc, (ofBytesWith_toBytesWith _).1 c (.ofText hc)⟩

end CompiledGrammar

end ParseForest
