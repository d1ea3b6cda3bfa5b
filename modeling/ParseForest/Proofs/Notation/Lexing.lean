import ParseForest.Notation.Lexeme
import ParseForest.Proofs.Text.Quoted
import Mathlib.Data.List.DropRight
import Mathlib.Data.List.TakeWhile

/-!
# Lexemes and their texts

What is known of the lexemes of a text (`LexemeKind.Writable`), and which texts are read as such lexemes again,
whatever follows them. A pattern without a slash is written as it is. A literal in which every character is
written as it is or by a letter (`Quoted.Plain`) is read off its quoted form; the other characters are written in
a way that the reader of literals does not know.
-/

namespace ParseForest

/-- Characters that a quoted text shows as they are or by a letter of their own. The others are NUL, which has a
digit, and those that are shown by their code point. -/
def Quoted.Plain (c : Char) : Prop :=
  c ∈ ['\t', '\r', '\n', '\\', '"'] ∨
    (c ≠ '\x00' ∧ CharSet.combining.contains c = false ∧ CharSet.unprintable.contains c = false)

instance : DecidablePred Quoted.Plain := fun _ => inferInstanceAs (Decidable (_ ∨ _))

namespace Notation

/-- Names that can be written between angle brackets. -/
structure Nameable (name : String) : Prop where
  ne_empty : name ≠ ""
  trimmed : trimBlank name = name
  clear : ∀ c ∈ name.toList, c ≠ '>' ∧ c ≠ '\n'

/-- What lexing makes sure of: names can be written, the text of a pattern has been read off some text, and the
end is not a lexeme of a text. -/
def LexemeKind.Writable : LexemeKind → Prop
  | .reference name => Nameable name
  | .pattern text flags =>
    (∃ cs n, scanPattern cs = some (text.toList, n)) ∧ ∀ c ∈ flags.toList, isPatternFlag c = true
  | .stop => False
  | _ => True

/-- No letter comes next, so flags end here. -/
def Stopped (k : List Char) : Prop := ∀ c rest, k = c :: rest → c.isAlpha = false

/-! ## What is scanned -/

/-- Every lexeme of a text has been scanned somewhere in it. -/
theorem scanned_of_lexemes {text : String} {ls : List Lexeme} {stop : Location}
    (h : lexemes text = .ok (ls, stop)) : ∀ l ∈ ls, ∃ c cs n, scan c cs = .ok (l.kind, n) := by
  have hfrom : ∀ (fuel : Nat) (place : Location) (cs : List Char) (ls : List Lexeme),
      lexemesFrom fuel place cs = .ok (ls, stop) → ∀ l ∈ ls, ∃ c cs n, scan c cs = .ok (l.kind, n) := by
    intro fuel
    induction fuel with
    | zero =>
      intro place cs ls h
      obtain ⟨rfl, -⟩ := Prod.mk.inj (Except.ok.inj h)
      simp
    | succ fuel ih =>
      intro place cs ls h
      cases cs with
      | nil =>
        obtain ⟨rfl, -⟩ := Prod.mk.inj (Except.ok.inj h)
        simp
      | cons c cs =>
        rw [lexemesFrom] at h
        split at h
        · exact ih _ _ _ h
        · split at h
          · exact ih _ _ _ h
          · split at h
            · cases h
            · rename_i kind n hscan
              simp only [bind, Except.bind] at h
              split at h
              · cases h
              · rename_i p hp
                obtain ⟨rest, stop'⟩ := p
                obtain ⟨rfl, rfl⟩ := Prod.mk.inj (Except.ok.inj h)
                exact List.forall_mem_cons.2 ⟨⟨c, cs, n, hscan⟩, ih _ _ _ hp⟩
  exact hfrom _ _ _ _ h

theorem trimBlank_trimBlank (text : String) : trimBlank (trimBlank text) = trimBlank text := by
  have htrim : ∀ text : String,
      (trimBlank text).toList = (text.toList.dropWhile isBlank).rdropWhile isBlank :=
    fun text => String.toList_ofList
  refine String.toList_inj.1 ?_
  rw [htrim, htrim]
  have hfront : ((text.toList.dropWhile isBlank).rdropWhile isBlank).dropWhile isBlank =
      (text.toList.dropWhile isBlank).rdropWhile isBlank := by
    rw [List.dropWhile_eq_self_iff]
    intro hlt hblank
    -- what is left at the end is a beginning of what is left at the front
    have hstart := List.rdropWhile_prefix isBlank (text.toList.dropWhile isBlank)
    rw [hstart.getElem] at hblank
    exact List.dropWhile_get_zero_not isBlank text.toList (Nat.lt_of_lt_of_le hlt hstart.length_le) hblank
  rw [hfront, List.rdropWhile_idempotent]

theorem writable_scanReference {cs : List Char} {kind : LexemeKind} {n : Nat}
    (h : scanReference cs = .ok (kind, n)) : kind.Writable := by
  rw [scanReference] at h
  dsimp only at h
  split at h
  · split at h
    · cases h
    · rename_i hne
      obtain ⟨rfl, -⟩ := Prod.mk.inj (Except.ok.inj h)
      refine ⟨by simpa using hne, trimBlank_trimBlank _, fun c hc => ?_⟩
      rw [trimBlank, String.toList_ofList, List.mem_reverse] at hc
      have hc := (List.dropWhile_suffix _).subset (List.mem_reverse.1 ((List.dropWhile_suffix _).subset hc))
      rw [String.toList_ofList] at hc
      simpa using List.mem_takeWhile_imp hc
  · cases h

theorem writable_scanPatternWithFlags {cs : List Char} {kind : LexemeKind} {n : Nat}
    (h : scanPatternWithFlags cs = .ok (kind, n)) : kind.Writable := by
  rw [scanPatternWithFlags] at h
  split at h
  · cases h
  · rename_i text k hscan
    dsimp only at h
    split at h
    · cases h
    · rename_i hflags
      obtain ⟨rfl, -⟩ := Prod.mk.inj (Except.ok.inj h)
      refine ⟨⟨cs, k, by rw [hscan, String.toList_ofList]⟩, fun c hc => ?_⟩
      rw [String.toList_ofList] at hc
      simpa using List.find?_eq_none.1 hflags c hc

theorem writable_scan {c : Char} {cs : List Char} {kind : LexemeKind} {n : Nat}
    (h : scan c cs = .ok (kind, n)) : kind.Writable := by
  have hliteral : ∀ c, scan.literal c cs = .ok (kind, n) → kind.Writable := by
    intro c h
    rw [scan.literal] at h
    split at h
    · obtain ⟨rfl, -⟩ := Prod.mk.inj (Except.ok.inj h)
      trivial
    · cases h
  have hplus : scanPlus cs = .ok (kind, n) → kind.Writable := by
    intro h
    simp only [scanPlus] at h
    repeat' split at h
    all_goals first | cases h; trivial | cases h
  have hequals : scanEquals cs = .ok (kind, n) → kind.Writable := by
    intro h
    simp only [scanEquals] at h
    repeat' split at h
    all_goals first | cases h; trivial | cases h
  rw [scan.eq_def] at h
  split at h
  · exact writable_scanReference h
  · exact hliteral _ h
  · exact hliteral _ h
  · exact writable_scanPatternWithFlags h
  · split at h
    · cases h; trivial
    · cases h
  · cases h; trivial
  · cases h; trivial
  · cases h; trivial
  · cases h; trivial
  · cases h; trivial
  · exact hplus h
  · exact hequals h
  · cases h

/-- Every lexeme of a text can be written. -/
theorem writable_of_lexemes {text : String} {ls : List Lexeme} {stop : Location}
    (h : lexemes text = .ok (ls, stop)) : ∀ l ∈ ls, l.kind.Writable := by
  intro l hl
  obtain ⟨c, cs, n, hscan⟩ := scanned_of_lexemes h l hl
  exact writable_scan hscan

theorem ne_stop_of_lexemes {text : String} {ls : List Lexeme} {stop : Location}
    (h : lexemes text = .ok (ls, stop)) : ∀ l ∈ ls, l.kind ≠ .stop := by
  intro l hl he
  have hw := writable_of_lexemes h l hl
  rwa [he] at hw

/-! ## What is scanned again -/

theorem scanReference_append {name : String} (h : Nameable name) (rest : List Char) :
    scanReference (name.toList ++ '>' :: rest) = .ok (.reference name, name.toList.length + 2) := by
  have htake : (name.toList ++ '>' :: rest).takeWhile (fun c => c != '>' && c != '\n') = name.toList := by
    rw [List.takeWhile_append_of_pos fun c hc => by simpa using h.clear c hc]
    simp
  have hempty : name.isEmpty = false := by simpa using h.ne_empty
  simp only [scanReference, htake, List.drop_left, String.ofList_toList, h.trimmed, hempty]
  rfl

theorem scanLiteral_encodeChar {c : Char} (h : Quoted.Plain c) (rest : List Char) :
    scanLiteral '"' (Quoted.encodeChar c ++ rest) =
      (scanLiteral '"' rest).map fun p => (c :: p.1, p.2 + (Quoted.encodeChar c).length) := by
  by_cases hletter : c ∈ ['\t', '\r', '\n', '\\', '"']
  · simp only [List.mem_cons, List.not_mem_nil, or_false] at hletter
    rcases hletter with rfl | rfl | rfl | rfl | rfl <;> simp [Quoted.encodeChar, scanLiteral]
  · simp only [List.mem_cons, List.not_mem_nil, or_false, not_or] at hletter
    obtain ⟨htab, hreturn, hnewline, hbackslash, hquote⟩ := hletter
    obtain ⟨hnull, hcombining, hunprintable⟩ := h.resolve_left (by simp [*])
    rw [scanLiteral.eq_def, Quoted.encodeChar]
    simp [*]

/-- The quoted form of a text is read as the text. -/
theorem scanLiteral_encode {text : List Char} (h : ∀ c ∈ text, Quoted.Plain c) (rest : List Char) :
    scanLiteral '"' (text.flatMap Quoted.encodeChar ++ '"' :: rest) =
      some (text, (text.flatMap Quoted.encodeChar).length + 1) := by
  induction text with
  | nil =>
    rw [scanLiteral.eq_def]
    simp
  | cons c text ih =>
    obtain ⟨hc, htext⟩ := List.forall_mem_cons.1 h
    rw [List.flatMap_cons, List.append_assoc, scanLiteral_encodeChar hc, ih htext, Option.map_some,
      List.length_append]
    congr 2
    omega

/-- A pattern without a slash is read again up to the next slash, wherever it came from. -/
theorem scanPattern_append {cs text : List Char} {n : Nat} (h : scanPattern cs = some (text, n))
    (hslash : '/' ∉ text) (rest : List Char) :
    scanPattern (text ++ '/' :: rest) = some (text, text.length + 1) := by
  fun_induction scanPattern cs generalizing text n with
  | case1 => cases h
  | case2 cs =>
    obtain ⟨rfl, -⟩ := Prod.mk.inj (Option.some.inj h)
    rw [scanPattern.eq_def]
    rfl
  | case3 => cases h
  | case4 e cs hc ih =>
    obtain ⟨⟨text', n'⟩, hrest, he⟩ := Option.map_eq_some_iff.1 h
    obtain ⟨rfl, -⟩ := Prod.mk.inj he
    -- a backslash before a slash would have left the slash in the text
    have he : e ≠ '/' := by
      rintro rfl
      simp at hslash
    rw [if_neg he] at hslash ⊢
    have hread := ih hrest (List.not_mem_of_not_mem_cons (List.not_mem_of_not_mem_cons hslash))
    rw [List.cons_append, List.cons_append, scanPattern.eq_def]
    simp [he, hread]
  | case5 => cases h
  | case6 c cs hslash' hbackslash hnewline ih =>
    obtain ⟨⟨text', n'⟩, hrest, he⟩ := Option.map_eq_some_iff.1 h
    obtain ⟨rfl, -⟩ := Prod.mk.inj he
    have hread := ih hrest (List.not_mem_of_not_mem_cons hslash)
    rw [List.cons_append, scanPattern.eq_def]
    simp [hslash', hbackslash, hnewline, hread]

theorem takeWhile_isAlpha_append {flags : List Char} (h : ∀ c ∈ flags, c.isAlpha = true) {rest : List Char}
    (hrest : Stopped rest) : (flags ++ rest).takeWhile Char.isAlpha = flags := by
  rw [List.takeWhile_append_of_pos h]
  cases rest with
  | nil => simp
  | cons c rest => simp [hrest c rest rfl]

theorem isAlpha_of_isPatternFlag {c : Char} (h : isPatternFlag c = true) : c.isAlpha = true := by
  simp only [isPatternFlag, Bool.or_eq_true, beq_iff_eq] at h
  rcases h with ((rfl | rfl) | rfl) | rfl <;> rfl

theorem scanPatternWithFlags_append {text flags : String} (h : (LexemeKind.pattern text flags).Writable)
    (hslash : '/' ∉ text.toList) {rest : List Char} (hrest : Stopped rest) :
    scanPatternWithFlags (text.toList ++ '/' :: (flags.toList ++ rest)) =
      .ok (.pattern text flags, text.toList.length + flags.toList.length + 2) := by
  obtain ⟨⟨cs, n, hscan⟩, hflags⟩ := h
  have htake := takeWhile_isAlpha_append (fun c hc => isAlpha_of_isPatternFlag (hflags c hc)) hrest
  have hdrop : (text.toList ++ '/' :: (flags.toList ++ rest)).drop (text.toList.length + 1) =
      flags.toList ++ rest := by simp
  have hfind : flags.toList.find? (!isPatternFlag ·) = none :=
    List.find?_eq_none.2 fun c hc => by simp [hflags c hc]
  rw [scanPatternWithFlags, scanPattern_append hscan hslash]
  simp only [hdrop, htake, hfind, String.ofList_toList]
  congr 2
  omega

/-! ## Texts without comments -/

/-- The text is made up of lexemes of these kinds and blanks. -/
inductive Lexes : List Char → List LexemeKind → Prop
  | nil : Lexes [] []
  | blank {c : Char} {cs : List Char} {kinds : List LexemeKind} (hc : isBlank c = true)
    (h : Lexes cs kinds) : Lexes (c :: cs) kinds
  | scan {c : Char} {front cs : List Char} {kind : LexemeKind} {kinds : List LexemeKind}
    (hc : isBlank c = false) (hcomment : c ≠ '#')
    (hscan : Notation.scan c (front ++ cs) = .ok (kind, front.length + 1)) (h : Lexes cs kinds) :
    Lexes (c :: (front ++ cs)) (kind :: kinds)

variable {cs k : List Char} {kinds : List LexemeKind}

theorem Lexes.lexemesFrom (h : Lexes cs kinds) : ∀ {fuel : Nat} (place : Location), cs.length < fuel →
    ∃ ls stop, lexemesFrom fuel place cs = .ok (ls, stop) ∧ ls.map Lexeme.kind = kinds := by
  induction h with
  | nil =>
    intro fuel place hfuel
    obtain ⟨fuel, rfl⟩ := Nat.exists_eq_succ_of_ne_zero (Nat.ne_zero_of_lt hfuel)
    exact ⟨[], place, rfl, rfl⟩
  | @blank c cs kinds hc _ ih =>
    intro fuel place hfuel
    obtain ⟨fuel, rfl⟩ := Nat.exists_eq_succ_of_ne_zero (Nat.ne_zero_of_lt hfuel)
    rw [Notation.lexemesFrom, if_pos hc]
    exact ih _ (Nat.lt_of_succ_lt_succ hfuel)
  | @scan c front cs kind kinds hc hcomment hscan _ ih =>
    intro fuel place hfuel
    obtain ⟨fuel, rfl⟩ := Nat.exists_eq_succ_of_ne_zero (Nat.ne_zero_of_lt hfuel)
    simp only [List.length_cons, List.length_append] at hfuel
    obtain ⟨ls, stop, hls, hkinds⟩ := @ih fuel
      (advanceAll place ((c :: (front ++ cs)).take (front.length + 1))) (by omega)
    refine ⟨⟨kind, place⟩ :: ls, stop, ?_, by rw [List.map_cons, hkinds]⟩
    rw [Notation.lexemesFrom, if_neg (by simp [hc]), if_neg hcomment, hscan]
    simp only [List.drop_succ_cons, List.drop_left, hls, bind, Except.bind]

/-- A text made up of lexemes is cut into them. -/
theorem Lexes.lexemes {text : String} (h : Lexes text.toList kinds) :
    ∃ ls stop, lexemes text = .ok (ls, stop) ∧ ls.map Lexeme.kind = kinds :=
  h.lexemesFrom _ (Nat.lt_succ_self _)

namespace Lexes

theorem space (h : Lexes cs kinds) : Lexes (' ' :: cs) kinds := .blank (by decide +kernel) h

theorem newline (h : Lexes cs kinds) : Lexes ('\n' :: cs) kinds := .blank (by decide +kernel) h

theorem pipe (h : Lexes cs kinds) : Lexes ('|' :: cs) (.pipe :: kinds) :=
  @Lexes.scan '|' [] cs _ kinds (by decide +kernel) (by decide) rfl h

theorem define (h : Lexes cs kinds) : Lexes (':' :: ':' :: '=' :: cs) (.define :: kinds) :=
  @Lexes.scan ':' [':', '='] cs _ kinds (by decide +kernel) (by decide) rfl h

theorem reference {name : String} (hname : Nameable name) (h : Lexes cs kinds) :
    Lexes ('<' :: (name.toList ++ '>' :: cs)) (.reference name :: kinds) := by
  have hscan : Notation.scan '<' (name.toList ++ ['>'] ++ cs) =
      .ok (.reference name, (name.toList ++ ['>']).length + 1) := by
    simpa [Notation.scan] using scanReference_append hname cs
  simpa using Lexes.scan (by decide +kernel) (by decide) hscan h

theorem literal {text : String} (htext : ∀ c ∈ text.toList, Quoted.Plain c) (h : Lexes cs kinds) :
    Lexes ((Quoted.encode text).toList ++ cs) (.literal text :: kinds) := by
  have hscan : Notation.scan '"' (text.toList.flatMap Quoted.encodeChar ++ ['"'] ++ cs) =
      .ok (.literal text, (text.toList.flatMap Quoted.encodeChar ++ ['"']).length + 1) := by
    simp [Notation.scan, scan.literal, scanLiteral_encode htext cs]
  simpa [Quoted.encode] using Lexes.scan (by decide +kernel) (by decide) hscan h

theorem pattern {text flags : String} (hw : (LexemeKind.pattern text flags).Writable)
    (hslash : '/' ∉ text.toList) (hcs : Stopped cs) (h : Lexes cs kinds) :
    Lexes ('/' :: (text.toList ++ '/' :: (flags.toList ++ cs))) (.pattern text flags :: kinds) := by
  have hscan : Notation.scan '/' (text.toList ++ '/' :: flags.toList ++ cs) =
      .ok (.pattern text flags, (text.toList ++ '/' :: flags.toList).length + 1) := by
    have hread := scanPatternWithFlags_append hw hslash hcs
    simp only [Notation.scan, List.append_assoc, List.cons_append, List.length_append, List.length_cons, hread]
    rfl
  simpa using Lexes.scan (by decide +kernel) (by decide) hscan h

end Lexes

end Notation

end ParseForest
