import ParseForest.Proofs.Grammar.Annotations
import ParseForest.Proofs.Notation.Reading
import ParseForest.Proofs.Notation.Unambiguous

/-!
# Annotations in EBNF

The annotations in a text, each with the literal that it belongs to (`marksFrom`), are those of its tree
(`marksFrom_rules`). While a text is read, what has been noted of literals is what some of them say (`NotesOnly`);
so where they do not contradict each other, none of them is rejected (`NotesOnly.annotateBy`).
-/

namespace ParseForest

namespace Notation

/-! ## Annotations -/

/-- The annotations do not contradict each other. -/
def Mark.Agrees : Mark → Mark → Prop
  | .precedence level, .precedence level' => level = level'
  | .associativity side, .associativity side' => side = side'
  | _, _ => True

/-- The annotations among lexemes, each with the literal before it. The first of them may go to a literal that
has been read. -/
def marksFrom : Option String → List LexemeKind → List (String × Mark)
  | _, .literal text :: rest => marksFrom (some text) rest
  | some text, .precedence level :: rest => (text, .precedence level) :: marksFrom (some text) rest
  | some text, .associativity side :: rest => (text, .associativity side) :: marksFrom (some text) rest
  | _, _ :: rest => marksFrom none rest
  | _, [] => []

/-- No two annotations of one literal contradict each other. -/
def Consonant (marks : List (String × Mark)) : Prop :=
  ∀ x ∈ marks, ∀ y ∈ marks, x.1 = y.1 → x.2.Agrees y.2

mutual

/-- The annotations in an expression. -/
def Primary.marks : Primary → List (String × Mark)
  | .reference _ => []
  | .literal text marks => marks.map (text, ·)
  | .pattern _ _ => []
  | .group body => body.marks

/-- The annotations in a sequence. -/
def Sequence.marks : Sequence → List (String × Mark)
  | .nil => []
  | .cons item _ rest => item.marks ++ rest.marks

/-- The annotations in alternatives. -/
def Choice.marks : Choice → List (String × Mark)
  | .last s => s.marks
  | .more s rest => s.marks ++ rest.marks

end

variable {kinds : List LexemeKind}

theorem marksFrom_of_unmarked (h : Unmarked kinds) (before : Option String) :
    marksFrom before kinds = marksFrom none kinds := by
  cases before with
  | none => rfl
  | some text =>
    cases kinds with
    | nil => rfl
    | cons kind rest =>
      cases kind with
      | precedence level => exact absurd rfl (h (.precedence level) rest)
      | associativity side => exact absurd rfl (h (.associativity side) rest)
      | _ => rfl

theorem marksFrom_marks (h : Unmarked kinds) (text : String) (marks : List Mark) :
    marksFrom (some text) (marks.map Mark.kind ++ kinds) = marks.map (text, ·) ++ marksFrom none kinds := by
  induction marks with
  | nil => exact marksFrom_of_unmarked h _
  | cons m marks ih => cases m <;> exact congrArg (_ :: ·) ih

theorem marksFrom_modifier (m : Option Modifier) (kinds : List LexemeKind) :
    marksFrom none (m.toList.map Modifier.kind ++ kinds) = marksFrom none kinds := by
  cases m with
  | none => rfl
  | some m => cases m <;> rfl

mutual

theorem Primary.marksFrom_kinds {kinds : List LexemeKind} (h : Unmarked kinds) : ∀ p : Primary,
    marksFrom none (p.kinds ++ kinds) = p.marks ++ marksFrom none kinds
  | .reference _ => rfl
  | .literal text marks => marksFrom_marks h text marks
  | .pattern _ _ => rfl
  | .group body => by
    simp only [Primary.kinds, List.cons_append, List.append_assoc, Primary.marks]
    exact Choice.marksFrom_kinds (.close _) body

theorem Sequence.marksFrom_kinds {kinds : List LexemeKind} (h : Ends kinds) : ∀ s : Sequence,
    marksFrom none (s.kinds ++ kinds) = s.marks ++ marksFrom none kinds
  | .nil => rfl
  | .cons p m s => by
    rw [Sequence.kinds_cons_append, Primary.marksFrom_kinds (unmarked_modifier m (s.fresh h)) p,
      marksFrom_modifier m, Sequence.marksFrom_kinds h s, Sequence.marks, List.append_assoc]

theorem Choice.marksFrom_kinds {kinds : List LexemeKind} (h : Ends kinds) : ∀ c : Choice,
    marksFrom none (c.kinds ++ kinds) = c.marks ++ marksFrom none kinds
  | .last s => Sequence.marksFrom_kinds h s
  | .more s c => by
    have hs := Sequence.marksFrom_kinds (.pipe (c.kinds ++ kinds)) s
    rw [Choice.kinds, List.append_assoc, List.cons_append, hs, Choice.marks, List.append_assoc]
    exact congrArg (s.marks ++ ·) (Choice.marksFrom_kinds h c)

end

/-- The annotations in a text are those in the bodies of its rules. -/
theorem marksFrom_rules (rules : List (String × Choice)) :
    marksFrom none (rules.flatMap ruleKinds) = rules.flatMap fun rule => rule.2.marks := by
  induction rules with
  | nil => rfl
  | cons rule rules ih =>
    have hbody := Choice.marksFrom_kinds (ends_rules rules).1 rule.2
    simp only [List.flatMap_cons, ruleKinds, List.cons_append]
    exact hbody.trans (congrArg (rule.2.marks ++ ·) ih)

/-! ## What builders note -/

/-- The terminals are the same, with the same annotations. -/
def SameTerminals (b b' : GrammarBuilder) : Prop :=
  b'.terminals = b.terminals ∧ b'.associativities = b.associativities

namespace SameTerminals

variable {b b' b'' : GrammarBuilder}

theorem refl (b : GrammarBuilder) : SameTerminals b b := ⟨rfl, rfl⟩

theorem trans (h : SameTerminals b b') (h' : SameTerminals b' b'') : SameTerminals b b'' :=
  ⟨h'.1.trans h.1, h'.2.trans h.2⟩

theorem internRule (b : GrammarBuilder) (name : String) (kind : RuleKind) :
    SameTerminals b (b.internRule name kind).2 := by
  rw [GrammarBuilder.internRule]
  split <;> exact ⟨rfl, rfl⟩

theorem mention (b : GrammarBuilder) (name : String) (place : Location) :
    SameTerminals b (b.mention name place).2 :=
  (internRule b name _).trans ⟨rfl, rfl⟩

theorem addAlternative (b : GrammarBuilder) (id : RuleId) (symbols : List Symbol) :
    SameTerminals b (b.addAlternative id symbols) := by
  rw [GrammarBuilder.addAlternative]
  dsimp only
  split
  · exact refl b
  · split <;> split <;> exact ⟨rfl, rfl⟩

theorem addAlternatives (b : GrammarBuilder) (id : RuleId) (lists : List (List Symbol)) :
    SameTerminals b (lists.foldl (fun b symbols => b.addAlternative id symbols) b) := by
  induction lists generalizing b with
  | nil => exact refl b
  | cons symbols lists ih => exact (addAlternative b id symbols).trans (ih _)

theorem syntheticRule (b : GrammarBuilder) (name : String) (kind : RuleKind)
    (alternatives : Symbol → List (List Symbol)) :
    SameTerminals b (Reader.syntheticRule b name kind alternatives).2 := by
  rw [Reader.syntheticRule]
  dsimp only
  split
  · exact internRule b name kind
  · exact (internRule b name kind).trans (addAlternatives _ _ _)

theorem listRule (b : GrammarBuilder) (symbols : List Symbol) :
    SameTerminals b (Reader.listRule b symbols).2 := syntheticRule b _ _ _

theorem optionalRule (b : GrammarBuilder) (symbols : List Symbol) :
    SameTerminals b (Reader.optionalRule b symbols).2 := syntheticRule b _ _ _

theorem modifiedSymbol (b : GrammarBuilder) (c : Char) (symbols : List Symbol) :
    SameTerminals b (Reader.modifiedSymbol b c symbols).2 := by
  rw [Reader.modifiedSymbol]
  split
  · exact listRule b symbols
  · split
    · exact optionalRule b symbols
    · exact (listRule b symbols).trans (optionalRule _ _)

theorem groupSymbols (b : GrammarBuilder) (lists : List (List Symbol)) :
    SameTerminals b (Reader.groupSymbols b lists).2 := by
  rw [Reader.groupSymbols.eq_def]
  split
  · exact refl b
  · exact syntheticRule b _ _ _

end SameTerminals

/-- What has been noted of literals is what some of the annotations say. -/
structure NotesOnly (marks : List (String × Mark)) (b : GrammarBuilder) : Prop where
  precedence : ∀ {i : TerminalId} {l p}, b.terminals[i]? = some (.literal l) → l.precedence = some p →
    (l.text, .precedence p) ∈ marks
  associativity : ∀ {i : TerminalId} {side}, b.associativities.lookup i = some side →
    ∃ l, b.terminals[i]? = some (.literal l) ∧ (l.text, .associativity side) ∈ marks

namespace NotesOnly

variable {marks : List (String × Mark)} {b b' : GrammarBuilder}

theorem congr (h : NotesOnly marks b) (hs : SameTerminals b b') : NotesOnly marks b' := by
  obtain ⟨hterminals, hassociativities⟩ := hs
  exact ⟨hterminals ▸ h.precedence, hterminals ▸ hassociativities ▸ h.associativity⟩

/-- A new terminal has no annotations. -/
theorem internTerminal (h : NotesOnly marks b) {t : Terminal} (ht : ∀ l, t = .literal l → l.precedence = none) :
    NotesOnly marks (b.internTerminal t).2 := by
  rw [GrammarBuilder.internTerminal]
  split
  · exact h
  · refine ⟨fun {i l p} hl hp => ?_, fun {i side} hside => ?_⟩
    · rcases Array.getElem?_push_cases hl with hl | ⟨-, hl⟩
      · exact h.precedence hl hp
      · rw [ht l hl.symm] at hp
        cases hp
    · obtain ⟨l, hl, hmem⟩ := h.associativity hside
      have hlt := (Array.getElem?_eq_some_iff.1 hl).1
      exact ⟨l, by rw [Array.getElem?_push_lt hlt, ← hl, Array.getElem?_eq_getElem hlt], hmem⟩

/-- Noting what some of the annotations say. -/
theorem noted (h : NotesOnly marks b) {n : GrammarBuilder.Marking} {l : Literal}
    (hl : b.terminals[n.terminal]? = some (.literal l)) (hn : GrammarBuilder.Noted [n] b b')
    (hp : ∀ p, n.precedence = some p → (l.text, .precedence p) ∈ marks)
    (ha : ∀ side, n.associativity = some side → (l.text, .associativity side) ∈ marks) :
    NotesOnly marks b' := by
  refine ⟨fun {i l' p} hl' hp' => ?_, fun {i side} hside => ?_⟩
  · obtain ⟨l₀, hl₀, htext, hprecedence⟩ := hn.literal hl'
    rw [htext]
    rw [hprecedence, Option.or_eq_some_iff] at hp'
    rcases hp' with hp' | ⟨-, hsaid⟩
    · exact h.precedence hl₀ hp'
    · simp only [GrammarBuilder.Marking.said, Option.or_none] at hsaid
      split at hsaid
      · rename_i hi
        obtain rfl := Terminal.literal.inj (Option.some.inj ((hi ▸ hl).symm.trans hl₀))
        exact hp p hsaid
      · cases hsaid
  · rw [hn.lookup, Option.or_eq_some_iff] at hside
    rcases hside with hside | ⟨-, hsaid⟩
    · obtain ⟨l₀, hl₀, hmem⟩ := h.associativity hside
      obtain ⟨l', hl', htext⟩ := hn.exists_literal hl₀
      exact ⟨l', hl', htext ▸ hmem⟩
    · simp only [GrammarBuilder.Marking.said, Option.or_none] at hsaid
      split at hsaid
      · rename_i hi
        obtain ⟨l', hl', htext⟩ := hn.exists_literal (hi ▸ hl)
        exact ⟨l', hl', htext ▸ ha side hsaid⟩
      · cases hsaid

end NotesOnly

/-- An annotation of a literal as a call of the builder. -/
def Mark.marking (id : TerminalId) (place : Location) : Mark → GrammarBuilder.Marking
  | .precedence level => ⟨id, some level, none, place⟩
  | .associativity side => ⟨id, none, some side, place⟩

theorem NotesOnly.annotateBy {marks : List (String × Mark)} {b : GrammarBuilder} (h : NotesOnly marks b)
    (hc : Consonant marks) {id : TerminalId} {l : Literal} (hl : b.terminals[id]? = some (.literal l))
    {m : Mark} (hm : (l.text, m) ∈ marks) (place : Location) :
    ∃ b', b.annotateBy (m.marking id place) = (.ok (), b') ∧ NotesOnly marks b' ∧
      ∃ l', b'.terminals[id]? = some (.literal l') ∧ l'.text = l.text := by
  have hfits : (m.marking id place).Fits b := by
    cases m with
    | precedence level =>
      refine ⟨l, hl, fun p hp q hq => ?_, .none_left⟩
      obtain rfl := Option.some.inj hp
      exact hc _ hm _ (h.precedence hl hq) rfl
    | associativity side =>
      refine ⟨l, hl, .none_left, fun a ha c hc' => ?_⟩
      obtain rfl := Option.some.inj ha
      obtain ⟨l', hl', hmem⟩ := h.associativity hc'
      obtain rfl := Terminal.literal.inj (Option.some.inj (hl.symm.trans hl'))
      exact hc _ hm _ hmem rfl
  rcases b.annotateBy_cases (m.marking id place) with ⟨-, b', hb', hnoted⟩ | ⟨hn, -⟩ | ⟨hn, -⟩
  · have hl' : b.terminals[(m.marking id place).terminal]? = some (.literal l) := by cases m <;> exact hl
    refine ⟨b', hb', h.noted hl' hnoted (fun p hp => ?_) (fun side hside => ?_),
      hnoted.exists_literal hl⟩
    · cases m with
      | precedence level => exact Option.some.inj hp ▸ hm
      | associativity side => cases hp
    · cases m with
      | precedence level => cases hside
      | associativity side => exact Option.some.inj hside ▸ hm
  · exact absurd hfits hn
  · exact absurd hfits hn

theorem notesOnly_declareClasses {marks : List (String × Mark)} (classes : List (String × String))
    {b : GrammarBuilder}
    (h : NotesOnly marks b) :
    NotesOnly marks (classes.foldl (fun b (name, pattern) => b.declareClass name pattern) b) := by
  induction classes generalizing b with
  | nil => exact h
  | cons c classes ih =>
    have hc : SameTerminals b (b.declareClass c.1 c.2) := by
      rw [GrammarBuilder.declareClass]
      split <;> exact ⟨rfl, rfl⟩
    exact ih (h.congr hc)

theorem notesOnly_new (marks : List (String × Mark)) : NotesOnly marks .new where
  precedence hl := by simp [GrammarBuilder.new] at hl
  associativity hside := by simp [GrammarBuilder.new] at hside

end Notation

end ParseForest
