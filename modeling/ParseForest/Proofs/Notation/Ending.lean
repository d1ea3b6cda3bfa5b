import ParseForest.Proofs.Notation.Reading
import ParseForest.Proofs.Notation.Unambiguous

/-!
# The reader of EBNF comes to an end

Between two lexemes at most four calls of the readers of a body are nested, so fuel in proportion to the lexemes
does not run out (`Reader.ends_of_fuel`), on a text that is read as on one that is not (`Reader.rules_ne`).
-/

namespace ParseForest

namespace Notation

namespace Reader

variable {r : Reader} {fuel : Nat}

theorem bind_ne_error {ε α β : Type} {x : Except ε α} {f : α → Except ε β} {e : ε} (hx : x ≠ .error e)
    (hf : ∀ v, x = .ok v → f v ≠ .error e) : x.bind f ≠ .error e := by
  cases x with
  | error e' => exact fun h => hx (congrArg Except.error (Except.error.inj h))
  | ok v => exact hf v rfl

theorem annotate_ne (b : GrammarBuilder) (id : TerminalId) (precedence : Option Nat)
    (associativity : Option Associativity) (place : Location) :
    (b.annotate id precedence associativity place).1 ≠ .error exhausted := by
  have hassociativity : ∀ (b : GrammarBuilder) (l : Literal) {conflict : GrammarError}, conflict ≠ exhausted →
      (GrammarBuilder.annotate.annotateAssociativity b id l associativity conflict).1 ≠ .error exhausted := by
    intro b l conflict hne
    rw [GrammarBuilder.annotate.annotateAssociativity.eq_def]
    split
    · simp
    · split
      · split
        · simp
        · simpa using hne
      · simp
  rw [GrammarBuilder.annotate]
  split
  · dsimp only
    split
    · split
      · exact hassociativity _ _ (by simp [exhausted])
      · simp [exhausted]
    · exact hassociativity _ _ (by simp [exhausted])
    · exact hassociativity _ _ (by simp [exhausted])
  · simp [exhausted]

theorem annotateWith_ne (id : TerminalId) (b : GrammarBuilder) (stop : Location) (rest : List Lexeme) :
    annotateWith id b stop rest ≠ .error exhausted := by
  induction rest generalizing b with
  | nil => simp [annotateWith]
  | cons lexeme rest ih =>
    rw [annotateWith.eq_def]
    split
    · rename_i level place rest' heq
      obtain ⟨rfl, rfl⟩ := List.cons.inj heq
      have hne := annotate_ne b id (some level) none place
      split
      · rename_i e b' hb'
        rw [hb'] at hne
        exact fun h => hne (congrArg Except.error (Except.error.inj h))
      · exact ih _
    · rename_i side place rest' heq
      obtain ⟨rfl, rfl⟩ := List.cons.inj heq
      have hne := annotate_ne b id none (some side) place
      split
      · rename_i e b' hb'
        rw [hb'] at hne
        exact fun h => hne (congrArg Except.error (Except.error.inj h))
      · exact ih _
    · simp

theorem literal_ne (r : Reader) (text : String) : r.literal text ≠ .error exhausted :=
  bind_ne_error (annotateWith_ne _ _ _ _) fun _ _ => by simp

theorem modifier_ne (r : Reader) (symbols : List Symbol) : r.modifier symbols ≠ .error exhausted := by
  rw [modifier]
  dsimp only
  split
  · simp
  · split
    · simp [exhausted]
    · split
      · simp [exhausted]
      · simp

/-- A reader of alternatives ends with this fuel. -/
def EndsChoice (fuel : Nat) : Prop :=
  ∀ {opened : Option Lexeme} {r : Reader}, r.builder.Resolved → 4 * r.rest.length + 3 < fuel →
    choice fuel opened r ≠ .error exhausted

/-- A reader of an alternative ends with this fuel. -/
def EndsSequence (fuel : Nat) : Prop :=
  ∀ {opened : Option Lexeme} {r : Reader}, r.builder.Resolved → 4 * r.rest.length + 2 < fuel →
    sequence fuel opened r ≠ .error exhausted

/-- A reader of items ends with this fuel. -/
def EndsItems (fuel : Nat) : Prop :=
  ∀ {r : Reader}, r.builder.Resolved → 4 * r.rest.length + 1 < fuel → items fuel r ≠ .error exhausted

/-- A reader of an item ends with this fuel. -/
def EndsItem (fuel : Nat) : Prop :=
  ∀ {r : Reader}, r.builder.Resolved → 4 * r.rest.length < fuel → item fuel r ≠ .error exhausted

theorem EndsChoice.succ (hs : EndsSequence fuel) (hc : EndsChoice fuel) : EndsChoice (fuel + 1) := by
  intro opened r hb hfuel
  rw [choice]
  refine bind_ne_error (hs hb (by omega)) fun p hr' => ?_
  obtain ⟨symbols, r'⟩ := p
  dsimp only
  split
  · rename_i hpipe
    obtain ⟨s, -, hreads, -⟩ := (reads_of_fuel fuel).2.1 hb hr'
    have hskip := reads_skip hreads.effect.resolved hpipe (by simp)
    have hlength := hreads.length_eq
    have hlength' := hskip.length_eq
    rw [List.length_singleton] at hlength'
    exact bind_ne_error (hc hskip.effect.resolved (by omega)) fun _ _ => by simp
  · simp

theorem EndsSequence.succ (hi : EndsItems fuel) : EndsSequence (fuel + 1) := by
  intro opened r hb hfuel
  rw [sequence]
  refine bind_ne_error (hi hb (by omega)) fun p hr' => ?_
  obtain ⟨symbols, r'⟩ := p
  dsimp only
  split
  · rename_i fault hfault
    rw [sequenceEndFault?.eq_def] at hfault
    split at hfault
    · split at hfault
      · simp [← Option.some.inj hfault, exhausted]
      · cases hfault
    · split at hfault
      · simp [← Option.some.inj hfault, exhausted, unexpected]
      · cases hfault
  · split
    · simp [exhausted]
    · simp

theorem EndsItems.succ (hi : EndsItem fuel) (his : EndsItems fuel) : EndsItems (fuel + 1) := by
  intro r hb hfuel
  rw [items]
  split
  · simp
  · refine bind_ne_error (hi hb (by omega)) fun q hr' => ?_
    obtain ⟨symbols, r'⟩ := q
    obtain ⟨p, m, -, hreads, -⟩ := (reads_of_fuel fuel).2.2.2 hb hr'
    obtain ⟨kind, rest, hkinds, -⟩ := p.kinds_cons
    have hlength := hreads.length_eq
    rw [hkinds, List.cons_append, List.length_cons] at hlength
    exact bind_ne_error (his hreads.effect.resolved (by omega)) fun _ _ => by simp

theorem EndsItem.succ (hc : EndsChoice fuel) : EndsItem (fuel + 1) := by
  intro r hb hfuel
  rw [item]
  cases hk : r.peek.kind with
  | reference name => exact modifier_ne _ _
  | literal text => exact bind_ne_error (literal_ne _ _) fun _ _ => modifier_ne _ _
  | pattern text flags => exact modifier_ne _ _
  | openParen =>
    have hskip := reads_skip hb hk (by simp)
    have hlength := hskip.length_eq
    rw [List.length_singleton] at hlength
    refine bind_ne_error (hc hskip.effect.resolved (by omega)) fun p _ => ?_
    obtain ⟨lists, r'⟩ := p
    dsimp only
    split
    · exact modifier_ne _ _
    · simp [bind, Except.bind, exhausted]
  | _ => simp [bind, Except.bind, exhausted, misplaced, unexpected]

theorem ends_of_fuel (fuel : Nat) :
    EndsChoice fuel ∧ EndsSequence fuel ∧ EndsItems fuel ∧ EndsItem fuel := by
  induction fuel with
  | zero =>
    refine ⟨fun _ h => ?_, fun _ h => ?_, fun _ h => ?_, fun _ h => ?_⟩ <;> exact absurd h (Nat.not_lt_zero _)
  | succ fuel ih =>
    obtain ⟨hchoice, hsequence, hitems, hitem⟩ := ih
    exact ⟨EndsChoice.succ hsequence hchoice, EndsSequence.succ hitems, EndsItems.succ hitem hitems,
      EndsItem.succ hchoice⟩

theorem rule_ne (hb : r.builder.Resolved) : rule .ebnf r ≠ .error exhausted := by
  rw [rule]
  dsimp only
  split
  · rename_i name hname
    split
    · simp [exhausted]
    · have hskip := reads_skip hb hname (by simp)
      obtain ⟨hopen, -⟩ := reads_openRule hskip.effect.resolved name
      split
      · rename_i hdefine
        have hdefined := reads_skip hopen.effect.resolved hdefine (by simp)
        exact bind_ne_error ((ends_of_fuel _).1 hdefined.effect.resolved (Nat.lt_succ_self _)) fun _ _ => by simp
      · simp [exhausted, unexpected]
  · simp [exhausted, unexpected]

theorem rules_ne (hb : r.builder.Resolved) (hfuel : r.rest.length < fuel) :
    rules .ebnf fuel r ≠ .error exhausted := by
  induction fuel generalizing r with
  | zero => exact absurd hfuel (Nat.not_lt_zero _)
  | succ fuel ih =>
    rw [rules]
    split
    · simp
    · refine bind_ne_error (rule_ne hb) fun r' hr' => ?_
      obtain ⟨name, body, -, hreads⟩ := reads_rule hb hr'
      have hlength := hreads.length_eq
      rw [ruleKinds, List.length_cons] at hlength
      exact ih hreads.effect.resolved (by omega)

end Reader

end Notation

end ParseForest
