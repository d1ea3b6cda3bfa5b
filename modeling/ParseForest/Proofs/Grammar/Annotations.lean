import Mathlib.Data.List.Perm.Basic
import ParseForest.Proofs.Grammar.Built

/-!
# Annotations of operators

An annotation that fits what a builder has noted is noted as well, and nothing else changes
(`GrammarBuilder.Noted`). One that does not fit is rejected. The precedence is noted before the associativity is
looked at, so a rejected annotation leaves what its precedence alone would have left. Whether annotations fit
one after the other does not depend on their order (`annotateAll_eq_ok_iff`), nor does what they leave. Main
statement: `annotateBy_rejected_and_annotateAll_perm`.
-/

namespace ParseForest

/-- Nothing that is known on one side contradicts the other. -/
def Agree {α : Type} (x y : Option α) : Prop := ∀ a ∈ x, ∀ b ∈ y, a = b

namespace Agree

variable {α : Type} {x y z : Option α}

theorem symm (h : Agree x y) : Agree y x := fun _ ha _ hb => (h _ hb _ ha).symm

@[simp] theorem none_left : Agree none y := fun _ ha => nomatch ha

@[simp] theorem none_right : Agree x none := none_left.symm

@[simp] theorem some_some {a b : α} : Agree (some a) (some b) ↔ a = b := by simp [Agree]

/-- What is known from one side or the other agrees with a third if each does. -/
theorem or_iff (h : Agree x y) : Agree z (x.or y) ↔ Agree z x ∧ Agree z y := by
  cases x with
  | none => simp
  | some a =>
    refine (and_iff_left_of_imp fun hz c hc b hb => ?_).symm
    exact (hz c hc a rfl).trans (h a rfl b hb)

theorem or (h : Agree z x) (h' : Agree z y) : Agree z (x.or y) := by
  cases x with
  | none => exact h'
  | some a => exact h

theorem or_comm (h : Agree x y) : x.or y = y.or x := by
  cases x <;> cases y <;> simp_all

end Agree

/-- The literal with a precedence and an associativity noted, as far as they are given. -/
def Terminal.note (precedence : Option Nat) (associativity : Option Associativity) : Terminal → Terminal
  | .literal l => .literal
    { l with precedence := l.precedence.or precedence, associativity := associativity.getD l.associativity }
  | .pattern p => .pattern p

@[simp] theorem Terminal.note_none : Terminal.note none none = id := by
  funext t
  cases t <;> simp [note]

theorem Terminal.note_note {p p' : Option Nat} {a a' : Option Associativity} (ha : Agree a a') (t : Terminal) :
    (t.note p a).note p' a' = t.note (p.or p') (a.or a') := by
  cases t with
  | pattern => rfl
  | literal l => cases a <;> cases a' <;> simp_all [note, Option.or_assoc]

namespace GrammarBuilder

/-- The operator annotation of a terminal, with the place where it stands. -/
structure Marking where
  terminal : TerminalId
  precedence : Option Nat
  associativity : Option Associativity
  place : Location

/-! ## Annotations that fit together -/

namespace Marking

variable {n m : Marking} {α : Type} {f : Marking → Option α}

/-- The annotation is one of a literal, and agrees with what has been noted of the literal. -/
def Fits (n : Marking) (b : GrammarBuilder) : Prop :=
  ∃ l, b.terminals[n.terminal]? = some (.literal l) ∧ Agree n.precedence l.precedence ∧
    Agree n.associativity (b.associativities.lookup n.terminal)

/-- The annotations do not contradict each other. -/
def Agrees (n m : Marking) : Prop :=
  n.terminal = m.terminal → Agree n.precedence m.precedence ∧ Agree n.associativity m.associativity

theorem Agrees.symm (h : n.Agrees m) : m.Agrees n := fun heq =>
  have ⟨hp, ha⟩ := h heq.symm
  ⟨hp.symm, ha.symm⟩

/-- What the first annotation that says something says of a terminal. -/
def said (f : Marking → Option α) : List Marking → TerminalId → Option α
  | [], _ => none
  | n :: rest, i => (if n.terminal = i then f n else none).or (said f rest i)

theorem agree_said {annotations : List Marking} {x : Option α} {i : TerminalId}
    (h : ∀ n ∈ annotations, n.terminal = i → Agree x (f n)) : Agree x (said f annotations i) := by
  induction annotations with
  | nil => exact .none_right
  | cons n rest ih =>
    refine .or ?_ (ih fun m hm => h m (.tail _ hm))
    split
    · exact h n (.head _) ‹_›
    · exact .none_right

/-- Among annotations that fit together the order does not matter. -/
theorem said_perm {annotations annotations' : List Marking} (hperm : annotations.Perm annotations')
    (h : annotations.Pairwise fun n m => n.terminal = m.terminal → Agree (f n) (f m)) (i : TerminalId) :
    said f annotations i = said f annotations' i := by
  induction hperm with
  | nil => rfl
  | cons n _ ih => rw [said, said, ih h.of_cons]
  | swap n m rest =>
    have hagree : Agree (if m.terminal = i then f m else none) (if n.terminal = i then f n else none) := by
      split
      · split
        · exact (List.pairwise_cons.1 h).1 n (.head _) (by simp_all)
        · exact .none_right
      · exact .none_left
    simp only [said, ← Option.or_assoc, hagree.or_comm]
  | trans hperm _ ih ih' =>
    rw [ih h, ih' ((hperm.pairwise_iff fun h heq => (h heq.symm).symm).1 h)]

end Marking

variable {b b' b'' : GrammarBuilder} {n m : Marking} {annotations annotations' : List Marking}

/-! ## One annotation -/

/-- The second builder is the first with what annotations say of its literals noted. -/
structure Noted (annotations : List Marking) (b b' : GrammarBuilder) : Prop where
  terminal : ∀ i : TerminalId, b'.terminals[i]? = b.terminals[i]?.map
    (.note (Marking.said Marking.precedence annotations i)
      (Marking.said Marking.associativity annotations i))
  lookup : ∀ i, b'.associativities.lookup i =
    (b.associativities.lookup i).or (Marking.said Marking.associativity annotations i)
  drafts : b'.drafts = b.drafts
  classes : b'.tokenClasses = b.tokenClasses
  first : b'.first = b.first

theorem Noted.refl (b : GrammarBuilder) : Noted [] b b :=
  ⟨fun i => by simp [Marking.said], fun i => by simp [Marking.said], rfl, rfl, rfl⟩

/-- A literal in which something has been noted was there before. -/
theorem Noted.literal (h : Noted annotations b b') {i : TerminalId} {l' : Literal}
    (hl' : b'.terminals[i]? = some (.literal l')) : ∃ l, b.terminals[i]? = some (.literal l) ∧
      l'.text = l.text ∧
      l'.precedence = l.precedence.or (Marking.said Marking.precedence annotations i) := by
  rw [h.terminal, Option.map_eq_some_iff] at hl'
  obtain ⟨t, ht, heq⟩ := hl'
  cases t with
  | pattern => cases heq
  | literal l =>
    obtain rfl := Terminal.literal.inj heq
    exact ⟨l, ht, rfl, rfl⟩

/-- A literal stays the literal that it is. -/
theorem Noted.exists_literal (h : Noted annotations b b') {i : TerminalId} {l : Literal}
    (hl : b.terminals[i]? = some (.literal l)) :
    ∃ l', b'.terminals[i]? = some (.literal l') ∧ l'.text = l.text := by
  rw [h.terminal, hl]
  exact ⟨_, rfl, rfl⟩

theorem Noted.cons (h : Noted [n] b b') (h' : Noted annotations b' b'')
    (hn : ∀ m ∈ annotations, n.Agrees m) : Noted (n :: annotations) b b'' where
  terminal i := by
    have hagree : Agree (if n.terminal = i then n.associativity else none)
        (Marking.said Marking.associativity annotations i) := by
      split
      · rename_i hi
        exact Marking.agree_said fun m hm hi' => (hn m hm (hi.trans hi'.symm)).2
      · exact .none_left
    rw [h'.terminal, h.terminal, Option.map_map]
    exact congrArg (Option.map · _) (funext fun t => by simp [Marking.said, Terminal.note_note hagree])
  lookup i := by rw [h'.lookup, h.lookup, Option.or_assoc]; simp [Marking.said]
  drafts := h'.drafts.trans h.drafts
  classes := h'.classes.trans h.classes
  first := h'.first.trans h.first

/-- Noting an annotation of a literal where the literal stands. -/
theorem Noted.setLiteral {l : Literal} (hl : b.terminals[n.terminal]? = some (.literal l))
    (hterminals : b'.terminals =
      b.terminals.setIfInBounds n.terminal (.note n.precedence n.associativity (.literal l)))
    (hlookup : ∀ i, b'.associativities.lookup i =
      (b.associativities.lookup i).or (if n.terminal = i then n.associativity else none))
    (hdrafts : b'.drafts = b.drafts) (hclasses : b'.tokenClasses = b.tokenClasses)
    (hfirst : b'.first = b.first) : Noted [n] b b' := by
  refine ⟨fun i => ?_, fun i => by simpa [Marking.said] using hlookup i, hdrafts, hclasses, hfirst⟩
  obtain ⟨hlt, hget⟩ := Array.getElem?_eq_some_iff.1 hl
  by_cases hi : n.terminal = i
  · subst hi
    simp [hterminals, hlt, hget, Marking.said]
  · simp [hterminals, Marking.said, hi]

theorem setLiteral_self {id : TerminalId} {l : Literal} (hl : b.terminals[id]? = some (.literal l)) :
    b.setLiteral id l = b := by
  obtain ⟨hlt, hget⟩ := Array.getElem?_eq_some_iff.1 hl
  simp [setLiteral, Array.setIfInBounds, hlt, ← hget]

/-- The first half of a call, which notes the precedence. -/
theorem annotate_cases {id : TerminalId} {l : Literal} (hl : b.terminals[id]? = some (.literal l))
    (precedence : Option Nat) (associativity : Option Associativity) (place : Location) :
    let l' : Literal := { l with precedence := l.precedence.or precedence }
    let conflict := GrammarError.conflictingPrecedence l.text place
    (Agree precedence l.precedence ∧ b.annotate id precedence associativity place =
      annotate.annotateAssociativity (b.setLiteral id l') id l' associativity conflict) ∨
    (¬ Agree precedence l.precedence ∧
      b.annotate id precedence associativity place = (.error conflict, b)) := by
  obtain ⟨text, known, side⟩ := l
  simp only [annotate, hl]
  cases precedence with
  | none => exact .inl ⟨.none_left, by rw [Option.or_none, setLiteral_self hl]⟩
  | some p =>
    cases known with
    | none => exact .inl ⟨.none_right, rfl⟩
    | some q =>
      by_cases hpq : p = q
      · exact .inl ⟨Agree.some_some.2 hpq, by simp [hpq, setLiteral_self hl]⟩
      · exact .inr ⟨mt Agree.some_some.1 hpq, by simp [hpq]⟩

/-- The second half of a call, which looks at the associativity. -/
theorem annotateAssociativity_cases (b : GrammarBuilder) (id : TerminalId) (l' : Literal)
    (associativity : Option Associativity) (conflict : GrammarError) :
    (Agree associativity (b.associativities.lookup id) ∧ ∃ b',
      annotate.annotateAssociativity (b.setLiteral id l') id l' associativity conflict = (.ok (), b') ∧
      b'.terminals = b.terminals.setIfInBounds id (.note none associativity (.literal l')) ∧
      (∀ i, b'.associativities.lookup i =
        (b.associativities.lookup i).or (if id = i then associativity else none)) ∧
      b'.drafts = b.drafts ∧ b'.tokenClasses = b.tokenClasses ∧ b'.first = b.first) ∨
    (¬ Agree associativity (b.associativities.lookup id) ∧ associativity ≠ none ∧
      annotate.annotateAssociativity (b.setLiteral id l') id l' associativity conflict =
        (.error conflict, b.setLiteral id l')) := by
  have hlookup : (b.setLiteral id l').associativities = b.associativities := rfl
  cases associativity with
  | none =>
    exact .inl ⟨.none_left, _, rfl, by simp [Terminal.note, setLiteral], fun i => by simp [hlookup], rfl, rfl, rfl⟩
  | some side =>
    rw [annotate.annotateAssociativity, hlookup]
    cases hknown : b.associativities.lookup id with
    | none =>
      refine .inl ⟨.none_right, _, rfl, by simp [Terminal.note, setLiteral], fun i => ?_, rfl, rfl, rfl⟩
      by_cases hi : id = i
      · simp [← hi, hknown]
      · simp [hi, List.lookup_cons, beq_false_of_ne (Ne.symm hi)]
    | some given =>
      dsimp only
      split
      · rename_i heq
        refine .inl ⟨Agree.some_some.2 heq.symm, _, rfl, by simp [Terminal.note, setLiteral], fun i => ?_, rfl,
          rfl, rfl⟩
        by_cases hi : id = i
        · simp [← hi, hknown, setLiteral]
        · simp [hi, setLiteral]
      · rename_i hne
        exact .inr ⟨fun h => hne (Agree.some_some.1 h).symm, Option.some_ne_none side, rfl⟩

/-- The call that makes an annotation. -/
def annotateBy (b : GrammarBuilder) (n : Marking) : Except GrammarError Unit × GrammarBuilder :=
  b.annotate n.terminal n.precedence n.associativity n.place

/-- An annotation is noted if it fits. Otherwise it is rejected, and nothing changes or its precedence is
noted. -/
theorem annotateBy_cases (b : GrammarBuilder) (n : Marking) :
    (n.Fits b ∧ ∃ b', b.annotateBy n = (.ok (), b') ∧ Noted [n] b b') ∨
    (¬ n.Fits b ∧ ∃ e, b.annotateBy n = (.error e, b)) ∨
    (¬ n.Fits b ∧ ∃ e b', b.annotateBy n = (.error e, b') ∧ n.associativity ≠ none ∧ n.precedence ≠ none ∧
      (∃ l, b.terminals[n.terminal]? = some (.literal l) ∧ l.precedence = none) ∧
      b.annotateBy { n with associativity := none } = (.ok (), b')) := by
  by_cases hliteral : ∃ l, b.terminals[n.terminal]? = some (.literal l)
  · obtain ⟨l, hl⟩ := hliteral
    have hfits : n.Fits b ↔ Agree n.precedence l.precedence ∧
        Agree n.associativity (b.associativities.lookup n.terminal) := by simp [Marking.Fits, hl]
    rw [hfits]
    have hfirst := annotate_cases hl n.precedence
    rcases hfirst n.associativity n.place with ⟨hp, heq⟩ | ⟨hp, heq⟩
    · generalize hl' : ({ l with precedence := l.precedence.or n.precedence } : Literal) = l' at hfirst heq
      rcases annotateAssociativity_cases b n.terminal l' n.associativity (.conflictingPrecedence l.text n.place) with
        ⟨ha, b', hb', hterminals, hlookup, hdrafts, hclasses, hfirst⟩ | ⟨ha, hne, hb'⟩
      · refine .inl ⟨⟨hp, ha⟩, b', heq.trans hb', .setLiteral hl ?_ hlookup hdrafts hclasses hfirst⟩
        simp [hterminals, ← hl', Terminal.note]
      · -- only the precedence is left
        have halone : b.annotateBy { n with associativity := none } = (.ok (), b.setLiteral n.terminal l') := by
          rcases hfirst none n.place with ⟨-, h⟩ | ⟨hp', -⟩
          · exact h
          · exact absurd hp hp'
        by_cases hfresh : l.precedence = none ∧ n.precedence ≠ none
        · exact .inr (.inr ⟨fun h => ha h.2, _, _, heq.trans hb', hne, hfresh.2, ⟨l, hl, hfresh.1⟩, halone⟩)
        · have hknown : l.precedence.or n.precedence = l.precedence := by
            cases hl₀ : l.precedence with
            | none => exact not_not.1 fun h => hfresh ⟨hl₀, h⟩
            | some => rfl
          refine .inr (.inl ⟨fun h => ha h.2, .conflictingPrecedence l.text n.place, (heq.trans hb').trans ?_⟩)
          rw [← hl', hknown, setLiteral_self hl]
    · exact .inr (.inl ⟨fun h => hp h.1, _, heq⟩)
  · refine .inr (.inl ⟨fun ⟨l, hl, _⟩ => hliteral ⟨l, hl⟩, .misplacedMark "operator annotation" n.place, ?_⟩)
    rw [annotateBy, annotate]
    split
    · exact absurd ⟨_, ‹_›⟩ hliteral
    · rfl

/-! ## One annotation after the other -/

/-- What has been noted and fitted is what later annotations have to fit. -/
theorem Noted.fits_iff (h : Noted [n] b b') (hn : n.Fits b) : m.Fits b' ↔ m.Fits b ∧ n.Agrees m := by
  obtain ⟨l, hl, hp, ha⟩ := hn
  by_cases heq : n.terminal = m.terminal
  · have hfits : m.Fits b' ↔ Agree m.precedence (l.precedence.or n.precedence) ∧
        Agree m.associativity ((b.associativities.lookup n.terminal).or n.associativity) := by
      simp [Marking.Fits, h.terminal, h.lookup, Marking.said, ← heq, hl, Terminal.note]
    rw [hfits, Agree.or_iff hp.symm, Agree.or_iff ha.symm, and_and_and_comm]
    simp only [Marking.Fits, Marking.Agrees, ← heq, hl, Option.some.injEq, Terminal.literal.injEq,
      exists_eq_left', forall_const]
    exact and_congr_right fun _ => and_congr ⟨Agree.symm, Agree.symm⟩ ⟨Agree.symm, Agree.symm⟩
  · simp [Marking.Fits, Marking.Agrees, h.terminal, h.lookup, Marking.said, heq]

/-- The builder after all the annotations, unless one is rejected. -/
def annotateAll (b : GrammarBuilder) : List Marking → Except GrammarError GrammarBuilder
  | [] => .ok b
  | n :: rest =>
    match b.annotateBy n with
    | (.error e, _) => .error e
    | (.ok (), b') => b'.annotateAll rest

/-- No annotation is rejected if each fits by itself and no two contradict each other. -/
theorem annotateAll_eq_ok_iff : (∃ b', b.annotateAll annotations = .ok b') ↔
    (∀ n ∈ annotations, n.Fits b) ∧ annotations.Pairwise Marking.Agrees := by
  induction annotations generalizing b with
  | nil => simp [annotateAll]
  | cons n rest ih =>
    rw [annotateAll]
    rcases b.annotateBy_cases n with ⟨hn, b', hb', hnoted⟩ | ⟨hn, e, he⟩ | ⟨hn, e, b', he, -⟩
    · rw [hb']
      simp only [ih, hnoted.fits_iff hn, List.forall_mem_cons, List.pairwise_cons, hn, true_and,
        forall_and, and_assoc]
    · simp [he, hn]
    · simp [he, hn]

theorem noted_of_annotateAll (h : b.annotateAll annotations = .ok b') : Noted annotations b b' := by
  induction annotations generalizing b with
  | nil =>
    obtain rfl := Except.ok.inj h
    exact .refl b
  | cons n rest ih =>
    have hagree := (annotateAll_eq_ok_iff.1 ⟨b', h⟩).2
    rw [annotateAll] at h
    rcases b.annotateBy_cases n with ⟨hn, b₁, hb₁, hnoted⟩ | ⟨-, e, he⟩ | ⟨-, e, b₁, he, -⟩
    · rw [hb₁] at h
      exact hnoted.cons (ih h) (List.pairwise_cons.1 hagree).1
    · simp [he] at h
    · simp [he] at h

/-- A rejected annotation leaves the builder as it was, unless it comes with the first precedence of its
literal: then it leaves what the precedence alone leaves. Annotations that are all noted in one order are all
noted in every order, and leave the same. -/
theorem annotateBy_rejected_and_annotateAll_perm (b : GrammarBuilder) :
    (∀ n e, (b.annotateBy n).1 = .error e → (b.annotateBy n).2 = b ∨
      n.associativity ≠ none ∧ n.precedence ≠ none ∧
      (∃ l, b.terminals[n.terminal]? = some (.literal l) ∧ l.precedence = none) ∧
      b.annotateBy { n with associativity := none } = (.ok (), (b.annotateBy n).2)) ∧
    ∀ annotations annotations' b', annotations.Perm annotations' → b.annotateAll annotations = .ok b' →
      ∃ b'', b.annotateAll annotations' = .ok b'' ∧ b''.terminals = b'.terminals ∧
        (∀ i, b''.associativities.lookup i = b'.associativities.lookup i) ∧
        b''.drafts = b'.drafts ∧ b''.tokenClasses = b'.tokenClasses ∧ b''.first = b'.first := by
  refine ⟨fun n e he => ?_, fun annotations annotations' b' hperm hb' => ?_⟩
  · rcases b.annotateBy_cases n with ⟨-, b', hb', -⟩ | ⟨-, e', he'⟩ | ⟨-, e', b', he', ha, hp, hl, halone⟩
    · simp [hb'] at he
    · exact .inl (by rw [he'])
    · exact .inr ⟨ha, hp, hl, by rw [halone, he']⟩
  · obtain ⟨hfits, hagree⟩ := annotateAll_eq_ok_iff.1 ⟨b', hb'⟩
    obtain ⟨b'', hb''⟩ := annotateAll_eq_ok_iff.2 ⟨fun n hn => hfits n (hperm.mem_iff.2 hn),
      (hperm.pairwise_iff Marking.Agrees.symm).1 hagree⟩
    have h' := noted_of_annotateAll hb'
    have h'' := noted_of_annotateAll hb''
    have hprecedence := Marking.said_perm hperm (hagree.imp fun h heq => (h heq).1)
    have hassociativity := Marking.said_perm hperm (hagree.imp fun h heq => (h heq).2)
    refine ⟨b'', hb'', Array.ext_getElem? fun i => ?_, fun i => ?_, h''.drafts.trans h'.drafts.symm,
      h''.classes.trans h'.classes.symm, h''.first.trans h'.first.symm⟩
    · rw [h''.terminal, h'.terminal, hprecedence, hassociativity]
    · rw [h''.lookup, h'.lookup, hassociativity]

theorem annotateBy_rejected_plus :
    let b := ((GrammarBuilder.new.literal "+").2.annotate 0 none (some .left) ⟨1, 1⟩).2
    let n : Marking := ⟨0, some 1, some .right, ⟨1, 5⟩⟩
    let precedence : Marking := ⟨0, some 1, none, ⟨1, 5⟩⟩
    let associativity : Marking := ⟨0, none, some .left, ⟨1, 9⟩⟩
    b.terminals = #[.literal ⟨"+", none, .left⟩] ∧
    (b.annotateBy n).1 = .error (.conflictingPrecedence "+" ⟨1, 5⟩) ∧
    (b.annotateBy n).2.terminals = #[.literal ⟨"+", some 1, .left⟩] ∧
    b.annotateBy precedence = (.ok (), (b.annotateBy n).2) ∧
    ∃ b' b'', b.annotateAll [precedence, associativity] = .ok b' ∧
      b.annotateAll [associativity, precedence] = .ok b'' ∧ b''.terminals = b'.terminals := by
  intro b n precedence associativity
  have hb : b.terminals = #[.literal ⟨"+", none, .left⟩] := by decide +kernel
  have hterminals : (b.annotateBy n).2.terminals = #[.literal ⟨"+", some 1, .left⟩] := by decide +kernel
  have herror : (b.annotateBy n).1 = .error (.conflictingPrecedence "+" ⟨1, 5⟩) := by decide +kernel
  obtain ⟨hrejected, hperm⟩ := annotateBy_rejected_and_annotateAll_perm b
  refine ⟨hb, herror, hterminals, ?_, ?_⟩
  · rcases hrejected n _ herror with hsame | ⟨-, -, -, halone⟩
    · rw [hsame, hb] at hterminals
      exact absurd hterminals (by decide)
    · exact halone
  · have hall : (b.annotateAll [precedence, associativity]).toBool = true := by decide +kernel
    cases hb' : b.annotateAll [precedence, associativity] with
    | error e => simp [hb', Except.toBool] at hall
    | ok b' =>
      obtain ⟨b'', hb'', hsame, -⟩ := hperm _ _ b' (.swap associativity precedence []) hb'
      exact ⟨b', b'', rfl, hb'', hsame⟩

end GrammarBuilder

end ParseForest
