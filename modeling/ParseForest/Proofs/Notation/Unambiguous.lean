import ParseForest.Proofs.Notation.Syntax

/-!
# EBNF is unambiguous

A text is written by one list of rules only (`Written.unique`). A tree is told by its lexemes and the lexeme
after them: an annotation belongs to the literal before it, a modifier to the expression before it, a
reference before `::=` begins the next rule. The lemmas `…kinds_inj` say this of each kind of tree, with what
follows it left open.
-/

namespace ParseForest

namespace Notation

/-- What may not follow an expression whose modifier is known: an annotation, a modifier, `::=`. -/
def Fresh (kinds : List LexemeKind) : Prop :=
  ∀ kind rest, kinds = kind :: rest →
    (∀ m : Mark, kind ≠ m.kind) ∧ (∀ m : Modifier, kind ≠ m.kind) ∧ kind ≠ .define

/-- No annotation comes next. -/
def Unmarked (kinds : List LexemeKind) : Prop := ∀ (m : Mark) rest, kinds ≠ m.kind :: rest

/-- What follows a sequence: the end, `|`, `)` or the next rule. -/
inductive Ends : List LexemeKind → Prop
  | nil : Ends []
  | stop (rest) : Ends (.stop :: rest)
  | pipe (rest) : Ends (.pipe :: rest)
  | close (rest) : Ends (.closeParen :: rest)
  | rule (name rest) : Ends (.reference name :: .define :: rest)

variable {kinds kinds' : List LexemeKind}

theorem Fresh.unmarked (h : Fresh kinds) : Unmarked kinds := fun m _ he => (h _ _ he).1 m rfl

theorem Ends.fresh (h : Ends kinds) : Fresh kinds := by
  rintro kind rest rfl
  cases h <;> exact ⟨fun m => by cases m <;> simp [Mark.kind], fun m => by cases m <;> simp [Modifier.kind],
    by simp⟩

theorem Modifier.kind_inj {m m' : Modifier} (h : m.kind = m'.kind) : m = m' := by
  cases m <;> cases m' <;> first | rfl | cases h

theorem Mark.kind_inj {m m' : Mark} (h : m.kind = m'.kind) : m = m' := by
  cases m <;> cases m' <;> cases h <;> rfl

/-- Annotations are read as far as they go. -/
theorem marks_inj {marks marks' : List Mark} (hk : Unmarked kinds) (hk' : Unmarked kinds')
    (h : marks.map Mark.kind ++ kinds = marks'.map Mark.kind ++ kinds') :
    marks = marks' ∧ kinds = kinds' := by
  induction marks generalizing marks' with
  | nil =>
    cases marks' with
    | nil => exact ⟨rfl, h⟩
    | cons m marks' => exact absurd h (hk m _)
  | cons m marks ih =>
    cases marks' with
    | nil => exact absurd h.symm (hk' m _)
    | cons m' marks' =>
      obtain ⟨hm, hrest⟩ := List.cons.inj h
      obtain ⟨rfl, hkinds⟩ := ih hrest
      exact ⟨by rw [Mark.kind_inj hm], hkinds⟩

/-- A modifier is read if there is one. -/
theorem modifier_inj {m m' : Option Modifier} (hk : Fresh kinds) (hk' : Fresh kinds')
    (h : m.toList.map Modifier.kind ++ kinds = m'.toList.map Modifier.kind ++ kinds') :
    m = m' ∧ kinds = kinds' := by
  cases m with
  | none =>
    cases m' with
    | none => exact ⟨rfl, h⟩
    | some m' => exact absurd rfl ((hk _ _ h).2.1 m')
  | some m =>
    cases m' with
    | none => exact absurd rfl ((hk' _ _ h.symm).2.1 m)
    | some m' =>
      obtain ⟨hm, hrest⟩ := List.cons.inj h
      exact ⟨by rw [Modifier.kind_inj hm], hrest⟩

/-- After a modifier or none comes no annotation. -/
theorem unmarked_modifier (m : Option Modifier) (h : Fresh kinds) :
    Unmarked (m.toList.map Modifier.kind ++ kinds) := by
  cases m with
  | none => exact h.unmarked
  | some m => exact fun mark rest he => by cases m <;> cases mark <;> cases he

/-- After a modifier or none comes no `::=`. -/
theorem modifier_ne_define (m : Option Modifier) (h : Fresh kinds) (rest : List LexemeKind) :
    m.toList.map Modifier.kind ++ kinds ≠ .define :: rest := by
  cases m with
  | none => exact fun he => (h _ _ he).2.2 rfl
  | some m => exact fun he => by cases m <;> cases he

/-- The lexeme that an expression begins with. -/
theorem Primary.kinds_cons (p : Primary) : ∃ kind rest, p.kinds = kind :: rest ∧
    ((∃ name, kind = .reference name ∧ rest = []) ∨ (∃ text, kind = .literal text) ∨
      (∃ text flags, kind = .pattern text flags) ∨ kind = .openParen) := by
  cases p with
  | reference name => exact ⟨_, _, rfl, .inl ⟨name, rfl, rfl⟩⟩
  | literal text marks => exact ⟨_, _, rfl, .inr (.inl ⟨text, rfl⟩)⟩
  | pattern text flags => exact ⟨_, _, rfl, .inr (.inr (.inl ⟨text, flags, rfl⟩))⟩
  | group body => exact ⟨_, _, rfl, .inr (.inr (.inr rfl))⟩

/-- A sequence does not begin with what belongs to something before it. -/
theorem Sequence.fresh (s : Sequence) (h : Ends kinds) : Fresh (s.kinds ++ kinds) := by
  cases s with
  | nil => exact h.fresh
  | cons p m s =>
    obtain ⟨kind, rest, hp, hkind⟩ := p.kinds_cons
    intro kind' rest' he
    rw [Sequence.kinds, hp] at he
    obtain ⟨rfl, -⟩ := List.cons.inj he
    rcases hkind with ⟨_, rfl, -⟩ | ⟨_, rfl⟩ | ⟨_, _, rfl⟩ | rfl <;>
      exact ⟨fun m => by cases m <;> simp [Mark.kind], fun m => by cases m <;> simp [Modifier.kind],
        by simp⟩

theorem Sequence.kinds_cons_append (p : Primary) (m : Option Modifier) (s : Sequence) :
    (Sequence.cons p m s).kinds ++ kinds =
      p.kinds ++ (m.toList.map Modifier.kind ++ (s.kinds ++ kinds)) := by
  rw [Sequence.kinds, List.append_assoc, List.append_assoc]

/-- A sequence does not end before an expression. -/
theorem Sequence.not_ends (p : Primary) (m : Option Modifier) (s : Sequence) (h : Ends kinds) :
    ¬ Ends ((Sequence.cons p m s).kinds ++ kinds) := by
  obtain ⟨kind, rest, hp, hkind⟩ := p.kinds_cons
  -- a reference would have to come before `::=`, which follows no expression
  have hdefine := modifier_ne_define m (s.fresh h)
  rw [Sequence.kinds_cons_append, hp]
  generalize m.toList.map Modifier.kind ++ (s.kinds ++ kinds) = after at hdefine
  rcases hkind with ⟨name, rfl, rfl⟩ | ⟨_, rfl⟩ | ⟨_, _, rfl⟩ | rfl
  · rintro (_ | _ | _ | _ | ⟨_, rest⟩)
    exact hdefine rest rfl
  · rintro ⟨⟩
  · rintro ⟨⟩
  · rintro ⟨⟩

/-! ## Trees by their lexemes -/

mutual

/-- Expressions with the same lexemes before something that is no annotation are equal. -/
theorem Primary.kinds_inj {kinds kinds' : List LexemeKind} (hk : Unmarked kinds)
    (hk' : Unmarked kinds') :
    ∀ p p' : Primary, p.kinds ++ kinds = p'.kinds ++ kinds' → p = p' ∧ kinds = kinds'
  | .reference name, .reference name', h => by
    obtain ⟨hname, hkinds⟩ := List.cons.inj h
    exact ⟨by rw [LexemeKind.reference.inj hname], hkinds⟩
  | .literal text marks, .literal text' marks', h => by
    obtain ⟨htext, hrest⟩ := List.cons.inj h
    obtain ⟨rfl, hkinds⟩ := marks_inj hk hk' hrest
    exact ⟨by rw [LexemeKind.literal.inj htext], hkinds⟩
  | .pattern text flags, .pattern text' flags', h => by
    obtain ⟨hpattern, hkinds⟩ := List.cons.inj h
    obtain ⟨rfl, rfl⟩ := LexemeKind.pattern.inj hpattern
    exact ⟨rfl, hkinds⟩
  | .group body, .group body', h => by
    have hrest := (List.cons.inj h).2
    simp only [List.append_eq, List.append_assoc] at hrest
    obtain ⟨rfl, hclose⟩ := Choice.kinds_inj (.close _) (.close _) (by simp) (by simp) body body' hrest
    exact ⟨rfl, (List.cons.inj hclose).2⟩

/-- Sequences with the same lexemes before an end are equal. -/
theorem Sequence.kinds_inj {kinds kinds' : List LexemeKind} (hk : Ends kinds) (hk' : Ends kinds') :
    ∀ s s' : Sequence, s.kinds ++ kinds = s'.kinds ++ kinds' → s = s' ∧ kinds = kinds'
  | .nil, .nil, h => ⟨rfl, h⟩
  | .nil, .cons p m s, h => absurd (h ▸ hk) (Sequence.not_ends p m s hk')
  | .cons p m s, .nil, h => absurd (h.symm ▸ hk') (Sequence.not_ends p m s hk)
  | .cons p m s, .cons p' m' s', h => by
    rw [Sequence.kinds_cons_append, Sequence.kinds_cons_append] at h
    obtain ⟨rfl, hmodifier⟩ := Primary.kinds_inj (unmarked_modifier m (s.fresh hk))
      (unmarked_modifier m' (s'.fresh hk')) p p' h
    obtain ⟨rfl, hrest⟩ := modifier_inj (s.fresh hk) (s'.fresh hk') hmodifier
    obtain ⟨rfl, hkinds⟩ := Sequence.kinds_inj hk hk' s s' hrest
    exact ⟨rfl, hkinds⟩

/-- Alternatives with the same lexemes before an end that is not `|` are equal. -/
theorem Choice.kinds_inj {kinds kinds' : List LexemeKind} (hk : Ends kinds) (hk' : Ends kinds')
    (hp : ∀ rest, kinds ≠ .pipe :: rest) (hp' : ∀ rest, kinds' ≠ .pipe :: rest) :
    ∀ c c' : Choice, c.kinds ++ kinds = c'.kinds ++ kinds' → c = c' ∧ kinds = kinds'
  | .last s, .last s', h => by
    obtain ⟨rfl, hkinds⟩ := Sequence.kinds_inj hk hk' s s' h
    exact ⟨rfl, hkinds⟩
  | .last s, .more s' c', h => by
    rw [Choice.kinds, Choice.kinds, List.append_assoc] at h
    exact absurd (Sequence.kinds_inj hk (.pipe _) s s' h).2 (hp _)
  | .more s c, .last s', h => by
    rw [Choice.kinds, Choice.kinds, List.append_assoc] at h
    exact absurd (Sequence.kinds_inj (.pipe _) hk' s s' h).2.symm (hp' _)
  | .more s c, .more s' c', h => by
    rw [Choice.kinds, Choice.kinds, List.append_assoc, List.append_assoc] at h
    obtain ⟨rfl, hpipe⟩ := Sequence.kinds_inj (.pipe _) (.pipe _) s s' h
    obtain ⟨rfl, hkinds⟩ := Choice.kinds_inj hk hk' hp hp' c c' (List.cons.inj hpipe).2
    exact ⟨rfl, hkinds⟩

end

/-! ## Texts -/

/-- After a body comes the end or the next rule. -/
theorem ends_rules (rules : List (String × Choice)) : Ends (rules.flatMap ruleKinds) ∧
    ∀ rest, rules.flatMap ruleKinds ≠ .pipe :: rest := by
  cases rules with
  | nil => exact ⟨.nil, by simp⟩
  | cons rule rules => exact ⟨.rule _ _, by simp [ruleKinds]⟩

theorem rules_inj {rules rules' : List (String × Choice)}
    (h : rules.flatMap ruleKinds = rules'.flatMap ruleKinds) : rules = rules' := by
  induction rules generalizing rules' with
  | nil =>
    cases rules' with
    | nil => rfl
    | cons rule' rules' => cases h
  | cons rule rules ih =>
    cases rules' with
    | nil => cases h
    | cons rule' rules' =>
      obtain ⟨name, body⟩ := rule
      obtain ⟨name', body'⟩ := rule'
      simp only [List.flatMap_cons, ruleKinds, List.cons_append, List.cons.injEq, true_and,
        LexemeKind.reference.injEq] at h
      obtain ⟨rfl, hbody⟩ := h
      obtain ⟨hends, hpipe⟩ := ends_rules rules
      obtain ⟨hends', hpipe'⟩ := ends_rules rules'
      obtain ⟨rfl, hrest⟩ := Choice.kinds_inj hends hends' hpipe hpipe' body body' hbody
      rw [ih hrest]

/-- A text is written by one list of rules at most. -/
theorem Written.unique {text : String} {rules rules' : List (String × Choice)} (h : Written text rules)
    (h' : Written text rules') : rules = rules' := by
  obtain ⟨ls, stop, hls, hkinds⟩ := h
  obtain ⟨ls', stop', hls', hkinds'⟩ := h'
  obtain ⟨rfl, -⟩ := Prod.mk.inj (Except.ok.inj (hls.symm.trans hls'))
  exact rules_inj (hkinds.symm.trans hkinds')

end Notation

end ParseForest
