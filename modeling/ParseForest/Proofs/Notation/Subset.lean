import ParseForest.Proofs.Notation.Reading

/-!
# BNF within EBNF

A text that can be read as BNF can be read as EBNF, and is the same grammar, numbers included
(`Grammar.ofText_ebnf_of_bnf`). The two readers take the same symbols off the same lexemes (`Reader.Takes`),
and so make the same calls of the builder in the same order. Where they differ is the empty literal: the
reader of EBNF drops it, the other leaves that to the builder. So what the one hands to the builder is what
the builder keeps of what the other does (`GrammarBuilder.significant`).
-/

namespace ParseForest

namespace GrammarBuilder

variable {b b' : GrammarBuilder} {symbols : List Symbol} {id : RuleId} {name : String}

/-- Alternatives with and without their empty literals come to the same. -/
theorem Resolved.addAlternatives_significant (h : b.Resolved)
    (hid : b.named? (.rule id) = some (.rule name)) {lists : List (List Symbol)}
    (hk : ∀ symbols ∈ lists, b.Knows symbols) :
    (lists.map b.significant).foldl (fun b symbols => b.addAlternative id symbols) b =
      lists.foldl (fun b symbols => b.addAlternative id symbols) b ∧
    (lists.foldl (fun b symbols => b.addAlternative id symbols) b).Resolved := by
  induction lists generalizing b with
  | nil => exact ⟨rfl, h⟩
  | cons symbols lists ih =>
    obtain ⟨changes, heffect⟩ := h.effect_addKnown hid (hk symbols (.head _))
    have hrest : ∀ symbols ∈ lists, b.Knows symbols := fun s hs => hk s (.tail _ hs)
    have hmap : lists.map b.significant = lists.map (b.addAlternative id symbols).significant :=
      List.map_congr_left fun s hs => ((hrest s hs).significant_eq heffect.grows).symm
    rw [List.map_cons, List.foldl_cons, List.foldl_cons, addAlternative_significant, hmap]
    exact ih heffect.resolved (heffect.grows _ _ hid) fun s hs => (hrest s hs).mono heffect.grows

end GrammarBuilder

namespace Notation

namespace Reader

variable {r r' : Reader} {s : Symbol} {symbols : List Symbol} {fuel : Nat}

/-! ## Symbols -/

/-- The next symbol of an alternative is read: a reference, a literal with its annotations, or a
pattern. -/
inductive Takes (r : Reader) : Symbol → Reader → Prop
  | reference {name : String} (h : r.peek.kind = .reference name) :
      Takes r (r.skip.reference name r.peek.place).1 (r.skip.reference name r.peek.place).2
  | literal {text : String} {id : TerminalId} {r' : Reader} (h : r.peek.kind = .literal text)
      (hr : r.skip.literal text = .ok (id, r')) : Takes r (.terminal id) r'
  | pattern {text flags : String} (h : r.peek.kind = .pattern text flags) :
      Takes r (r.skip.pattern text flags).1 (r.skip.pattern text flags).2

/-- What has been read is known, and there is less to read. -/
structure Advances (r r' : Reader) (symbols : List Symbol) : Prop where
  resolved : r'.builder.Resolved
  grows : r.builder.Grows r'.builder
  knows : r'.builder.Knows symbols
  length_le : r'.rest.length ≤ r.rest.length

theorem Advances.trans {r'' : Reader} {symbols' : List Symbol} (h : Advances r r' symbols)
    (h' : Advances r' r'' symbols') : Advances r r'' (symbols ++ symbols') where
  resolved := h'.resolved
  grows := h.grows.trans h'.grows
  knows s hs := (List.mem_append.1 hs).elim (h.knows.mono h'.grows s) (h'.knows s)
  length_le := Nat.le_trans h'.length_le h.length_le

theorem Advances.of_reads {kinds : List LexemeKind} {changes : List Change}
    (h : Reads r kinds changes r') (hk : r'.builder.Knows symbols) : Advances r r' symbols := by
  refine ⟨h.effect.resolved, h.effect.grows, hk, ?_⟩
  have := h.length_eq
  omega

/-- A symbol is read off its lexeme and annotations. -/
theorem Takes.reads (hb : r.builder.Resolved) (h : Takes r s r') :
    ∃ marks x, Reads r (r.peek.kind :: marks) [] r' ∧ r'.builder.named? s = some x := by
  cases h with
  | @reference name hk =>
    have hskip := reads_skip hb rfl (by simp [hk])
    obtain ⟨hmention, hid⟩ := hskip.effect.resolved.effect_mention name r.peek.place
    exact ⟨[], _, hskip.build hmention, hid⟩
  | literal hk hr =>
    have hskip := reads_skip hb rfl (by simp [hk])
    obtain ⟨marks, hmarks, hid⟩ := reads_literal hskip.effect.resolved hr
    exact ⟨_, _, hskip.trans hmarks, hid⟩
  | @pattern text flags hk =>
    have hskip := reads_skip hb rfl (by simp [hk])
    obtain ⟨hterminal, hid⟩ := hskip.effect.resolved.effect_internTerminal (.pattern ⟨text, flags, none⟩)
    exact ⟨[], _, hskip.build hterminal, hid⟩

theorem Takes.advances (hb : r.builder.Resolved) (h : Takes r s r') :
    Advances r r' [s] ∧ r'.rest.length < r.rest.length := by
  obtain ⟨marks, x, hreads, hx⟩ := h.reads hb
  refine ⟨.of_reads hreads fun s' hs' => ⟨x, List.mem_singleton.1 hs' ▸ hx⟩, ?_⟩
  have := hreads.length_eq
  rw [List.length_cons] at this
  omega

/-- A symbol that is taken is an item of EBNF, unless a modifier follows. -/
theorem Takes.item_eq (hb : r.builder.Resolved) (h : Takes r s r')
    (hm : r'.peek.kind.modifier? = none) :
    item (fuel + 1) r = .ok (r'.builder.significant [s], r') := by
  obtain ⟨hadv, -⟩ := h.advances hb
  have hmodifier : ∀ symbols, r'.modifier symbols = .ok (symbols, r') := by
    intro symbols
    rw [modifier]
    simp only [hm]
  rw [item]
  cases h with
  | reference hk =>
    simp only [hk, bind, Except.bind, pure, Except.pure]
    exact hmodifier _
  | literal hk hr =>
    simp only [hk, hr, bind, Except.bind, pure, Except.pure, hmodifier]
    cases he : r'.builder.isEpsilon _ <;>
      simp [he, GrammarBuilder.significant, GrammarBuilder.isEpsilonSymbol]
  | @pattern text flags hk =>
    simp only [hk, bind, Except.bind, pure, Except.pure]
    obtain ⟨-, hid⟩ := hb.effect_internTerminal (.pattern ⟨text, flags, none⟩)
    rw [show (r.skip.pattern text flags).2.builder.significant [(r.skip.pattern text flags).1] =
        [(r.skip.pattern text flags).1] from GrammarBuilder.Stands.filter_eq
      (GrammarBuilder.stands_singleton hid (by simp [NamedSymbol.empty, Terminal.atom]))]
    exact hmodifier _

/-! ## Alternatives -/

/-- Where an alternative of BNF goes on, a symbol is taken. -/
theorem bnfSymbols_succ (h : bnfSymbols (fuel + 1) r = .ok (symbols, r')) :
    (r.atSequenceEnd = true ∧ symbols = [] ∧ r' = r) ∨
    (r.atSequenceEnd = false ∧ ∃ s r₁ rest, Takes r s r₁ ∧ bnfSymbols fuel r₁ = .ok (rest, r') ∧
      symbols = s :: rest) := by
  rw [bnfSymbols] at h
  split at h
  · rename_i hend
    obtain ⟨rfl, rfl⟩ := Prod.mk.inj (Except.ok.inj h)
    exact .inl ⟨hend, rfl, rfl⟩
  · rename_i hend
    refine .inr ⟨by simpa using hend, ?_⟩
    have hgo : ∀ {s : Symbol} {r₁ : Reader}, Takes r s r₁ →
        (bnfSymbols fuel r₁).bind (fun p => .ok (s :: p.1, p.2)) = .ok (symbols, r') →
        ∃ s r₁ rest, Takes r s r₁ ∧ bnfSymbols fuel r₁ = .ok (rest, r') ∧ symbols = s :: rest := by
      intro s r₁ htakes h
      simp only [Except.bind] at h
      split at h
      · cases h
      · rename_i p hrest
        obtain ⟨rfl, rfl⟩ := Prod.mk.inj (Except.ok.inj h)
        exact ⟨s, r₁, p.1, htakes, hrest, rfl⟩
    cases hk : r.peek.kind with
    | reference name =>
      simp only [hk, bind, Except.bind, pure, Except.pure] at h
      exact hgo (.reference hk) h
    | literal text =>
      simp only [hk, bind, Except.bind, pure, Except.pure] at h
      cases hp : r.skip.literal text with
      | error e => simp [hp] at h
      | ok p =>
        simp only [hp] at h
        exact hgo (.literal hk hp) h
    | pattern text flags =>
      simp only [hk, bind, Except.bind, pure, Except.pure] at h
      exact hgo (.pattern hk) h
    | _ => simp [hk, bind, Except.bind] at h

/-- After a bar comes another alternative. -/
theorem bnfMore_succ {lists : List (List Symbol)} (h : bnfMore (fuel + 1) r = .ok (lists, r')) :
    (r.peek.kind ≠ .pipe ∧ lists = [] ∧ r' = r) ∨
    (r.peek.kind = .pipe ∧ ∃ symbols r₁ more, bnfSequence r.skip = .ok (symbols, r₁) ∧
      bnfMore fuel r₁ = .ok (more, r') ∧ lists = symbols :: more) := by
  rw [bnfMore] at h
  split at h
  · rename_i hpipe
    simp only [bind, Except.bind] at h
    split at h
    · cases h
    · rename_i p hp
      split at h
      · cases h
      · rename_i q hq
        obtain ⟨rfl, rfl⟩ := Prod.mk.inj (Except.ok.inj h)
        exact .inr ⟨hpipe, p.1, p.2, q.1, hp, hq, rfl⟩
  · rename_i hpipe
    obtain ⟨rfl, rfl⟩ := Prod.mk.inj (Except.ok.inj h)
    exact .inl ⟨hpipe, rfl, rfl⟩

/-- A rule is a name before `::=`, and alternatives that are given to it. -/
theorem exists_of_rule_bnf (h : rule .bnf r = .ok r') : ∃ name symbols r₁ more r₂,
    r.peek.kind = .reference name ∧ name ≠ startRuleName ∧
    (openRule r.skip name).2.peek.kind = .define ∧
    bnfSequence (openRule r.skip name).2.skip = .ok (symbols, r₁) ∧
    bnfMore (r₁.rest.length + 1) r₁ = .ok (more, r₂) ∧
    r' = { r₂ with
      builder := (symbols :: more).foldl (fun b alt => b.addAlternative (openRule r.skip name).1 alt) r₂.builder } := by
  rw [rule] at h
  dsimp only at h
  split at h
  · rename_i name hname
    split at h
    · cases h
    · rename_i hstart
      split at h
      · rename_i hdefine
        simp only [alternatives, bnfAlternatives, bind, Except.bind] at h
        split at h
        · cases h
        · rename_i p hp
          split at hp
          · cases hp
          · rename_i q hq
            split at hp
            · cases hp
            · rename_i more hmore
              obtain rfl := Except.ok.inj hp
              obtain rfl := Except.ok.inj h
              exact ⟨name, q.1, q.2, more.1, more.2, hname, hstart, hdefine, hq, hmore, rfl⟩
      · cases h
  · cases h

/-- What stands before symbols of BNF, or where they end, is no modifier and closes no group. -/
theorem kind_of_bnfSymbols (h : bnfSymbols (fuel + 1) r = .ok (symbols, r')) :
    r.peek.kind.modifier? = none ∧ r.peek.kind ≠ .closeParen := by
  rcases bnfSymbols_succ h with ⟨hend, -, -⟩ | ⟨-, s, r₁, rest, htakes, -, -⟩
  · obtain ⟨ls, stop, builder⟩ := r
    match ls with
    | [] => exact ⟨rfl, by simp [peek]⟩
    | ⟨kind, place⟩ :: ls =>
      cases kind <;> simp_all [atSequenceEnd, atRuleStart, peek, LexemeKind.modifier?]
  · cases htakes with
    | reference hk => simp [hk, LexemeKind.modifier?]
    | literal hk _ => simp [hk, LexemeKind.modifier?]
    | pattern hk => simp [hk, LexemeKind.modifier?]

/-- The symbols of an alternative of BNF are items of EBNF. -/
theorem items_of_bnfSymbols (n : Nat) (hb : r.builder.Resolved) (hn : r.rest.length < n)
    (h : bnfSymbols n r = .ok (symbols, r')) (hfuel : r.rest.length + 2 ≤ fuel) :
    items fuel r = .ok (r'.builder.significant symbols, r') ∧ Advances r r' symbols ∧
      r'.peek.kind.modifier? = none ∧ r'.peek.kind ≠ .closeParen := by
  induction n generalizing r symbols fuel with
  | zero => exact absurd hn (Nat.not_lt_zero _)
  | succ n ih =>
    obtain ⟨fuel, rfl⟩ := Nat.exists_eq_add_of_le' (Nat.le_trans (Nat.le_add_left 2 _) hfuel)
    have hkind := kind_of_bnfSymbols h
    rcases bnfSymbols_succ h with ⟨hend, rfl, rfl⟩ | ⟨hend, s, r₁, rest, htakes, hrest, rfl⟩
    · refine ⟨?_, ⟨hb, .refl _, fun _ hs => absurd hs (List.not_mem_nil), Nat.le_refl _⟩, hkind⟩
      rw [items, if_pos (.inl hend)]
      rfl
    · obtain ⟨hadv, hless⟩ := htakes.advances hb
      obtain ⟨n, rfl⟩ := Nat.exists_eq_succ_of_ne_zero (Nat.ne_of_gt (Nat.lt_of_lt_of_le
        (Nat.lt_of_le_of_lt (Nat.zero_le _) hless) (Nat.le_of_lt_succ hn)))
      obtain ⟨hitems, hadv', hkind'⟩ := ih hadv.resolved (by omega) hrest
        (show _ ≤ fuel + 1 by omega)
      refine ⟨?_, hadv.trans hadv', hkind'⟩
      have hitem : item (fuel + 1) r = _ := htakes.item_eq hb (kind_of_bnfSymbols hrest).1
      rw [items, if_neg (by simp [hend, hkind.2])]
      simp only [hitem, hitems, bind, Except.bind]
      rw [GrammarBuilder.significant_cons s rest, hadv.knows.significant_eq hadv'.grows]

/-- An alternative of BNF is one of EBNF. -/
theorem sequence_of_bnfSequence (hb : r.builder.Resolved) (h : bnfSequence r = .ok (symbols, r'))
    (hfuel : r.rest.length + 3 ≤ fuel) :
    sequence fuel none r = .ok (r'.builder.significant symbols, r') ∧ Advances r r' symbols := by
  obtain ⟨fuel, rfl⟩ := Nat.exists_eq_add_of_le' (Nat.le_trans (Nat.le_add_left 3 _) hfuel)
  rw [bnfSequence] at h
  split at h
  · cases h
  · rename_i hend
    obtain ⟨hitems, hadv, hkind'⟩ :=
      items_of_bnfSymbols _ hb (Nat.lt_succ_self _) h (show _ ≤ fuel + 2 by omega)
    refine ⟨?_, hadv⟩
    rw [sequence]
    simp only [hitems, bind, Except.bind, sequenceEndFault?, if_neg hkind'.2]
    rw [if_neg (by simp [hend, (kind_of_bnfSymbols h).2])]

/-- Alternatives of BNF are alternatives of EBNF. -/
theorem choice_of_bnfMore (n : Nat) {lists : List (List Symbol)} {r₁ : Reader} (hb : r.builder.Resolved)
    (h : bnfSequence r = .ok (symbols, r₁)) (hn : r₁.rest.length < n)
    (hmore : bnfMore n r₁ = .ok (lists, r')) (hfuel : r.rest.length + 4 ≤ fuel) :
    choice fuel none r = .ok ((symbols :: lists).map r'.builder.significant, r') ∧
      r'.builder.Resolved ∧ r.builder.Grows r'.builder ∧
      ∀ alt ∈ symbols :: lists, r'.builder.Knows alt := by
  induction n generalizing r symbols lists r₁ fuel with
  | zero => exact absurd hn (Nat.not_lt_zero _)
  | succ n ih =>
    obtain ⟨fuel, rfl⟩ := Nat.exists_eq_add_of_le' (Nat.le_trans (Nat.le_add_left 4 _) hfuel)
    obtain ⟨hseq, hadv⟩ := sequence_of_bnfSequence hb h (show _ ≤ fuel + 3 by omega)
    rw [choice]
    simp only [hseq, bind, Except.bind]
    rcases bnfMore_succ hmore with ⟨hpipe, rfl, rfl⟩ | ⟨hpipe, symbols', r₂, lists', hp, hq, rfl⟩
    · rw [if_neg hpipe]
      exact ⟨rfl, hadv.resolved, hadv.grows, List.forall_mem_cons.2 ⟨hadv.knows, by simp⟩⟩
    · have hskip := Advances.of_reads (reads_skip hadv.resolved hpipe (by simp))
        fun s (hs : s ∈ []) => absurd hs List.not_mem_nil
      have hless : r₁.skip.rest.length < r₁.rest.length := by
        have := (reads_skip hadv.resolved hpipe (by simp)).length_eq
        rw [List.length_singleton] at this
        omega
      have hle := (sequence_of_bnfSequence hskip.resolved hp (Nat.le_refl _)).2.length_le
      have hlen := hadv.length_le
      obtain ⟨hchoice, hres, hgrows, hknows⟩ := ih hskip.resolved hp (by omega) hq
        (show _ ≤ fuel + 3 by omega)
      have hgrows' := hskip.grows.trans hgrows
      simp only [if_pos hpipe, hchoice]
      refine ⟨?_, hres, hadv.grows.trans hgrows', List.forall_mem_cons.2
        ⟨hadv.knows.mono hgrows', hknows⟩⟩
      rw [List.map_cons (l := symbols' :: lists'), hadv.knows.significant_eq hgrows']

/-! ## Rules -/

/-- A rule of BNF is a rule of EBNF. -/
theorem rule_ebnf_of_bnf (hb : r.builder.Resolved) (h : rule .bnf r = .ok r') :
    rule .ebnf r = .ok r' ∧ r'.builder.Resolved := by
  obtain ⟨name, symbols, r₁, more, r₂, hname, hstart, hdefine, hq, hmore, rfl⟩ := exists_of_rule_bnf h
  have hskip := reads_skip hb hname (by simp)
  obtain ⟨hopen, hid⟩ := reads_openRule hskip.effect.resolved name
  have hdefined := reads_skip hopen.effect.resolved hdefine (by simp)
  obtain ⟨hchoice, hres, hgrows, hknows⟩ := choice_of_bnfMore _ hdefined.effect.resolved hq
    (Nat.lt_succ_self _) hmore
    (show _ ≤ 4 * (openRule r.skip name).2.skip.rest.length + 4 by omega)
  obtain ⟨hfold, hres'⟩ := hres.addAlternatives_significant
    ((hdefined.effect.grows.trans hgrows) _ _ hid) hknows
  refine ⟨?_, hres'⟩
  rw [rule]
  simp only [hname, if_neg hstart, if_pos hdefine, alternatives, ebnfAlternatives, hchoice, bind,
    Except.bind]
  rw [← hfold]

/-- Rules of BNF are rules of EBNF. -/
theorem rules_ebnf_of_bnf (fuel : Nat) (hb : r.builder.Resolved) (h : rules .bnf fuel r = .ok r') :
    rules .ebnf fuel r = .ok r' := by
  induction fuel generalizing r with
  | zero => exact h
  | succ fuel ih =>
    rw [rules] at h ⊢
    split at h
    · rename_i hstop
      rwa [if_pos hstop]
    · rename_i hstop
      simp only [bind, Except.bind] at h
      split at h
      · cases h
      · rename_i r₁ hr₁
        obtain ⟨hrule, hres⟩ := rule_ebnf_of_bnf hb hr₁
        simp only [if_neg hstop, hrule, bind, Except.bind]
        exact ih hres h

end Reader

end Notation

namespace Grammar

/-- What can be read as BNF can be read as EBNF and is the same grammar: the same rules and terminals
under the same numbers. -/
theorem ofText_ebnf_of_bnf {text : String} {classes : List (String × String)} {g : Grammar}
    (h : ofText .bnf text classes = .ok g) : ofText .ebnf text classes = .ok g := by
  have hresolved := (GrammarBuilder.resolved_declareClasses classes GrammarBuilder.resolved_new).1
  simp only [ofText, read, bind, Except.bind] at h ⊢
  split at h
  · cases h
  · rename_i p hlexemes
    split at h
    · cases h
    · rename_i r hr
      simp only [Notation.Reader.rules_ebnf_of_bnf _ hresolved hr]
      exact h

theorem ofText_ebnf_of_bnf_sum : ∃ g,
    ofText .bnf "<S> ::= <S> \"+\" =left= <S> | /b/ \"\" | \"\"" [] = .ok g ∧
    ofText .ebnf "<S> ::= <S> \"+\" =left= <S> | /b/ \"\" | \"\"" [] = .ok g := by
  have hread : (ofText .bnf "<S> ::= <S> \"+\" =left= <S> | /b/ \"\" | \"\"" []).toBool = true := by
    decide +kernel
  cases h : ofText .bnf "<S> ::= <S> \"+\" =left= <S> | /b/ \"\" | \"\"" [] with
  | error e => simp [h, Except.toBool] at hread
  | ok g => exact ⟨g, rfl, ofText_ebnf_of_bnf h⟩

end Grammar

end ParseForest
