import ParseForest.Proofs.Notation.Accepting
import ParseForest.Proofs.Notation.Calls
import ParseForest.Proofs.Notation.Printing

/-!
# Reading what is printed

The reader of BNF takes the lexemes of rules whose right-hand sides are written out, and gives each rule these
right-hand sides (`Reader.rules_of_printed`). The empty right-hand side is written as the empty literal, which the
builder drops.
-/

namespace ParseForest

namespace GrammarBuilder

open Notation (spelled)

variable {b b' : GrammarBuilder} {symbols : List Symbol} {alt : List NamedSymbol}

/-- The symbols are what is written for a right-hand side. -/
def Spells (b : GrammarBuilder) (symbols : List Symbol) (alt : List NamedSymbol) : Prop :=
  List.Forall₂ (fun s x => b.named? s = some x) symbols (spelled alt)

theorem Spells.mono (h : b.Spells symbols alt) (hg : b.Grows b') : b'.Spells symbols alt :=
  h.imp fun _ _ => hg _ _

theorem Spells.knows (h : b.Spells symbols alt) : b.Knows symbols := fun s hs => by
  obtain ⟨x, -, hx⟩ := List.exists_right_of_forall₂ h hs
  exact ⟨x, hx⟩

/-- What the builder keeps of them stands for the right-hand side. -/
theorem Spells.stands (h : b.Spells symbols alt) (hne : .empty ∉ alt) : b.Stands (b.significant symbols) alt := by
  by_cases halt : alt = []
  · subst halt
    obtain ⟨s, rest, hs, hrest, rfl⟩ := List.forall₂_cons_right_iff.1 (show List.Forall₂ _ _ [NamedSymbol.empty] from h)
    obtain rfl := List.forall₂_nil_right_iff.1 hrest
    have hempty := isEpsilonSymbol_of_named? hs
    rw [significant, List.filter_cons_of_neg (by simp [hempty])]
    exact .nil
  · rw [Spells, spelled, if_neg halt] at h
    have hstands : b.Stands symbols alt := by
      refine List.forall₂_iff_get.2 ⟨h.length_eq, fun i hi hi' => ⟨h.get hi hi', fun he => hne ?_⟩⟩
      exact he ▸ List.get_mem _ _
    rw [significant, hstands.filter_eq]
    exact hstands

end GrammarBuilder

namespace Notation

namespace Reader

variable {r r' : Reader} {x : NamedSymbol} {xs alt : List NamedSymbol} {sides : List (List NamedSymbol)}
  {kinds after : List LexemeKind} {symbols : List Symbol} {s : Symbol} {fuel : Nat}

/-! ## Symbols -/

/-- Before a symbol no annotation, no modifier and no `::=` stands. -/
theorem fresh_symbols (xs : List NamedSymbol) (h : Ends after) : Fresh (xs.map NamedSymbol.kind ++ after) := by
  cases xs with
  | nil => exact h.fresh
  | cons x xs =>
    intro kind rest he
    obtain ⟨rfl, -⟩ := List.cons.inj he
    refine ⟨fun m => ?_, fun m => ?_, ?_⟩
    · cases m <;> rcases x with _ | _ | _ <;> simp [NamedSymbol.kind, Mark.kind]
    · cases m <;> rcases x with _ | _ | _ <;> simp [NamedSymbol.kind, Modifier.kind]
    · rcases x with _ | _ | _ <;> simp [NamedSymbol.kind]

theorem atSequenceEnd_of_endsIn (h : EndsIn none (r.rest.map Lexeme.kind)) : r.atSequenceEnd = true := by
  have hrule := atRuleStart_iff (r := r)
  rw [atSequenceEnd]
  generalize hr : r.rest.map Lexeme.kind = kinds at h hrule
  cases h with
  | pipe _ rest => simp [peek_kind_of_rest hr]
  | nil => simp [peek, List.map_eq_nil_iff.1 hr]
  | stop rest => simp [peek_kind_of_rest hr]
  | rule name rest => simp [hrule.2 ⟨name, rest, rfl⟩]

theorem atSequenceEnd_eq_false (hr : r.rest.map Lexeme.kind = x.kind :: kinds) (hk : Fresh kinds) :
    r.atSequenceEnd = false := by
  rw [Bool.eq_false_iff]
  intro hend
  -- a reference would have to come before `::=`
  have hends := hr ▸ atEnd_iff.1 (.inl hend)
  generalize hkind : x.kind = kind at hends
  cases hends with
  | rule name rest => exact (hk _ _ rfl).2.2 rfl
  | _ => rcases x with _ | _ | _ <;> cases hkind

/-- The next symbol is taken. -/
theorem exists_takes (hb : r.builder.Resolved) (hx : Printable x)
    (hr : r.rest.map Lexeme.kind = x.kind :: kinds) (hk : Unmarked kinds) :
    ∃ s r', Takes r s r' ∧ Reads r [x.kind] [] r' ∧ r'.builder.named? s = some x := by
  have hpeek := peek_kind_of_rest hr
  have hrest : r.skip.rest.map Lexeme.kind = kinds := by rw [skip, List.map_tail, hr, List.tail_cons]
  cases hx with
  | @rule name _ =>
    have hskip := reads_skip hb hpeek (by simp [NamedSymbol.kind])
    obtain ⟨heffect, hid⟩ := hskip.effect.resolved.effect_mention name r.peek.place
    exact ⟨_, _, .reference hpeek, hskip.build heffect, hid⟩
  | @literal text _ =>
    have hskip := reads_skip hb hpeek (by simp [NamedSymbol.kind])
    obtain ⟨heffect, hid⟩ := hskip.effect.resolved.effect_internTerminal (.ofText text)
    have hok : r.skip.literal text = .ok ((r.skip.builder.literal text).1,
        { r.skip with builder := (r.skip.builder.literal text).2 }) := by
      rw [← hrest] at hk
      simp only [literal, annotateWith_of_unmarked hk, bind, Except.bind]
    exact ⟨_, _, .literal hpeek hok, hskip.build heffect, hid⟩
  | @pattern text flags _ _ =>
    have hskip := reads_skip hb hpeek (by simp [NamedSymbol.kind])
    obtain ⟨heffect, hid⟩ := hskip.effect.resolved.effect_internTerminal (.pattern ⟨text, flags, none⟩)
    exact ⟨_, _, .pattern hpeek, hskip.build heffect, hid⟩

/-! ## Right-hand sides -/

/-- Where a symbol is taken, an alternative of BNF goes on. -/
theorem bnfSymbols_of_takes {r₁ : Reader} (hend : r.atSequenceEnd = false) (h : Takes r s r₁)
    (hrest : bnfSymbols fuel r₁ = .ok (symbols, r')) : bnfSymbols (fuel + 1) r = .ok (s :: symbols, r') := by
  rw [bnfSymbols, if_neg (by simp [hend])]
  cases h with
  | reference hk => simp only [hk, hrest, bind, Except.bind, pure, Except.pure]
  | literal hk hr => simp only [hk, hr, hrest, bind, Except.bind, pure, Except.pure]
  | pattern hk => simp only [hk, hrest, bind, Except.bind, pure, Except.pure]

theorem exists_bnfSymbols (hb : r.builder.Resolved) (hx : ∀ x ∈ xs, Printable x) (hafter : EndsIn none after)
    (hr : r.rest.map Lexeme.kind = xs.map NamedSymbol.kind ++ after) (hfuel : r.rest.length < fuel) :
    ∃ symbols r', bnfSymbols fuel r = .ok (symbols, r') ∧ Reads r (xs.map NamedSymbol.kind) [] r' ∧
      List.Forall₂ (fun s x => r'.builder.named? s = some x) symbols xs := by
  induction xs generalizing r fuel with
  | nil =>
    obtain ⟨fuel, rfl⟩ := Nat.exists_eq_succ_of_ne_zero (Nat.ne_zero_of_lt hfuel)
    have hend : r.atSequenceEnd = true := atSequenceEnd_of_endsIn (hr ▸ hafter)
    exact ⟨[], r, by rw [bnfSymbols, if_pos hend], .refl hb, .nil⟩
  | cons x xs ih =>
    obtain ⟨fuel, rfl⟩ := Nat.exists_eq_succ_of_ne_zero (Nat.ne_zero_of_lt hfuel)
    obtain ⟨hx, hxs⟩ := List.forall_mem_cons.1 hx
    have hfresh := fresh_symbols xs hafter.ends
    obtain ⟨s, r₁, htakes, hreads, hs⟩ := exists_takes hb hx hr hfresh.unmarked
    have hrest : r₁.rest.map Lexeme.kind = xs.map NamedSymbol.kind ++ after :=
      List.append_cancel_left (hreads.rest.symm.trans hr)
    have hlength := hreads.length_eq
    rw [List.length_singleton] at hlength
    obtain ⟨symbols, r', hsymbols, hreads', hall⟩ := ih hreads.effect.resolved hxs hrest
      (show _ < fuel by omega)
    exact ⟨s :: symbols, r', bnfSymbols_of_takes (atSequenceEnd_eq_false hr hfresh) htakes hsymbols,
      hreads.trans hreads', .cons (hreads'.effect.grows _ _ hs) hall⟩

theorem spelled_ne_nil (alt : List NamedSymbol) : spelled alt ≠ [] := by
  rw [spelled]
  split
  · simp
  · assumption

/-- A right-hand side that is written out is read. -/
theorem exists_bnfSequence (hb : r.builder.Resolved) (hx : ∀ x ∈ alt, Printable x) (hafter : EndsIn none after)
    (hr : r.rest.map Lexeme.kind = (spelled alt).map NamedSymbol.kind ++ after) :
    ∃ symbols r', bnfSequence r = .ok (symbols, r') ∧
      Reads r ((spelled alt).map NamedSymbol.kind) [] r' ∧ r'.builder.Spells symbols alt := by
  obtain ⟨symbols, r', hsymbols, hreads, hall⟩ := exists_bnfSymbols hb (printable_spelled hx) hafter hr
    (Nat.lt_succ_self _)
  have hend : r.atSequenceEnd = false := by
    obtain ⟨x, xs, hspelled⟩ := List.exists_cons_of_ne_nil (spelled_ne_nil alt)
    rw [hspelled] at hr
    exact atSequenceEnd_eq_false hr (fresh_symbols xs hafter.ends)
  exact ⟨symbols, r', by rw [bnfSequence, if_neg (by simp [hend])]; exact hsymbols, hreads, hall⟩

theorem endsIn_more (hafter : EndsIn none after) (sides : List (List NamedSymbol)) :
    EndsIn none ((sides.flatMap fun alt => .pipe :: (spelled alt).map NamedSymbol.kind) ++ after) := by
  cases sides with
  | nil => exact hafter
  | cons alt sides => exact .pipe none _

/-- Right-hand sides after bars are read. -/
theorem exists_bnfMore (hb : r.builder.Resolved) (hx : ∀ alt ∈ sides, ∀ x ∈ alt, Printable x)
    (hafter : EndsIn none after) (hpipe : ∀ rest, after ≠ .pipe :: rest)
    (hr : r.rest.map Lexeme.kind =
      (sides.flatMap fun alt => .pipe :: (spelled alt).map NamedSymbol.kind) ++ after)
    (hfuel : r.rest.length < fuel) : ∃ lists r', bnfMore fuel r = .ok (lists, r') ∧
      Reads r (sides.flatMap fun alt => .pipe :: (spelled alt).map NamedSymbol.kind) [] r' ∧
      List.Forall₂ r'.builder.Spells lists sides := by
  induction sides generalizing r fuel with
  | nil =>
    obtain ⟨fuel, rfl⟩ := Nat.exists_eq_succ_of_ne_zero (Nat.ne_zero_of_lt hfuel)
    have hnone : r.peek.kind ≠ .pipe := peek_kind_ne (by simp) (hr ▸ hpipe)
    exact ⟨[], r, by rw [bnfMore, if_neg hnone], .refl hb, .nil⟩
  | cons alt sides ih =>
    obtain ⟨fuel, rfl⟩ := Nat.exists_eq_succ_of_ne_zero (Nat.ne_zero_of_lt hfuel)
    obtain ⟨halt, hsides⟩ := List.forall_mem_cons.1 hx
    simp only [List.flatMap_cons, List.cons_append, List.append_assoc] at hr
    have hpeek := peek_kind_of_rest hr
    have hskip := reads_skip hb hpeek (by simp)
    obtain ⟨symbols, r₁, hsequence, hreads, hspells⟩ := exists_bnfSequence hskip.effect.resolved halt
      (endsIn_more hafter sides) (List.append_cancel_left (hskip.rest.symm.trans hr))
    have hfirst := hskip.trans hreads
    have hrest : r₁.rest.map Lexeme.kind =
        (sides.flatMap fun alt => .pipe :: (spelled alt).map NamedSymbol.kind) ++ after :=
      List.append_cancel_left (hfirst.rest.symm.trans (by simpa using hr))
    have hlength := hfirst.length_eq
    rw [List.length_append, List.length_singleton] at hlength
    obtain ⟨lists, r', hmore, hreads', hall⟩ := ih hfirst.effect.resolved hsides hrest
      (show _ < fuel by omega)
    refine ⟨symbols :: lists, r', ?_, ?_, .cons (hspells.mono hreads'.effect.grows) hall⟩
    · rw [bnfMore, if_pos hpeek]
      simp only [hsequence, hmore, bind, Except.bind]
    · simpa using hfirst.trans hreads'

/-- The right-hand sides are given to a rule. -/
theorem effect_addSpelled {b : GrammarBuilder} (hb : b.Resolved) {id : RuleId} {name : String}
    (hid : b.named? (.rule id) = some (.rule name)) {lists : List (List Symbol)}
    (hs : List.Forall₂ b.Spells lists sides) (hne : ∀ alt ∈ sides, .empty ∉ alt) :
    b.Effect [.define name sides] (lists.foldl (fun b symbols => b.addAlternative id symbols) b) := by
  have hknows : ∀ symbols ∈ lists, b.Knows symbols := fun symbols hsymbols => by
    obtain ⟨alt, -, halt⟩ := List.exists_right_of_forall₂ hs hsymbols
    exact halt.knows
  have hstands : List.Forall₂ b.Stands (lists.map b.significant) sides := by
    rw [List.forall₂_map_left_iff]
    refine List.forall₂_iff_get.2 ⟨hs.length_eq, fun i hi hi' => ?_⟩
    exact (hs.get hi hi').stands (hne _ (List.get_mem _ _))
  rw [← (hb.addAlternatives_significant hid hknows).1]
  exact hb.effect_addAlternatives hid hstands

/-! ## Rules -/

variable {rules : List (String × List (List NamedSymbol))}

/-- Rules that can be printed. -/
structure PrintableRule (rule : String × List (List NamedSymbol)) : Prop where
  name : Nameable rule.1
  ne_start : rule.1 ≠ startRuleName
  sides_ne : rule.2 ≠ []
  symbols : ∀ alt ∈ rule.2, .empty ∉ alt ∧ ∀ x ∈ alt, Printable x

/-- A rule whose right-hand sides are written out is read and is given these right-hand sides. -/
theorem exists_rule {rule : String × List (List NamedSymbol)} (hrule : PrintableRule rule)
    (hb : r.builder.Resolved) (hafter : EndsIn none after) (hpipe : ∀ rest, after ≠ .pipe :: rest)
    (hr : r.rest.map Lexeme.kind = bnfKinds rule ++ after) :
    ∃ r', Reader.rule .bnf r = .ok r' ∧ Reads r (bnfKinds rule) [.define rule.1 rule.2] r' := by
  obtain ⟨name, sides⟩ := rule
  obtain ⟨alt, more, rfl⟩ := List.exists_cons_of_ne_nil hrule.sides_ne
  obtain ⟨halt, hmore⟩ := List.forall_mem_cons.1 hrule.symbols
  have hpeek : r.peek.kind = .reference name := peek_kind_of_rest hr
  have hskip := reads_skip hb hpeek (by simp)
  obtain ⟨hopen, hid⟩ := reads_openRule hskip.effect.resolved name
  have hbefore := hskip.trans hopen
  have hrest := List.append_cancel_left (hbefore.rest.symm.trans hr)
  have hdefine : (openRule r.skip name).2.peek.kind = .define := peek_kind_of_rest hrest
  have hdefined := reads_skip hbefore.effect.resolved hdefine (by simp)
  have hbody : (openRule r.skip name).2.skip.rest.map Lexeme.kind = (spelled alt).map NamedSymbol.kind ++
      ((more.flatMap fun alt => .pipe :: (spelled alt).map NamedSymbol.kind) ++ after) :=
    List.append_cancel_left (hdefined.rest.symm.trans (hrest.trans (by simp [sidesKinds])))
  obtain ⟨symbols, r₁, hsequence, hreads₁, hspells⟩ :=
    exists_bnfSequence hdefined.effect.resolved halt.2 (endsIn_more hafter more) hbody
  obtain ⟨lists, r₂, hlists, hreads₂, hall⟩ := exists_bnfMore hreads₁.effect.resolved
    (fun alt halt => (hmore alt halt).2) hafter hpipe
    (List.append_cancel_left (hreads₁.rest.symm.trans hbody)) (Nat.lt_succ_self _)
  have hbodies := hdefined.trans (hreads₁.trans hreads₂)
  have hadd := effect_addSpelled hreads₂.effect.resolved (hbodies.effect.grows _ _ hid)
    (.cons (hspells.mono hreads₂.effect.grows) hall) fun alt halt => (hrule.symbols alt halt).1
  refine ⟨_, ?_, hbefore.trans (hbodies.build hadd)⟩
  rw [Reader.rule]
  simp only [hpeek, if_neg hrule.ne_start, hdefine, if_true, alternatives, bnfAlternatives, hsequence, hlists,
    bind, Except.bind]

/-- The lexemes of rules that can be printed are read as these rules. -/
theorem rules_of_printed (hrules : ∀ rule ∈ rules, PrintableRule rule) (hb : r.builder.Resolved)
    (hr : r.rest.map Lexeme.kind = rules.flatMap bnfKinds) (hfuel : r.rest.length < fuel) :
    ∃ r', Reader.rules .bnf fuel r = .ok r' ∧
      Reads r (rules.flatMap bnfKinds) (rules.map fun rule => .define rule.1 rule.2) r' := by
  induction rules generalizing r fuel with
  | nil =>
    obtain ⟨fuel, rfl⟩ := Nat.exists_eq_succ_of_ne_zero (Nat.ne_zero_of_lt hfuel)
    have hstop : r.peek.kind = .stop := ended_iff.2 (hr ▸ .nil)
    exact ⟨r, by rw [Reader.rules, if_pos hstop], .refl hb⟩
  | cons rule rules ih =>
    obtain ⟨fuel, rfl⟩ := Nat.exists_eq_succ_of_ne_zero (Nat.ne_zero_of_lt hfuel)
    obtain ⟨hrule, hrules⟩ := List.forall_mem_cons.1 hrules
    have hafter : EndsIn none (rules.flatMap bnfKinds) ∧ ∀ rest, rules.flatMap bnfKinds ≠ .pipe :: rest := by
      cases rules with
      | nil => exact ⟨.nil, by simp⟩
      | cons rule rules => exact ⟨.rule _ _, by simp [bnfKinds]⟩
    obtain ⟨r₁, hok, hreads⟩ := exists_rule hrule hb hafter.1 hafter.2 hr
    have hlength := hreads.length_eq
    rw [bnfKinds, List.length_cons] at hlength
    obtain ⟨r', hok', hreads'⟩ := ih hrules hreads.effect.resolved
      (List.append_cancel_left (hreads.rest.symm.trans hr)) (show _ < fuel by omega)
    have hname : r.peek.kind = .reference rule.1 := peek_kind_of_rest hr
    have hne : r.peek.kind ≠ .stop := by simp [hname]
    refine ⟨r', ?_, hreads.trans hreads'⟩
    rw [Reader.rules, if_neg hne]
    simp only [hok, hok', bind, Except.bind]

end Reader

end Notation

end ParseForest
