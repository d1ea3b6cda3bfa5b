import ParseForest.Proofs.Notation.Ending
import ParseForest.Proofs.Notation.Marks

/-!
# What EBNF accepts

The reader of EBNF takes every text that is written by the grammar of EBNF, unless annotations of one literal
contradict each other; so it accepts exactly these texts (`Reader.rules_ebnf_accepts`). One direction is in
`Reader.reads_rules`. For the other, a tree is read off the lexemes of the tree (`accepts_choice` and so on, one
for each kind of tree). That nothing but these lexemes is gone is all that has to be shown: what has been made of
them is known from the first direction, since no other tree has the same lexemes.
-/

namespace ParseForest

namespace Notation

/-! ## Places in a text -/

namespace Reader

variable {r r' : Reader} {kind : LexemeKind} {kinds after : List LexemeKind} {marks : List (String × Mark)}

/-- The reader has the given lexemes before it, and nothing that is noted contradicts the annotations. -/
structure Ready (marks : List (String × Mark)) (r : Reader) (kinds : List LexemeKind) : Prop where
  rest : r.rest.map Lexeme.kind = kinds
  resolved : r.builder.Resolved
  notes : NotesOnly marks r.builder

theorem Ready.skip (h : Ready marks r (kind :: kinds)) : Ready marks r.skip kinds := by
  refine ⟨?_, h.resolved, h.notes⟩
  rw [Reader.skip, List.map_tail, h.rest, List.tail_cons]

/-- The builder changes and no lexeme is read. -/
theorem Ready.build (h : Ready marks r kinds) {changes : List Change} {b : GrammarBuilder}
    (hb : r.builder.Effect changes b) (hs : SameTerminals r.builder b) :
    Ready marks { r with builder := b } kinds :=
  ⟨h.rest, hb.resolved, h.notes.congr hs⟩

theorem Ready.length_eq (h : Ready marks r kinds) : r.rest.length = kinds.length := by
  rw [← h.rest, List.length_map]

theorem peek_kind_of_rest (h : r.rest.map Lexeme.kind = kind :: kinds) : r.peek.kind = kind := by
  obtain ⟨lexeme, rest, hr, hkind, -⟩ := List.map_eq_cons_iff.1 h
  rw [peek, hr]
  exact hkind

theorem peek_kind_ne (hne : kind ≠ .stop) (h : ∀ rest, r.rest.map Lexeme.kind ≠ kind :: rest) :
    r.peek.kind ≠ kind := by
  rintro rfl
  cases hr : r.rest with
  | nil => exact hne (by rw [peek, hr]; rfl)
  | cons lexeme rest => exact h (rest.map Lexeme.kind) (by rw [peek, hr]; rfl)

theorem atRuleStart_iff : r.atRuleStart = true ↔
    ∃ name rest, r.rest.map Lexeme.kind = .reference name :: .define :: rest := by
  rw [atRuleStart]
  split
  · rename_i name place place' rest heq
    exact iff_of_true rfl ⟨name, rest.map Lexeme.kind, by rw [heq]; rfl⟩
  · rename_i hne
    refine iff_of_false Bool.false_ne_true ?_
    rintro ⟨name, rest, h⟩
    obtain ⟨⟨_, place⟩, ls, hr, rfl, hls⟩ := List.map_eq_cons_iff.1 h
    obtain ⟨⟨_, place'⟩, ls', rfl, rfl, -⟩ := List.map_eq_cons_iff.1 hls
    exact hne _ _ _ _ hr

/-- Where a sequence ends. -/
theorem atEnd_iff : (r.atSequenceEnd ∨ r.peek.kind = .closeParen) ↔ Ends (r.rest.map Lexeme.kind) := by
  rw [atSequenceEnd, Bool.or_eq_true, Bool.or_eq_true, beq_iff_eq, beq_iff_eq, atRuleStart_iff]
  constructor
  · cases hr : r.rest with
    | nil => exact fun _ => .nil
    | cons lexeme rest =>
      have hpeek : r.peek.kind = lexeme.kind := by rw [peek, hr, List.headD_cons]
      rw [hpeek, List.map_cons]
      rintro (((hk | hk) | ⟨name, rest', hk⟩) | hk)
      · exact hk ▸ .stop _
      · exact hk ▸ .pipe _
      · exact hk ▸ .rule name rest'
      · exact hk ▸ .close _
  · generalize hr : r.rest.map Lexeme.kind = kinds
    rintro (_ | rest | rest | rest | ⟨name, rest⟩)
    · rw [List.map_eq_nil_iff] at hr
      exact .inl (.inl (.inl (by rw [peek, hr]; rfl)))
    · exact .inl (.inl (.inl (peek_kind_of_rest hr)))
    · exact .inl (.inl (.inr (peek_kind_of_rest hr)))
    · exact .inr (peek_kind_of_rest hr)
    · exact .inl (.inr ⟨name, rest, rfl⟩)

theorem atEnd_of_ends (h : Ends (r.rest.map Lexeme.kind)) :
    r.atSequenceEnd ∨ r.peek.kind = .closeParen := atEnd_iff.2 h

/-- Where an alternative ends, in the group that a lexeme opens or at the top. -/
inductive EndsIn : Option Lexeme → List LexemeKind → Prop
  | pipe (opened rest) : EndsIn opened (.pipe :: rest)
  | close (opened rest) : EndsIn (some opened) (.closeParen :: rest)
  | nil : EndsIn none []
  | stop (rest) : EndsIn none (.stop :: rest)
  | rule (name rest) : EndsIn none (.reference name :: .define :: rest)

theorem EndsIn.ends {opened : Option Lexeme} (h : EndsIn opened kinds) : Ends kinds := by
  cases h with
  | pipe _ rest => exact .pipe rest
  | close _ rest => exact .close rest
  | nil => exact .nil
  | stop rest => exact .stop rest
  | rule name rest => exact .rule name rest

theorem EndsIn.sequenceEndFault? {opened : Option Lexeme} (h : EndsIn opened (r.rest.map Lexeme.kind)) :
    r.sequenceEndFault? opened = none := by
  have hrule := atRuleStart_iff (r := r)
  generalize hr : r.rest.map Lexeme.kind = kinds at h hrule
  cases h with
  | pipe opened rest =>
    have hk := peek_kind_of_rest hr
    cases opened <;> simp_all [Reader.sequenceEndFault?]
  | close opened rest =>
    have hk := peek_kind_of_rest hr
    simp_all [Reader.sequenceEndFault?]
  | nil =>
    rw [List.map_eq_nil_iff] at hr
    simp [Reader.sequenceEndFault?, peek, hr]
  | stop rest =>
    have hk := peek_kind_of_rest hr
    simp [Reader.sequenceEndFault?, hk]
  | rule name rest =>
    have hk := peek_kind_of_rest hr
    simp [Reader.sequenceEndFault?, hk]

/-! ## Trees are read -/

/-- The reader succeeds before the given lexemes. -/
def Accepts {α : Type} (marks : List (String × Mark)) (after : List LexemeKind)
    (x : Except GrammarError (α × Reader)) : Prop :=
  ∃ v r', x = .ok (v, r') ∧ Ready marks r' after

variable {symbols : List Symbol} {alt : List NamedSymbol}

theorem modifier?_eq_none (h : Fresh (r.rest.map Lexeme.kind)) : r.peek.kind.modifier? = none := by
  cases hr : r.rest with
  | nil =>
    rw [peek, hr]
    rfl
  | cons lexeme rest =>
    have hpeek : r.peek.kind = lexeme.kind := by rw [peek, hr, List.headD_cons]
    cases hm : r.peek.kind.modifier? with
    | none => rfl
    | some c =>
      obtain ⟨m, hkind, -⟩ := exists_modifier hm
      exact absurd (hpeek.symm.trans hkind) ((h _ _ (by rw [hr, List.map_cons])).2.1 m)

theorem modifier?_kind (m : Modifier) : m.kind.modifier? = some m.char := by
  cases m <;> rfl

theorem accepts_modifier (m : Option Modifier) (hr : Ready marks r (m.toList.map Modifier.kind ++ after))
    (hs : r.builder.Stands symbols alt) (hne : alt = [] → m = none) (hafter : Fresh after) :
    Accepts marks after (r.modifier symbols) := by
  rw [modifier]
  dsimp only
  cases m with
  | none =>
    rw [modifier?_eq_none (hr.rest ▸ hafter)]
    exact ⟨symbols, r, rfl, hr⟩
  | some m =>
    have hskip : Ready marks r.skip after := hr.skip
    have hsymbols : symbols.isEmpty = false := by
      rw [List.isEmpty_eq_false_iff]
      rintro rfl
      cases hne (List.forall₂_nil_left_iff.1 hs)
    simp only [peek_kind_of_rest hr.rest, modifier?_kind, modifier?_eq_none (hskip.rest ▸ hafter), hsymbols,
      Bool.false_eq_true, if_false]
    exact ⟨_, _, rfl, hskip.build (effect_modifiedSymbol hskip.resolved m hs).1 (.modifiedSymbol _ _ _)⟩

/-- Where no annotation comes next, none is read. -/
theorem annotateWith_of_unmarked {id : TerminalId} {b : GrammarBuilder} {stop : Location} {rest : List Lexeme}
    (h : Unmarked (rest.map Lexeme.kind)) : annotateWith id b stop rest = .ok ⟨rest, stop, b⟩ := by
  rw [annotateWith.eq_def]
  split
  · exact absurd rfl (h (.precedence _) _)
  · exact absurd rfl (h (.associativity _) _)
  · rfl

theorem accepts_annotateWith (hc : Consonant marks) {id : TerminalId} {b : GrammarBuilder}
    (stop : Location) (ms : List Mark) {rest : List Lexeme} (hrest : rest.map Lexeme.kind = ms.map Mark.kind ++ after)
    (hafter : Unmarked after) (hb : b.Resolved) (hn : NotesOnly marks b) {l : Literal}
    (hl : b.terminals[id]? = some (.literal l)) (hms : ∀ m ∈ ms, (l.text, m) ∈ marks) :
    ∃ r', annotateWith id b stop rest = .ok r' ∧ Ready marks r' after := by
  induction ms generalizing rest b l with
  | nil =>
    have hrest : rest.map Lexeme.kind = after := hrest
    exact ⟨⟨rest, stop, b⟩, annotateWith_of_unmarked (hrest ▸ hafter), hrest, hb, hn⟩
  | cons m ms ih =>
    obtain ⟨⟨kind, place⟩, rest, rfl, rfl, hrest'⟩ := List.map_eq_cons_iff.1 hrest
    obtain ⟨b', hb', hn', l', hl', htext⟩ := hn.annotateBy hc hl (hms m (.head _)) place
    have heffect := hb.effect_annotate (m.marking id place).terminal (m.marking id place).precedence
      (m.marking id place).associativity (m.marking id place).place
    rw [show b.annotate _ _ _ _ = _ from hb'] at heffect
    obtain ⟨r', hr', hready⟩ := ih hrest' heffect.resolved hn' hl' fun m hm => htext ▸ hms m (.tail _ hm)
    refine ⟨r', ?_, hready⟩
    cases m with
    | precedence level =>
      rw [Mark.kind, annotateWith, show b.annotate id (some level) none place = _ from hb']
      exact hr'
    | associativity side =>
      rw [Mark.kind, annotateWith, show b.annotate id none (some side) place = _ from hb']
      exact hr'

theorem accepts_literal (hc : Consonant marks) {text : String} (ms : List Mark)
    (hr : Ready marks r (ms.map Mark.kind ++ after)) (hafter : Unmarked after)
    (hms : ∀ m ∈ ms, (text, m) ∈ marks) : Accepts marks after (r.literal text) := by
  obtain ⟨hterminal, hid⟩ := hr.resolved.effect_internTerminal (.ofText text)
  have hn := hr.notes.internTerminal (t := .ofText text) fun l hl => by
    obtain rfl := Terminal.literal.inj hl
    rfl
  obtain ⟨t, ht, hatom⟩ := Option.map_eq_some_iff.1 hid
  obtain ⟨l, rfl, htext⟩ : ∃ l, t = .literal l ∧ l.text = text := by
    cases t with
    | literal l => exact ⟨l, rfl, Atom.literal.inj (NamedSymbol.terminal.inj hatom)⟩
    | pattern p => cases hatom
  obtain ⟨r', hr', hready⟩ := accepts_annotateWith hc r.stop ms hr.rest hafter hterminal.resolved hn ht
    (htext ▸ hms)
  refine ⟨(r.builder.internTerminal (.ofText text)).1, r', ?_, hready⟩
  simp only [literal, bind, Except.bind, GrammarBuilder.literal, hr']

variable {fuel : Nat}

/-- A sequence does not end before an expression. -/
theorem not_atEnd {p : Primary} {m : Option Modifier} {s : Sequence}
    (hr : r.rest.map Lexeme.kind = (Sequence.cons p m s).kinds ++ after) (hafter : Ends after) :
    ¬ (r.atSequenceEnd ∨ r.peek.kind = .closeParen) := by
  rw [atEnd_iff, hr]
  exact Sequence.not_ends p m s hafter

/-- An alternative is read once its items are. -/
theorem accepts_sequence {opened : Option Lexeme} (hafter : EndsIn opened after) {s : Sequence}
    (hs : s ≠ .nil) (hr : Ready marks r (s.kinds ++ after)) (hitems : Accepts marks after (items fuel r)) :
    Accepts marks after (sequence (fuel + 1) opened r) := by
  obtain ⟨symbols, r', hr', hready⟩ := hitems
  cases s with
  | nil => exact absurd rfl hs
  | cons p m s =>
    have hend := EndsIn.sequenceEndFault? (hready.rest ▸ hafter)
    rw [sequence]
    simp only [bind, Except.bind, hr', hend, if_neg (not_atEnd hr.rest hafter.ends)]
    exact ⟨symbols, r', rfl, hready⟩

/-- A group is read once its alternatives are. -/
theorem accepts_item_group {c : Choice} {m : Option Modifier}
    (hne : (Primary.group c).symbols = [] → m = none) (hafter : Fresh after)
    (hr : Ready marks r ((Primary.group c).kinds ++ (m.toList.map Modifier.kind ++ after)))
    (hbody : Accepts marks (.closeParen :: (m.toList.map Modifier.kind ++ after))
      (choice fuel (some r.peek) r.skip)) : Accepts marks after (item (fuel + 1) r) := by
  have hr' : Ready marks r (.openParen :: (c.kinds ++ .closeParen :: (m.toList.map Modifier.kind ++ after))) := by
    simpa [Primary.kinds] using hr
  obtain ⟨lists, r₁, hchoice, hready⟩ := hbody
  -- the alternatives that have been read are those of the tree
  obtain ⟨c', -, hreads, hstands⟩ := (reads_of_fuel fuel).1 hr'.skip.resolved hchoice
  have hkinds := hr'.skip.rest.symm.trans (hreads.rest.trans (by rw [hready.rest]))
  obtain ⟨rfl, -⟩ := Choice.kinds_inj (.close _) (.close _) (by simp) (by simp) c c' hkinds
  obtain ⟨heffect, hsymbols⟩ := effect_groupSymbols hready.resolved hstands
  rw [item]
  simp only [peek_kind_of_rest hr'.rest, bind, Except.bind, pure, Except.pure, hchoice,
    peek_kind_of_rest hready.rest, if_true]
  exact accepts_modifier m (hready.skip.build heffect (.groupSymbols _ _)) hsymbols hne hafter

mutual

/-- An expression with its modifier is read as an item. -/
theorem accepts_item (hc : Consonant marks) {m : Option Modifier} {after : List LexemeKind}
    (hafter : Fresh after) : ∀ (p : Primary) {fuel : Nat} {r : Reader}, p.Proper →
    (p.symbols = [] → m = none) → (∀ x ∈ p.marks, x ∈ marks) →
    Ready marks r (p.kinds ++ (m.toList.map Modifier.kind ++ after)) → 4 * r.rest.length < fuel →
    Accepts marks after (item fuel r)
  | .reference name, fuel + 1, r, _, hne, _, hr, _ => by
    have hskip : Ready marks r.skip (m.toList.map Modifier.kind ++ after) := hr.skip
    obtain ⟨heffect, hid⟩ := hskip.resolved.effect_mention name r.peek.place
    have hk : r.peek.kind = .reference name := peek_kind_of_rest hr.rest
    rw [item]
    simp only [hk, bind, Except.bind, pure, Except.pure]
    exact accepts_modifier m (hskip.build heffect (.mention _ _ _)) (stands_rule hid) hne hafter
  | .literal text ms, fuel + 1, r, _, hne, hms, hr, _ => by
    have hskip : Ready marks r.skip (ms.map Mark.kind ++ (m.toList.map Modifier.kind ++ after)) := hr.skip
    obtain ⟨id, r', hr', hready⟩ := accepts_literal hc ms hskip (unmarked_modifier m hafter) fun x hx =>
      hms _ (List.mem_map_of_mem hx)
    obtain ⟨ms', -, hid⟩ := reads_literal hskip.resolved hr'
    have hk : r.peek.kind = .literal text := peek_kind_of_rest hr.rest
    rw [item]
    simp only [hk, bind, Except.bind, pure, Except.pure, hr']
    exact accepts_modifier m hready (stands_literal hid ms) hne hafter
  | .pattern text flags, fuel + 1, r, _, hne, _, hr, _ => by
    have hskip : Ready marks r.skip (m.toList.map Modifier.kind ++ after) := hr.skip
    obtain ⟨heffect, hid⟩ := hskip.resolved.effect_internTerminal (.pattern ⟨text, flags, none⟩)
    have hready : Ready marks { r.skip with builder := (r.skip.builder.pattern text flags).2 }
        (m.toList.map Modifier.kind ++ after) :=
      ⟨hskip.rest, heffect.resolved, hskip.notes.internTerminal fun l hl => by cases hl⟩
    have hk : r.peek.kind = .pattern text flags := peek_kind_of_rest hr.rest
    rw [item]
    simp only [hk, bind, Except.bind, pure, Except.pure]
    exact accepts_modifier m hready
      (GrammarBuilder.stands_singleton hid (by simp [NamedSymbol.empty, Terminal.atom])) hne hafter
  | .group c, fuel + 1, r, hproper, hne, hms, hr, hfuel => by
    have hr' : Ready marks r
        (.openParen :: (c.kinds ++ .closeParen :: (m.toList.map Modifier.kind ++ after))) := by
      simpa [Primary.kinds] using hr
    refine accepts_item_group hne hafter hr (accepts_choice hc (.close _ _) (by simp) c hproper hms hr'.skip ?_)
    have := hr'.length_eq
    have := hr'.skip.length_eq
    simp only [List.length_cons] at *
    omega

/-- A sequence is read as items. -/
theorem accepts_items (hc : Consonant marks) {after : List LexemeKind} (hafter : Ends after) :
    ∀ (s : Sequence) {fuel : Nat} {r : Reader}, s.Proper → (∀ x ∈ s.marks, x ∈ marks) →
    Ready marks r (s.kinds ++ after) → 4 * r.rest.length + 1 < fuel → Accepts marks after (items fuel r)
  | .nil, fuel + 1, r, _, _, hr, _ => by
    have hr' : Ready marks r after := hr
    rw [items, if_pos (atEnd_of_ends (hr'.rest ▸ hafter))]
    exact ⟨[], r, rfl, hr'⟩
  | .cons p m s, fuel + 1, r, hproper, hms, hr, hfuel => by
    obtain ⟨hp, hne, hs⟩ := hproper
    obtain ⟨hmp, hms⟩ := List.forall_mem_append.1 hms
    have hr' := Sequence.kinds_cons_append p m s ▸ hr
    obtain ⟨symbols, r₁, hitem, hready⟩ := accepts_item hc (s.fresh hafter) p hp hne hmp hr'
      (show _ < fuel by omega)
    have hless : r₁.rest.length < r.rest.length := by
      obtain ⟨kind, rest, hkinds, -⟩ := p.kinds_cons
      rw [hr'.length_eq, hready.length_eq, hkinds]
      simp only [List.length_append, List.length_cons]
      omega
    obtain ⟨more, r₂, hitems, hready'⟩ := accepts_items hc hafter s hs hms hready
      (show _ < fuel by omega)
    rw [items, if_neg (not_atEnd hr.rest hafter)]
    simp only [bind, Except.bind, hitem, hitems]
    exact ⟨_, r₂, rfl, hready'⟩

/-- Alternatives are read as a choice. -/
theorem accepts_choice (hc : Consonant marks) {opened : Option Lexeme} {after : List LexemeKind}
    (hafter : EndsIn opened after) (hpipe : ∀ rest, after ≠ .pipe :: rest) :
    ∀ (c : Choice) {fuel : Nat} {r : Reader}, c.Proper → (∀ x ∈ c.marks, x ∈ marks) →
    Ready marks r (c.kinds ++ after) → 4 * r.rest.length + 3 < fuel →
    Accepts marks after (choice fuel opened r)
  | .last s, fuel + 2, r, ⟨hne, hs⟩, hms, hr, hfuel => by
    obtain ⟨symbols, r₁, hsequence, hready⟩ := accepts_sequence hafter hne hr
      (accepts_items hc hafter.ends s hs hms hr (show _ < fuel by omega))
    have hpipe' : r₁.peek.kind ≠ .pipe := peek_kind_ne (by simp) (hready.rest ▸ hpipe)
    rw [choice]
    simp only [bind, Except.bind, hsequence, if_neg hpipe']
    exact ⟨_, r₁, rfl, hready⟩
  | .more s c, fuel + 2, r, ⟨⟨hne, hs⟩, hproper⟩, hms, hr, hfuel => by
    obtain ⟨hms, hmc⟩ := List.forall_mem_append.1 hms
    have hr' : Ready marks r (s.kinds ++ .pipe :: (c.kinds ++ after)) := by
      simpa [Choice.kinds] using hr
    obtain ⟨symbols, r₁, hsequence, hready⟩ := accepts_sequence (.pipe opened _) hne hr'
      (accepts_items hc (.pipe _) s hs hms hr' (show _ < fuel by omega))
    have hless : r₁.skip.rest.length < r.rest.length := by
      rw [hr'.length_eq, hready.skip.length_eq]
      simp only [List.length_append, List.length_cons]
      omega
    obtain ⟨more, r₂, hchoice, hready'⟩ := accepts_choice hc hafter hpipe c hproper hmc hready.skip
      (show _ < fuel + 1 by omega)
    rw [choice]
    simp only [bind, Except.bind, hsequence, peek_kind_of_rest hready.rest, if_true, hchoice]
    exact ⟨_, r₂, rfl, hready'⟩

end

/-! ## Rules are read -/

theorem sameTerminals_openRule (r : Reader) (name : String) :
    SameTerminals r.builder (openRule r name).2.builder := by
  rw [Reader.openRule]
  dsimp only
  split <;> exact SameTerminals.internRule r.builder name _

theorem accepts_rule (hc : Consonant marks) {name : String} {body : Choice} (hname : name ≠ startRuleName)
    (hproper : body.Proper) (hms : ∀ x ∈ body.marks, x ∈ marks) (hafter : EndsIn none after)
    (hpipe : ∀ rest, after ≠ .pipe :: rest) (hr : Ready marks r (ruleKinds (name, body) ++ after)) :
    ∃ r', rule .ebnf r = .ok r' ∧ Ready marks r' after := by
  have hskip : Ready marks r.skip (.define :: (body.kinds ++ after)) := hr.skip
  have hopened : Ready marks (openRule r.skip name).2 (.define :: (body.kinds ++ after)) :=
    ⟨hskip.rest, (reads_openRule hskip.resolved name).1.effect.resolved,
      hskip.notes.congr (sameTerminals_openRule r.skip name)⟩
  obtain ⟨lists, r₁, hchoice, hready⟩ := accepts_choice hc hafter hpipe body hproper hms hopened.skip
    (Nat.lt_succ_self _)
  let builder := lists.foldl (fun b alt => b.addAlternative (openRule r.skip name).1 alt) r₁.builder
  have hok : rule .ebnf r = .ok { r₁ with builder } := by
    have hk : r.peek.kind = .reference name := peek_kind_of_rest hr.rest
    rw [rule]
    simp only [hk, if_neg hname,
      peek_kind_of_rest hopened.rest, if_true, alternatives, ebnfAlternatives, bind, Except.bind, hchoice, builder]
  obtain ⟨_, _, -, hreads⟩ := reads_rule hr.resolved hok
  exact ⟨_, hok, hready.rest, hreads.effect.resolved, hready.notes.congr (.addAlternatives _ _ _)⟩

/-- After a rule comes the next rule or the end. -/
theorem endsIn_rules (written : List (String × Choice)) (hafter : Ended after) :
    EndsIn none (written.flatMap ruleKinds ++ after) ∧
      ∀ rest, written.flatMap ruleKinds ++ after ≠ .pipe :: rest := by
  cases written with
  | nil =>
    cases hafter with
    | nil => exact ⟨.nil, by simp⟩
    | stop rest => exact ⟨.stop rest, by simp⟩
  | cons rule written => exact ⟨.rule _ _, by simp [ruleKinds]⟩

theorem accepts_rules (hc : Consonant marks) (hafter : Ended after) (written : List (String × Choice))
    (hwritten : ∀ rule ∈ written, rule.1 ≠ startRuleName ∧ rule.2.Proper)
    (hms : ∀ rule ∈ written, ∀ x ∈ rule.2.marks, x ∈ marks)
    (hr : Ready marks r (written.flatMap ruleKinds ++ after)) (hfuel : r.rest.length < fuel) :
    ∃ r', rules .ebnf fuel r = .ok r' := by
  induction written generalizing r fuel with
  | nil =>
    obtain ⟨fuel, rfl⟩ := Nat.exists_eq_succ_of_ne_zero (Nat.ne_zero_of_lt hfuel)
    have hstop : r.peek.kind = .stop := ended_iff.2 (hr.rest ▸ hafter)
    exact ⟨r, by rw [rules, if_pos hstop]⟩
  | cons rule written ih =>
    obtain ⟨fuel, rfl⟩ := Nat.exists_eq_succ_of_ne_zero (Nat.ne_zero_of_lt hfuel)
    obtain ⟨⟨hname, hproper⟩, hwritten⟩ := List.forall_mem_cons.1 hwritten
    obtain ⟨hmr, hms⟩ := List.forall_mem_cons.1 hms
    obtain ⟨hends, hpipe⟩ := endsIn_rules written hafter
    rw [List.flatMap_cons, List.append_assoc] at hr
    obtain ⟨r₁, hrule, hready⟩ := accepts_rule hc hname hproper hmr hends hpipe hr
    have hless : r₁.rest.length < fuel := by
      have h := hr.length_eq
      rw [List.length_append, ← hready.length_eq, ruleKinds, List.length_cons] at h
      omega
    obtain ⟨r', hr'⟩ := ih hwritten hms hready hless
    have hname : r.peek.kind = .reference rule.1 := peek_kind_of_rest hr.rest
    have hne : r.peek.kind ≠ .stop := by simp [hname]
    refine ⟨r', ?_⟩
    rw [rules, if_neg hne]
    simp only [bind, Except.bind, hrule, hr']

/-- The reader of EBNF comes to an end on any lexemes. It reads those before the first end, which are all of them
where the end comes last, as in every text. If annotations do not contradict each other, it accepts exactly the
lexemes of rules in which no modifier applies to nothing and no alternative is left out, of which none is `#S`.
There is one list of rules at most that the lexemes are of, and what the builder has in the end is what these rules
call for. -/
theorem rules_ebnf_accepts (classes : List (String × String)) (ls : List Lexeme) (stop : Location) :
    let b := classes.foldl (fun b (name, pattern) => b.declareClass name pattern) GrammarBuilder.new
    let outcome := rules .ebnf (ls.length + 1) ⟨ls, stop, b⟩
    outcome ≠ .error exhausted ∧
    ((∀ l ∈ ls, l.kind ≠ .stop) → beforeEnd ls = ls.map Lexeme.kind) ∧
    (Consonant (marksFrom none (beforeEnd ls)) → ((∃ r, outcome = .ok r) ↔
      ∃ written : List (String × Choice), beforeEnd ls = written.flatMap ruleKinds ∧
        ∀ rule ∈ written, rule.1 ≠ startRuleName ∧ rule.2.Proper)) ∧
    (∀ written written' : List (String × Choice), beforeEnd ls = written.flatMap ruleKinds →
      beforeEnd ls = written'.flatMap ruleKinds → written = written') ∧
    ∀ (r : Reader) (written : List (String × Choice)), outcome = .ok r → beforeEnd ls = written.flatMap ruleKinds →
      r.builder.listing = Change.amendAll (fun _ => []) (written.flatMap ruleChanges) := by
  intro b outcome
  obtain ⟨hb, hlisting⟩ := GrammarBuilder.resolved_declareClasses classes GrammarBuilder.resolved_new
  -- what has been read is the rules of one list
  have hreads : ∀ {r}, outcome = .ok r → ∃ written : List (String × Choice), beforeEnd ls = written.flatMap ruleKinds ∧
      (∀ rule ∈ written, rule.1 ≠ startRuleName ∧ rule.2.Proper) ∧
      r.builder.listing = Change.amendAll (fun _ => []) (written.flatMap ruleChanges) := by
    intro r hr
    obtain ⟨written, hwritten, hkinds, hreads⟩ := reads_rules hb (Nat.lt_succ_self _) hr
    refine ⟨written, hkinds, hwritten, ?_⟩
    rw [hreads.effect.listing, hlisting, GrammarBuilder.listing_new]
  refine ⟨rules_ne hb (Nat.lt_succ_self _), beforeEnd_eq_map, fun hc => ⟨?_, ?_⟩, fun written written' h h' => ?_,
    fun r written hr h => ?_⟩
  · rintro ⟨r, hr⟩
    obtain ⟨written, hkinds, hwritten, -⟩ := hreads hr
    exact ⟨written, hkinds, hwritten⟩
  · rintro ⟨written, hkinds, hwritten⟩
    obtain ⟨after, hrest, hafter⟩ := exists_ended ls
    rw [hkinds] at hrest
    rw [hkinds, marksFrom_rules] at hc
    refine accepts_rules hc hafter written hwritten (fun rule hrule x hx => List.mem_flatMap.2 ⟨rule, hrule, hx⟩)
      ⟨hrest, hb, ?_⟩ (Nat.lt_succ_self _)
    exact notesOnly_declareClasses classes (notesOnly_new _)
  · exact rules_inj (h.symm.trans h')
  · obtain ⟨written', hkinds, -, hbuilder⟩ := hreads hr
    rw [hbuilder, rules_inj (hkinds.symm.trans h)]

theorem rules_ebnf_accepts_nested :
    let kinds : List LexemeKind := [.reference "S", .define, .literal "a", .precedence 1, .openParen,
      .pattern "b" "", .pipe, .reference "S", .closeParen, .star]
    let ls : List Lexeme := kinds.map (⟨·, ⟨1, 1⟩⟩)
    let group : Primary := .group (.more (.cons (.pattern "b" "") none .nil) (.last (.cons (.reference "S") none .nil)))
    let written : List (String × Choice) :=
      [("S", .last (.cons (.literal "a" [.precedence 1]) none (.cons group (some .star) .nil)))]
    Consonant (marksFrom none (beforeEnd ls)) ∧ beforeEnd ls = written.flatMap ruleKinds ∧
    (∀ rule ∈ written, rule.1 ≠ startRuleName ∧ rule.2.Proper) ∧
    ∃ r, rules .ebnf (ls.length + 1) ⟨ls, ⟨1, 1⟩, .new⟩ = .ok r ∧
      r.builder.listing = Change.amendAll (fun _ => []) (written.flatMap ruleChanges) := by
  intro kinds ls group written
  have hkinds : beforeEnd ls = written.flatMap ruleKinds := by decide +kernel
  have hmarks : marksFrom none (beforeEnd ls) = [("a", .precedence 1)] := by
    rw [hkinds]
    rfl
  have hc : Consonant (marksFrom none (beforeEnd ls)) := by
    simp [hmarks, Consonant, Mark.Agrees]
  have hwritten : ∀ rule ∈ written, rule.1 ≠ startRuleName ∧ rule.2.Proper := by
    simp [written, group, startRuleName, Choice.Proper, Sequence.Proper, Primary.Proper, Primary.symbols,
      Choice.alternatives, grouped]
  obtain ⟨-, -, haccepts, -, hbuilder⟩ := rules_ebnf_accepts [] ls ⟨1, 1⟩
  obtain ⟨r, hr⟩ := (haccepts hc).2 ⟨written, hkinds, hwritten⟩
  exact ⟨hc, hkinds, hwritten, r, hr, hbuilder r written hr hkinds⟩

end Reader

end Notation

end ParseForest
