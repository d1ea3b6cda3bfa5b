import ParseForest.Proofs.Grammar.Finishing
import ParseForest.Proofs.Notation.Lexing
import ParseForest.Proofs.Notation.Syntax

/-!
# Reading EBNF

The reader of EBNF reads a text as the rules that are written in it, and what it does to its builder is
what these call for: the synthetic rules of each body in the order in which they come up, then the
alternatives of the rule (`ruleChanges`). Main statement (`Grammar.listing_of_ebnf`): the listing of the
grammar that a text is read as.
-/

namespace ParseForest

namespace Notation

/-- What a call for a synthetic rule does: the rule has its alternatives afterwards, unless there is a
rule of the name with alternatives already. -/
def Synthetic.change (o : Synthetic) : Change := .supply o.name o.alternatives

/-- The character of a modifier. -/
def Modifier.char : Modifier → Char
  | .optional => '?'
  | .plus => '+'
  | .star => '*'

namespace Reader

variable {b b' : GrammarBuilder} {symbols : List Symbol} {alt : List NamedSymbol}
  {lists : List (List Symbol)} {alternatives : List (List NamedSymbol)}

/-! ## Synthetic rules -/

theorem describe_eq_display (h : b.Stands symbols alt) : describe b symbols = display alt := by
  rw [describe, display]
  congr 1
  induction h with
  | nil => rfl
  | cons hx _ ih => rw [List.map_cons, List.map_cons, GrammarBuilder.describe_of_named? hx.1, ih]

theorem map_describe_eq_display (h : List.Forall₂ b.Stands lists alternatives) :
    lists.map (describe b) = alternatives.map display := by
  induction h with
  | nil => rfl
  | cons hs _ ih => rw [List.map_cons, List.map_cons, describe_eq_display hs, ih]

/-- A rule stands for itself. -/
theorem stands_rule {id : RuleId} {name : String} (h : b.named? (.rule id) = some (.rule name)) :
    b.Stands [.rule id] [.rule name] :=
  GrammarBuilder.stands_singleton h (by simp [NamedSymbol.empty])

theorem effect_syntheticRule (h : b.Resolved) (o : Synthetic) (kind : RuleKind)
    {alternatives : Symbol → List (List Symbol)} (hs : ∀ b' id, b.Grows b' →
      b'.named? (.rule id) = some (.rule o.name) →
      List.Forall₂ b'.Stands (alternatives (.rule id)) o.alternatives) :
    b.Effect [o.change] (syntheticRule b o.name kind alternatives).2 ∧
      (syntheticRule b o.name kind alternatives).2.Stands
        [(syntheticRule b o.name kind alternatives).1] [.rule o.name] := by
  obtain ⟨hrule, hid⟩ := h.effect_internRule o.name kind
  have hsupply := hrule.resolved.effect_supply hid fun _ =>
    hrule.resolved.effect_addAlternatives hid (hs _ _ hrule.grows hid)
  have hall := hrule.trans hsupply
  rw [syntheticRule]
  generalize b.internRule o.name kind = p at hid hsupply hall ⊢
  obtain ⟨id, b₁⟩ := p
  dsimp only at hid hsupply hall ⊢
  rw [← apply_ite (Prod.mk (Symbol.rule id))]
  exact ⟨hall, stands_rule (hsupply.grows _ _ hid)⟩

theorem effect_listRule (h : b.Resolved) (hs : b.Stands symbols alt) :
    b.Effect [(Synthetic.list alt).change] (listRule b symbols).2 ∧
      (listRule b symbols).2.Stands [(listRule b symbols).1] [.rule (Synthetic.list alt).name] := by
  rw [listRule, describe_eq_display hs]
  exact effect_syntheticRule h (.list alt) .list fun b' id hg hid =>
    .cons (hs.mono hg) (.cons ((hs.mono hg).append (stands_rule hid)) .nil)

theorem effect_optionalRule (h : b.Resolved) (hs : b.Stands symbols alt) :
    b.Effect [(Synthetic.optional alt).change] (optionalRule b symbols).2 ∧
      (optionalRule b symbols).2.Stands [(optionalRule b symbols).1]
        [.rule (Synthetic.optional alt).name] := by
  rw [optionalRule, describe_eq_display hs]
  exact effect_syntheticRule h (.optional alt) .optional fun b' id hg _ =>
    .cons (hs.mono hg) (.cons .nil .nil)

theorem effect_modifiedSymbol (h : b.Resolved) (m : Modifier) (hs : b.Stands symbols alt) :
    b.Effect ((modifierSynthetics (some m) alt).map Synthetic.change)
        (modifiedSymbol b m.char symbols).2 ∧
      (modifiedSymbol b m.char symbols).2.Stands [(modifiedSymbol b m.char symbols).1]
        (modified (some m) alt) := by
  cases m with
  | optional => exact effect_optionalRule h hs
  | plus => exact effect_listRule h hs
  | star =>
    obtain ⟨hlist, hstands⟩ := effect_listRule h hs
    obtain ⟨hoptional, hstands'⟩ := effect_optionalRule hlist.resolved hstands
    exact ⟨hlist.trans hoptional, hstands'⟩

theorem effect_groupSymbols (h : b.Resolved) (hs : List.Forall₂ b.Stands lists alternatives) :
    b.Effect ((groupSynthetics alternatives).map Synthetic.change) (groupSymbols b lists).2 ∧
      (groupSymbols b lists).2.Stands (groupSymbols b lists).1 (grouped alternatives) := by
  have hgroup : b.Effect [(Synthetic.group alternatives).change] (syntheticRule b
        ("[GROUP " ++ " | ".intercalate (lists.map (describe b)) ++ "]") .group fun _ => lists).2 ∧
      (syntheticRule b ("[GROUP " ++ " | ".intercalate (lists.map (describe b)) ++ "]") .group
        fun _ => lists).2.Stands [(syntheticRule b
          ("[GROUP " ++ " | ".intercalate (lists.map (describe b)) ++ "]") .group fun _ => lists).1]
        [.rule (Synthetic.group alternatives).name] := by
    rw [map_describe_eq_display hs]
    exact effect_syntheticRule h (.group alternatives) .group fun b' id hg _ =>
      hs.imp fun _ _ hs' => hs'.mono hg
  match hs with
  | .nil => exact hgroup
  | .cons hs .nil => exact ⟨.refl h, hs⟩
  | .cons _ (.cons _ _) => exact hgroup

variable {r r' r'' : Reader} {kinds kinds' : List LexemeKind} {changes changes' : List Change}

/-- A reader goes on to another over lexemes, with changes to the table of its builder. -/
structure Reads (r : Reader) (kinds : List LexemeKind) (changes : List Change) (r' : Reader) :
    Prop where
  rest : r.rest.map Lexeme.kind = kinds ++ r'.rest.map Lexeme.kind
  effect : r.builder.Effect changes r'.builder

theorem Reads.refl (h : r.builder.Resolved) : Reads r [] [] r := ⟨rfl, .refl h⟩

theorem Reads.trans (h : Reads r kinds changes r') (h' : Reads r' kinds' changes' r'') :
    Reads r (kinds ++ kinds') (changes ++ changes') r'' :=
  ⟨by rw [h.rest, h'.rest, List.append_assoc], h.effect.trans h'.effect⟩

/-- The builder changes and no lexeme is read. -/
theorem Reads.build (h : Reads r kinds changes r') (hb : r'.builder.Effect changes' b) :
    Reads r kinds (changes ++ changes') { r' with builder := b } :=
  ⟨h.rest, h.effect.trans hb⟩

theorem Reads.length_eq (h : Reads r kinds changes r') : r.rest.length = kinds.length + r'.rest.length := by
  have := congrArg List.length h.rest
  simpa only [List.length_map, List.length_append] using this

theorem reads_skip (h : r.builder.Resolved) {kind : LexemeKind} (hk : r.peek.kind = kind)
    (hne : kind ≠ .stop) : Reads r [kind] [] r.skip := by
  refine ⟨?_, .refl h⟩
  obtain ⟨rest, stop, builder⟩ := r
  cases rest with
  | nil => exact absurd hk.symm hne
  | cons lexeme rest => simp [skip, ← hk, peek]

theorem ended_iff : r.peek.kind = .stop ↔ Ended (r.rest.map Lexeme.kind) := by
  rw [peek]
  cases r.rest with
  | nil => exact iff_of_true rfl .nil
  | cons lexeme rest =>
    rw [List.headD_cons, List.map_cons]
    constructor
    · intro h
      exact h ▸ .stop _
    · generalize lexeme.kind = kind
      rintro ⟨⟩
      rfl

/-! ## Expressions -/

theorem reads_annotateWith {id : TerminalId} {stop : Location} {rest : List Lexeme}
    (h : b.Resolved) (hr : annotateWith id b stop rest = .ok r') :
    ∃ marks : List Mark, Reads ⟨rest, stop, b⟩ (marks.map Mark.kind) [] r' := by
  induction rest generalizing b with
  | nil =>
    obtain rfl := Except.ok.inj hr
    exact ⟨[], .refl h⟩
  | cons lexeme rest ih =>
    -- an annotation goes to the literal, and the others follow
    have hmark : ∀ (mark : Mark) {precedence associativity result b'}, mark.kind = lexeme.kind →
        b.annotate id precedence associativity lexeme.place = (result, b') →
        annotateWith id b' stop rest = .ok r' →
        ∃ marks : List Mark, Reads ⟨lexeme :: rest, stop, b⟩ (marks.map Mark.kind) [] r' := by
      intro mark precedence associativity result b' hkind hb' hr
      have hannotate := h.effect_annotate id precedence associativity lexeme.place
      rw [hb'] at hannotate
      obtain ⟨marks, hmarks⟩ := ih hannotate.resolved hr
      refine ⟨mark :: marks, ?_, hannotate.trans hmarks.effect⟩
      rw [List.map_cons, List.map_cons, hkind, hmarks.rest]
      rfl
    obtain ⟨kind, place⟩ := lexeme
    cases kind with
    | precedence level =>
      rw [annotateWith] at hr
      split at hr
      · cases hr
      · exact hmark (.precedence level) rfl ‹_› hr
    | associativity side =>
      rw [annotateWith] at hr
      split at hr
      · cases hr
      · exact hmark (.associativity side) rfl ‹_› hr
    | _ =>
      obtain rfl := Except.ok.inj hr
      exact ⟨[], .refl h⟩

theorem reads_literal {text : String} {id : TerminalId} (h : r.builder.Resolved)
    (hr : r.literal text = .ok (id, r')) : ∃ marks : List Mark,
      Reads r (marks.map Mark.kind) [] r' ∧
        r'.builder.named? (.terminal id) = some (.terminal (.literal text)) := by
  obtain ⟨hterminal, hid⟩ := h.effect_internTerminal (.ofText text)
  simp only [literal, bind, Except.bind] at hr
  split at hr
  · cases hr
  · rename_i r'' hr''
    obtain ⟨rfl, rfl⟩ := Prod.mk.inj (Except.ok.inj hr)
    obtain ⟨marks, hmarks⟩ := reads_annotateWith hterminal.resolved hr''
    exact ⟨marks, ⟨hmarks.rest, hterminal.trans hmarks.effect⟩, hmarks.effect.grows _ _ hid⟩

/-- A literal stands for itself, the empty one for nothing. -/
theorem stands_literal {text : String} {id : TerminalId}
    (hid : b.named? (.terminal id) = some (.terminal (.literal text))) (marks : List Mark) :
    b.Stands (if b.isEpsilon id then [] else [.terminal id]) (Primary.literal text marks).symbols := by
  have hepsilon : b.isEpsilon id = decide (text = "") := by
    have := GrammarBuilder.isEpsilonSymbol_of_named? hid
    rw [GrammarBuilder.isEpsilonSymbol] at this
    simp [this, NamedSymbol.empty]
  by_cases htext : text = ""
  · simp [hepsilon, Primary.symbols, htext, GrammarBuilder.Stands]
  · simp only [hepsilon, Primary.symbols, htext, decide_false, Bool.false_eq_true, if_false]
    exact GrammarBuilder.stands_singleton hid (by simp [NamedSymbol.empty, htext])

theorem exists_modifier {kind : LexemeKind} {c : Char} (h : kind.modifier? = some c) :
    ∃ m : Modifier, kind = m.kind ∧ c = m.char := by
  cases kind with
  | question => exact ⟨.optional, rfl, (Option.some.inj h).symm⟩
  | plus => exact ⟨.plus, rfl, (Option.some.inj h).symm⟩
  | star => exact ⟨.star, rfl, (Option.some.inj h).symm⟩
  | _ => cases h

theorem reads_modifier {symbols' : List Symbol} (h : r.builder.Resolved)
    (hs : r.builder.Stands symbols alt) (hr : r.modifier symbols = .ok (symbols', r')) :
    ∃ m : Option Modifier, (alt = [] → m = none) ∧ Reads r (m.toList.map Modifier.kind)
        ((modifierSynthetics m alt).map Synthetic.change) r' ∧
      r'.builder.Stands symbols' (modified m alt) := by
  rw [modifier] at hr
  dsimp only at hr
  split at hr
  · obtain ⟨rfl, rfl⟩ := Prod.mk.inj (Except.ok.inj hr)
    exact ⟨none, fun _ => rfl, .refl h, hs⟩
  · rename_i c hc
    obtain ⟨m, hkind, rfl⟩ := exists_modifier hc
    split at hr
    · cases hr
    · split at hr
      · cases hr
      · rename_i hne
        obtain ⟨rfl, rfl⟩ := Prod.mk.inj (Except.ok.inj hr)
        obtain ⟨heffect, hstands⟩ := effect_modifiedSymbol h m hs
        have hskip := reads_skip h hkind (by cases m <;> exact fun he => by cases he)
        refine ⟨some m, ?_, hskip.build heffect, hstands⟩
        rintro rfl
        exact absurd (List.isEmpty_iff.2 (List.forall₂_nil_right_iff.1 hs)) hne

/-! ## Bodies

The four readers of a body call each other with less fuel. What each of them reads is said for a number of
calls (`ReadsChoice` and so on), one step lemma a reader, and for all numbers by induction
(`reads_of_fuel`). -/

/-- Alternatives are read as alternatives. -/
def ReadsChoice (fuel : Nat) : Prop :=
  ∀ {opened : Option Lexeme} {r r' : Reader} {lists : List (List Symbol)}, r.builder.Resolved →
    choice fuel opened r = .ok (lists, r') → ∃ c : Choice, c.Proper ∧
      Reads r c.kinds (c.synthetics.map Synthetic.change) r' ∧
        List.Forall₂ r'.builder.Stands lists c.alternatives

/-- An alternative is read as a sequence. -/
def ReadsSequence (fuel : Nat) : Prop :=
  ∀ {opened : Option Lexeme} {r r' : Reader} {symbols : List Symbol}, r.builder.Resolved →
    sequence fuel opened r = .ok (symbols, r') → ∃ s : Sequence, (s ≠ .nil ∧ s.Proper) ∧
      Reads r s.kinds (s.synthetics.map Synthetic.change) r' ∧ r'.builder.Stands symbols s.symbols

/-- Items are read as a sequence, which is empty only at an end. -/
def ReadsItems (fuel : Nat) : Prop :=
  ∀ {r r' : Reader} {symbols : List Symbol}, r.builder.Resolved →
    items fuel r = .ok (symbols, r') → ∃ s : Sequence, s.Proper ∧
      (s = .nil → r.atSequenceEnd ∨ r.peek.kind = .closeParen) ∧
      Reads r s.kinds (s.synthetics.map Synthetic.change) r' ∧ r'.builder.Stands symbols s.symbols

/-- An item is read as an expression with a modifier or none. -/
def ReadsItem (fuel : Nat) : Prop :=
  ∀ {r r' : Reader} {symbols : List Symbol}, r.builder.Resolved →
    item fuel r = .ok (symbols, r') → ∃ (p : Primary) (m : Option Modifier),
      (p.Proper ∧ (p.symbols = [] → m = none)) ∧
      Reads r (p.kinds ++ m.toList.map Modifier.kind)
        ((p.synthetics ++ modifierSynthetics m p.symbols).map Synthetic.change) r' ∧
      r'.builder.Stands symbols (modified m p.symbols)

variable {fuel : Nat}

theorem ReadsChoice.succ (hs : ReadsSequence fuel) (hc : ReadsChoice fuel) :
    ReadsChoice (fuel + 1) := by
  intro opened r r' lists h hr
  simp only [choice, bind, Except.bind] at hr
  split at hr
  · cases hr
  · rename_i first hfirst
    obtain ⟨symbols, r₁⟩ := first
    obtain ⟨s, hproper, hreads, hstands⟩ := hs h hfirst
    dsimp only at hr
    split at hr
    · rename_i hpipe
      split at hr
      · cases hr
      · rename_i more hmore
        obtain ⟨lists', r₂⟩ := more
        obtain ⟨rfl, rfl⟩ := Prod.mk.inj (Except.ok.inj hr)
        have hskip := reads_skip hreads.effect.resolved hpipe (by simp)
        obtain ⟨c, hproper', hreads', hstands'⟩ := hc hskip.effect.resolved hmore
        have hall := hreads.trans (hskip.trans hreads')
        refine ⟨.more s c, ⟨hproper, hproper'⟩, ⟨hall.rest, ?_⟩,
          .cons (hstands.mono (hskip.effect.trans hreads'.effect).grows) hstands'⟩
        rw [Choice.synthetics, List.map_append]
        exact hall.effect
    · obtain ⟨rfl, rfl⟩ := Prod.mk.inj (Except.ok.inj hr)
      exact ⟨.last s, hproper, hreads, .cons hstands .nil⟩

theorem ReadsSequence.succ (hi : ReadsItems fuel) : ReadsSequence (fuel + 1) := by
  intro opened r r' symbols h hr
  simp only [sequence, bind, Except.bind] at hr
  split at hr
  · cases hr
  · rename_i p hp
    obtain ⟨symbols', r₁⟩ := p
    dsimp only at hr
    split at hr
    · cases hr
    · split at hr
      · cases hr
      · rename_i hbegun
        obtain ⟨rfl, rfl⟩ := Prod.mk.inj (Except.ok.inj hr)
        obtain ⟨s, hproper, hnil, hreads⟩ := hi h hp
        exact ⟨s, ⟨mt hnil hbegun, hproper⟩, hreads⟩

theorem ReadsItems.succ (hi : ReadsItem fuel) (his : ReadsItems fuel) : ReadsItems (fuel + 1) := by
  intro r r' symbols h hr
  rw [items] at hr
  split at hr
  · rename_i hend
    obtain ⟨rfl, rfl⟩ := Prod.mk.inj (Except.ok.inj hr)
    exact ⟨.nil, trivial, fun _ => hend, .refl h, .nil⟩
  · simp only [bind, Except.bind] at hr
    split at hr
    · cases hr
    · rename_i p hp
      obtain ⟨symbols', r₁⟩ := p
      dsimp only at hr
      split at hr
      · cases hr
      · rename_i q hq
        obtain ⟨more, r₂⟩ := q
        obtain ⟨rfl, rfl⟩ := Prod.mk.inj (Except.ok.inj hr)
        obtain ⟨p, m, ⟨hproper, hmodifier⟩, hreads, hstands⟩ := hi h hp
        obtain ⟨s, hproper', -, hreads', hstands'⟩ := his hreads.effect.resolved hq
        have hall := hreads.trans hreads'
        refine ⟨.cons p m s, ⟨hproper, hmodifier, hproper'⟩, nofun, ⟨hall.rest, ?_⟩, (hstands.mono hreads'.effect.grows).append hstands'⟩
        rw [Sequence.synthetics, List.map_append]
        exact hall.effect

theorem ReadsItem.succ (hc : ReadsChoice fuel) : ReadsItem (fuel + 1) := by
  intro r r' symbols h hr
  -- what is left of the item after its expression is a modifier or nothing
  have hmodifier : ∀ {p : Primary} {symbols' : List Symbol} {r₁ : Reader}, p.Proper →
      Reads r p.kinds (p.synthetics.map Synthetic.change) r₁ → r₁.builder.Stands symbols' p.symbols →
      r₁.modifier symbols' = .ok (symbols, r') → ∃ (p : Primary) (m : Option Modifier),
        (p.Proper ∧ (p.symbols = [] → m = none)) ∧
        Reads r (p.kinds ++ m.toList.map Modifier.kind)
          ((p.synthetics ++ modifierSynthetics m p.symbols).map Synthetic.change) r' ∧
        r'.builder.Stands symbols (modified m p.symbols) := by
    intro p symbols' r₁ hproper hreads hstands hm
    obtain ⟨m, hne, hreads', hstands'⟩ := reads_modifier hreads.effect.resolved hstands hm
    refine ⟨p, m, ⟨hproper, hne⟩, ?_, hstands'⟩
    rw [List.map_append]
    exact hreads.trans hreads'
  have hskip : ∀ {kind}, r.peek.kind = kind → kind ≠ .stop → Reads r [kind] [] r.skip :=
    fun hk hne => reads_skip h hk hne
  rw [item] at hr
  cases hk : r.peek.kind with
  | reference name =>
    simp only [hk, bind, Except.bind, pure, Except.pure] at hr
    have hreads := hskip hk (by simp)
    obtain ⟨hmention, hid⟩ := hreads.effect.resolved.effect_mention name r.peek.place
    exact @hmodifier (.reference name) _ _ trivial (hreads.build hmention) (stands_rule hid) hr
  | literal text =>
    simp only [hk, bind, Except.bind, pure, Except.pure] at hr
    have hreads := hskip hk (by simp)
    split at hr
    · cases hr
    · rename_i p hp
      obtain ⟨marks, hmarks, hid⟩ := reads_literal hreads.effect.resolved hp
      exact @hmodifier (.literal text marks) _ _ trivial (hreads.trans hmarks) (stands_literal hid marks) hr
  | pattern text flags =>
    simp only [hk, bind, Except.bind, pure, Except.pure] at hr
    have hreads := hskip hk (by simp)
    obtain ⟨hterminal, hid⟩ := hreads.effect.resolved.effect_internTerminal (.pattern ⟨text, flags, none⟩)
    exact @hmodifier (.pattern text flags) _ _ trivial (hreads.build hterminal)
      (GrammarBuilder.stands_singleton hid (by simp [NamedSymbol.empty])) hr
  | openParen =>
    simp only [hk, bind, Except.bind, pure, Except.pure] at hr
    have hreads := hskip hk (by simp)
    split at hr
    · cases hr
    · rename_i p hp
      obtain ⟨lists, r₁⟩ := p
      obtain ⟨c, hproper, hbody, hstands⟩ := hc hreads.effect.resolved hp
      dsimp only at hr
      split at hr
      · rename_i hclose
        have hskip' := reads_skip hbody.effect.resolved hclose (by simp)
        obtain ⟨hgroup, hsymbols⟩ := effect_groupSymbols hbody.effect.resolved hstands
        refine @hmodifier (.group c) _ _ hproper ?_ hsymbols hr
        have hall := hreads.trans (hbody.trans (hskip'.build hgroup))
        rw [Primary.synthetics, List.map_append]
        exact hall
      · cases hr
  | _ => simp [hk, bind, Except.bind] at hr

/-- What the four readers of a body read. -/
theorem reads_of_fuel (fuel : Nat) :
    ReadsChoice fuel ∧ ReadsSequence fuel ∧ ReadsItems fuel ∧ ReadsItem fuel := by
  induction fuel with
  | zero =>
    refine ⟨fun _ hr => ?_, fun _ hr => ?_, fun _ hr => ?_, fun _ hr => ?_⟩
    · cases hr
    · cases hr
    · cases hr
    · cases hr
  | succ fuel ih =>
    obtain ⟨hchoice, hsequence, hitems, hitem⟩ := ih
    exact ⟨ReadsChoice.succ hsequence hchoice, ReadsSequence.succ hitems,
      ReadsItems.succ hitem hitems, ReadsItem.succ hchoice⟩

/-! ## Texts -/

/-- What a rule of a text does: its synthetic rules, then its alternatives. -/
def ruleChanges (rule : String × Choice) : List Change :=
  rule.2.synthetics.map Synthetic.change ++ [.define rule.1 rule.2.alternatives]

theorem reads_openRule (h : r.builder.Resolved) (name : String) :
    Reads r [] [] (openRule r name).2 ∧
      (openRule r name).2.builder.named? (.rule (openRule r name).1) = some (.rule name) := by
  obtain ⟨hrule, hid⟩ := h.effect_internRule name (GrammarBuilder.kindOfName name)
  rw [openRule]
  dsimp only
  split
  · rename_i hnone
    have hfirst := hrule.resolved.effect_setFirst hid hnone.2
    exact ⟨(Reads.refl h).build (hrule.trans hfirst), hfirst.grows _ _ hid⟩
  · exact ⟨(Reads.refl h).build hrule, hid⟩

theorem reads_rule (h : r.builder.Resolved) (hr : rule .ebnf r = .ok r') :
    ∃ (name : String) (body : Choice), (name ≠ startRuleName ∧ body.Proper) ∧
      Reads r (ruleKinds (name, body)) (ruleChanges (name, body)) r' := by
  rw [rule] at hr
  dsimp only at hr
  split at hr
  · rename_i name hname
    split at hr
    · cases hr
    · rename_i hstart
      have hskip := reads_skip h hname (by simp)
      obtain ⟨hopen, hid⟩ := reads_openRule hskip.effect.resolved name
      have hbefore := hskip.trans hopen
      split at hr
      · rename_i hdefine
        have hdefine := reads_skip hbefore.effect.resolved hdefine (by simp)
        simp only [bind, Except.bind] at hr
        split at hr
        · cases hr
        · rename_i p hp
          obtain ⟨lists, r₁⟩ := p
          obtain rfl := Except.ok.inj hr
          obtain ⟨c, hproper, hbody, hstands⟩ := (reads_of_fuel _).1 hdefine.effect.resolved hp
          have hadd := hbody.effect.resolved.effect_addAlternatives
            (hbody.effect.grows _ _ hid) hstands
          exact ⟨name, c, ⟨hstart, hproper⟩, hbefore.trans (hdefine.trans (hbody.build hadd))⟩
      · cases hr
  · cases hr

theorem reads_rules {fuel : Nat} (h : r.builder.Resolved) (hfuel : r.rest.length < fuel)
    (hr : rules .ebnf fuel r = .ok r') : ∃ written : List (String × Choice),
      (∀ rule ∈ written, rule.1 ≠ startRuleName ∧ rule.2.Proper) ∧ beforeEnd r.rest = written.flatMap ruleKinds ∧
      Reads r (written.flatMap ruleKinds) (written.flatMap ruleChanges) r' := by
  suffices hwritten : ∃ written : List (String × Choice),
      (∀ rule ∈ written, rule.1 ≠ startRuleName ∧ rule.2.Proper) ∧ Ended (r'.rest.map Lexeme.kind) ∧
      Reads r (written.flatMap ruleKinds) (written.flatMap ruleChanges) r' by
    obtain ⟨written, hnames, hended, hreads⟩ := hwritten
    exact ⟨written, hnames, beforeEnd_eq_rules hreads.rest hended, hreads⟩
  induction fuel generalizing r with
  | zero => exact absurd hfuel (Nat.not_lt_zero _)
  | succ fuel ih =>
    rw [rules] at hr
    split at hr
    · rename_i hstop
      obtain rfl := Except.ok.inj hr
      exact ⟨[], fun _ hm => (List.not_mem_nil hm).elim, ended_iff.1 hstop, .refl h⟩
    · simp only [bind, Except.bind] at hr
      split at hr
      · cases hr
      · rename_i r₁ hr₁
        obtain ⟨name, body, hname, hreads⟩ := reads_rule h hr₁
        have hless : r₁.rest.length < fuel := by
          have := hreads.length_eq
          rw [ruleKinds, List.length_cons] at this
          omega
        obtain ⟨written, hnames, hended, hreads'⟩ := ih hreads.effect.resolved hless hr
        exact ⟨(name, body) :: written, List.forall_mem_cons.2 ⟨hname, hnames⟩, hended,
          hreads.trans hreads'⟩

end Reader

end Notation

/-- In a text the end comes last. -/
theorem Notation.beforeEnd_of_lexemes {text : String} {ls : List Lexeme} {stop : Location}
    (h : lexemes text = .ok (ls, stop)) : beforeEnd ls = ls.map Lexeme.kind :=
  beforeEnd_eq_map (ne_stop_of_lexemes h)

/-! ## Grammars -/

open Notation

namespace GrammarBuilder

/-- Declared classes: the first pattern of each name. -/
theorem resolved_declareClasses (classes : List (String × String)) {b : GrammarBuilder}
    (h : b.Resolved) :
    (classes.foldl (fun b (name, pattern) => b.declareClass name pattern) b).Resolved ∧
      (classes.foldl (fun b (name, pattern) => b.declareClass name pattern) b).listing = b.listing := by
  induction classes generalizing b with
  | nil => exact ⟨h, rfl⟩
  | cons c classes ih =>
    obtain ⟨hc, hlisting⟩ := h.declareClass c.1 c.2
    obtain ⟨hrest, hlisting'⟩ := ih hc
    exact ⟨hrest, hlisting'.trans hlisting⟩

end GrammarBuilder

/-- The token classes that a list declares: of those with one name, the first. -/
def Notation.declared (classes : List (String × String)) : List (String × String) :=
  (classes.foldl (fun b (name, pattern) => b.declareClass name pattern)
    GrammarBuilder.new).tokenClasses.toList

namespace Grammar

variable {text : String} {classes : List (String × String)} {g : Grammar}

/-- A text that is read as a grammar is made of rules, and the listing of the grammar is what these put
into it. -/
theorem listing_of_ebnf (h : ofText .ebnf text classes = .ok g) : ∃ rules, Written text rules ∧
    (∀ rule ∈ rules, rule.1 ≠ startRuleName) ∧ g.Resolved ∧
    g.listing = Change.amendAll (fun _ => []) (rules.flatMap Reader.ruleChanges ++
      GrammarBuilder.finishing (declared classes) (g.rule g.first).name) := by
  obtain ⟨hresolved, hlisting⟩ := GrammarBuilder.resolved_declareClasses classes
    GrammarBuilder.resolved_new
  simp only [ofText, read, bind, Except.bind] at h
  split at h
  · cases h
  · rename_i p hlexemes
    obtain ⟨ls, stop⟩ := p
    dsimp only at h
    split at h
    · cases h
    · rename_i r hr
      obtain ⟨rules, hnames, hkinds, hreads⟩ := Reader.reads_rules hresolved (Nat.lt_succ_self _) hr
      obtain ⟨hg, hglisting⟩ := listing_of_build hreads.effect.resolved h
      refine ⟨rules, ⟨ls, stop, hlexemes, ?_⟩, fun rule hrule => (hnames rule hrule).1, hg, ?_⟩
      · rw [← beforeEnd_of_lexemes hlexemes, hkinds]
      · rw [hglisting, hreads.effect.listing, hreads.effect.classes, hlisting,
          GrammarBuilder.listing_new, ← Change.amendAll_append]
        rfl

/-- The table that the rules of a text put into the grammar. -/
theorem table_of_ebnf (h : ofText .ebnf text classes = .ok g) : ∃ rules, Written text rules ∧
    (∀ rule ∈ rules, rule.1 ≠ startRuleName) ∧ g.Resolved ∧
    g.table = Change.applyAll ∅ (rules.flatMap Reader.ruleChanges ++
      GrammarBuilder.finishing (declared classes) (g.rule g.first).name) := by
  obtain ⟨rules, hwritten, hnames, hg, hlisting⟩ := listing_of_ebnf h
  refine ⟨rules, hwritten, hnames, hg, ?_⟩
  rw [hg.table_eq, hlisting, Change.table_amendAll]
  congr 1
  exact Set.eq_empty_iff_forall_notMem.2 fun p hp => List.not_mem_nil hp

end Grammar

end ParseForest
