import ParseForest.Proofs.Notation.Rereading
import ParseForest.Proofs.Notation.Sharing

/-!
# Printing and reading back

A grammar that has been read from a text of BNF is printed as a text of BNF that is read as the same grammar, by
names: the same rules with the same right-hand sides in the same order, and the same first rule
(`Grammar.ofText_toBnf`). The text must define no rule under the name of a token class, since such rules are not
printed; and patterns with a slash, and literals with characters that are quoted by a number, are shown in a form
that the reader takes for something else (`Atom.Plain`).

The two readings meet at the rules that are printed: they have the names and right-hand sides that the first text
has put into its builder (`leaves_of_text`, `Leaves.printable`), and the second text puts the same ones into another
(`Leaves.listing_of_defines`).
-/

namespace ParseForest

/-!
## What a text of BNF leaves in the builder

After a text of BNF the builder has the rules and terminals that stand in the text, after `#S` and `Token-EOF`, and
the rule that is opened first is the first rule (`Leaves`). If no rule is defined under the name of a token class,
these are the rules that the finished grammar prints (`Leaves.mem_printed_iff`), and finishing leaves their
right-hand sides as they are.
-/

open Notation

namespace GrammarBuilder

/-- Names that do not begin as those of token classes are the names of normal rules. -/
theorem kindOfName_eq_normal_iff {name : String} :
    kindOfName name = .normal ↔ ∀ className, name ≠ tokenRuleName className := by
  rw [kindOfName]
  split
  · rename_i hprefix
    obtain ⟨rest, hrest⟩ := List.isPrefixOf_iff_prefix.1 hprefix
    have hname : name = tokenRuleName (String.ofList rest) :=
      String.toList_inj.1 (by simp [tokenRuleName, hrest])
    exact iff_of_false (by simp) fun h => h _ hname
  · rename_i hprefix
    refine iff_of_true rfl fun className he => hprefix ?_
    rw [he, tokenRuleName, String.toList_append]
    exact List.isPrefixOf_iff_prefix.2 (List.prefix_append _ _)

theorem kindOfName_eq_or (name : String) : kindOfName name = .normal ∨ kindOfName name = .tokenClass := by
  rw [kindOfName]
  split
  · exact .inr rfl
  · exact .inl rfl

/-- The builder that has only these token classes. -/
def declaring (classes : List (String × String)) : GrammarBuilder :=
  classes.foldl (fun b (name, pattern) => b.declareClass name pattern) .new

theorem declaring_eq (classes : List (String × String)) :
    ∃ tokenClasses, declaring classes = { GrammarBuilder.new with tokenClasses } := by
  have hfold : ∀ b : GrammarBuilder, ∃ tokenClasses,
      classes.foldl (fun b (name, pattern) => b.declareClass name pattern) b = { b with tokenClasses } := by
    induction classes with
    | nil => exact fun b => ⟨_, rfl⟩
    | cons c classes ih =>
      intro b
      obtain ⟨tokenClasses, hrest⟩ := ih (b.declareClass c.1 c.2)
      refine ⟨tokenClasses, hrest.trans ?_⟩
      rw [declareClass]
      split <;> rfl
  exact hfold .new

theorem resolved_declaring (classes : List (String × String)) :
    (declaring classes).Resolved ∧ (declaring classes).listing = fun _ => [] := by
  obtain ⟨hresolved, hlisting⟩ := resolved_declareClasses classes resolved_new
  exact ⟨hresolved, hlisting.trans listing_new⟩

end GrammarBuilder

open GrammarBuilder

/-- A text is read as a grammar when its lexemes are read as rules and the builder answers the grammar. -/
theorem Grammar.ofText_bnf_iff {text : String} {classes : List (String × String)} {g : Grammar} :
    ofText .bnf text classes = .ok g ↔ ∃ ls stop r, lexemes text = .ok (ls, stop) ∧
      Reader.rules .bnf (ls.length + 1) ⟨ls, stop, declaring classes⟩ = .ok r ∧ r.builder.build = .ok g := by
  simp only [ofText, read, bind, Except.bind, declaring]
  constructor
  · intro h
    split at h
    · cases h
    · rename_i p hp
      split at h
      · cases h
      · rename_i r hr
        exact ⟨p.1, p.2, r, hp, hr, h⟩
  · rintro ⟨ls, stop, r, hls, hr, h⟩
    simp only [hls, hr]
    exact h

namespace Notation

/-- What a text of BNF with these lexemes leaves in the builder, where `name` is the name of its first rule. -/
structure Leaves (kinds : List LexemeKind) (name : String) (b : GrammarBuilder) : Prop where
  resolved : b.Resolved
  first : b.first = some 2
  heads : ∃ added, b.heads = GrammarBuilder.new.heads ++ (name, .normal) :: added ∧
    ∀ x ∈ (name, .normal) :: added, .reference x.1 ∈ kinds ∧ x.2 = kindOfName x.1
  atoms : ∀ a ∈ b.atoms, a.StandsIn kinds

section Reading

variable {kinds : List LexemeKind} {classes : List (String × String)} {name : String} {r r' : Reader} {fuel : Nat}

/-- Of a builder that only has token classes, the rule that is opened is the first rule. -/
theorem openRule_declaring (hr : r.builder = declaring classes) (hname : name ≠ startRuleName)
    (hkind : kindOfName name = .normal) : (Reader.openRule r name).2.builder.first = some 2 ∧
      (Reader.openRule r name).2.builder.heads = GrammarBuilder.new.heads ++ [(name, .normal)] := by
  obtain ⟨tokenClasses, hdeclaring⟩ := declaring_eq classes
  have heof : name ≠ tokenRuleName eofClass := kindOfName_eq_normal_iff.1 hkind eofClass
  have hnone : GrammarBuilder.new.drafts.findIdx? (·.rule.name == name) = none := by
    rw [Array.findIdx?_eq_none_iff]
    simp [GrammarBuilder.new, Rule.named, Ne.symm hname, Ne.symm heof]
  have hintern : r.builder.internRule name .normal = (2, { GrammarBuilder.new with
      tokenClasses, drafts := GrammarBuilder.new.drafts.push ⟨.named name .normal, none⟩ }) := by
    rw [hr, hdeclaring, GrammarBuilder.internRule, hnone]
    rfl
  rw [Reader.openRule]
  simp only [hkind, hintern]
  exact ⟨rfl, rfl⟩

/-- The first rule of the text is the first rule. -/
theorem leaves_of_rules {ls : List Lexeme} {stop : Location} {rest : List LexemeKind}
    (hls : ls.map Lexeme.kind = .reference name :: rest) (hkind : kindOfName name = .normal)
    (h : Reader.rules .bnf (fuel + 1) ⟨ls, stop, declaring classes⟩ = .ok r) (hresolved : r.builder.Resolved) :
    Leaves (ls.map Lexeme.kind) name r.builder := by
  have hpeek' : (Reader.peek ⟨ls, stop, declaring classes⟩).kind = .reference name := Reader.peek_kind_of_rest hls
  rcases Reader.rules_succ h with ⟨hstop, -⟩ | ⟨-, r₁, hr₁, hrest⟩
  · cases hstop.symm.trans hpeek'
  obtain ⟨name', hpeek, hopen, hbody⟩ := Reader.runs_rule (List.Subset.refl _) hr₁
  obtain rfl := LexemeKind.reference.inj (hpeek.symm.trans hpeek')
  have hstart : name' ≠ startRuleName := by
    obtain ⟨name, -, -, -, -, hname, hstart, -⟩ := Reader.exists_of_rule_bnf hr₁
    obtain rfl := LexemeKind.reference.inj (hpeek.symm.trans hname)
    exact hstart
  have hcalls := (hbody.trans (Reader.runs_rules (List.Subset.trans (hopen.trans hbody).rest (List.Subset.refl _))
    hrest)).calls
  obtain ⟨hfirst, hheads⟩ := openRule_declaring (r := Reader.skip ⟨ls, stop, declaring classes⟩) rfl hstart hkind
  obtain ⟨added, hadded, hall⟩ := hcalls.heads
  obtain ⟨atoms, hatoms, hstands⟩ := Calls.atoms (hopen.calls.trans hcalls)
  refine ⟨hresolved, hcalls.first hfirst, ⟨added, by rw [hadded, hheads, List.append_assoc]; rfl, ?_⟩, ?_⟩
  · exact List.forall_mem_cons.2 ⟨⟨by rw [hls]; exact .head _, hkind.symm⟩, hall⟩
  · obtain ⟨tokenClasses, hdeclaring⟩ := declaring_eq classes
    have hnone : (declaring classes).atoms = [] := by
      rw [hdeclaring]
      rfl
    rw [hatoms, hnone]
    exact hstands

end Reading

/-! ## The grammar that is built -/

namespace Leaves

variable {kinds : List LexemeKind} {name n : String} {b : GrammarBuilder} {g : Grammar}
  {rule : String × List (List NamedSymbol)} (h : Leaves kinds name b)
include h

/-- A rule is `#S`, that of the end of input, or one that stands in the text. -/
theorem mem_heads {x : String × RuleKind} (hx : x ∈ b.heads) : x = (startRuleName, .start) ∨
    x = (tokenRuleName eofClass, .tokenClass) ∨ (.reference x.1 ∈ kinds ∧ x.2 = kindOfName x.1) := by
  obtain ⟨added, hadded, hall⟩ := h.heads
  rw [hadded, List.mem_append] at hx
  rcases hx with hx | hx
  · have hnew : GrammarBuilder.new.heads =
        [(startRuleName, .start), (tokenRuleName eofClass, .tokenClass)] := rfl
    rw [hnew, List.mem_cons, List.mem_singleton] at hx
    exact hx.imp_right .inl
  · exact .inr (.inr (hall x hx))

theorem named_first : b.named? (.rule 2) = some (.rule name) := by
  obtain ⟨added, hadded, -⟩ := h.heads
  have hget : b.heads[2]? = some (name, .normal) := by
    rw [hadded]
    rfl
  rw [GrammarBuilder.heads, List.getElem?_map, Array.getElem?_toList] at hget
  obtain ⟨d, hd, he⟩ := Option.map_eq_some_iff.1 hget
  exact named?_rule_iff.2 ⟨d, hd, (Prod.mk.inj he).1⟩

/-- A normal rule stands in the text under its name. -/
theorem reference_mem (hn : (n, .normal) ∈ b.heads) : .reference n ∈ kinds ∧ kindOfName n = .normal := by
  rcases h.mem_heads hn with he | he | ⟨hmem, he⟩
  · cases (Prod.mk.inj he).2
  · cases (Prod.mk.inj he).2
  · exact ⟨hmem, he.symm⟩

variable (hb : b.build = .ok g)
include hb

theorem heads_of_build : ∃ added, g.heads =
    (startRuleName, .start) :: (tokenRuleName eofClass, .tokenClass) :: (name, .normal) :: added := by
  obtain ⟨added, hadded, -⟩ := h.heads
  obtain ⟨more, hmore, -⟩ := Grammar.heads_of_build hb
  exact ⟨added ++ more, by rw [hmore, hadded]; rfl⟩

theorem resolved_of_build : g.Resolved := (Grammar.listing_of_build h.resolved hb).1

theorem name_first : (g.rule g.first).name = name := by
  obtain ⟨added, hadded⟩ := h.heads_of_build hb
  have hfirst : g.first = 2 := Option.some.inj ((Grammar.first_of_build hb).2.symm.trans h.first)
  have hmem := Grammar.getElem?_heads_iff.1 (show g.heads[2]? = some (name, .normal) by rw [hadded]; rfl)
  rw [hfirst]
  exact (Prod.mk.inj hmem.2).1

/-- Every rule that is mentioned has right-hand sides. -/
theorem listing_ne_nil (hname : ∃ id < g.rules.size, (g.rule id).name = n) : g.listing n ≠ [] := by
  have hg := h.resolved_of_build hb
  obtain ⟨id, hid⟩ := hname
  exact (hg.isSome_ruleNamed?_iff (Grammar.alternatives_ne_of_build hb)).1
    (Option.isSome_iff_exists.2 ⟨id, hg.ruleNamed?_eq_some_iff.2 hid⟩)

/-- The rule `#S` comes first. -/
theorem name_zero : 0 < g.rules.size ∧ (g.rule 0).name = startRuleName ∧ (g.rule 0).kind = .start := by
  obtain ⟨added, hadded⟩ := h.heads_of_build hb
  obtain ⟨hzero, hrule⟩ := Grammar.getElem?_heads_iff.1 (show g.heads[0]? = _ by rw [hadded]; rfl)
  exact ⟨hzero, Prod.mk.inj hrule⟩

/-- A normal rule is not `#S`, also once the grammar is built. -/
theorem exists_of_mem_heads_normal (hn : (n, .normal) ∈ b.heads) :
    ∃ id < g.rules.size, id ≠ 0 ∧ (g.rule id).name = n ∧ (g.rule id).kind = .normal := by
  obtain ⟨id, hid, he⟩ := Grammar.mem_heads_iff.1 (Grammar.heads_subset_of_build hb hn)
  obtain ⟨hname, hkind⟩ := Prod.mk.inj he
  refine ⟨id, hid, ?_, hname, hkind⟩
  rintro rfl
  cases hkind.symm.trans (h.name_zero hb).2.2

theorem ne_startRuleName (hn : (n, .normal) ∈ b.heads) : n ≠ startRuleName := by
  obtain ⟨id, hid, hne, rfl, -⟩ := h.exists_of_mem_heads_normal hb hn
  obtain ⟨hzero, hname, -⟩ := h.name_zero hb
  exact fun he => hne ((h.resolved_of_build hb).name_inj hid hzero (he.trans hname.symm))

/-- The rules that stand in the text are those that are printed, apart from the rules of token classes. -/
theorem mem_printed_iff : rule ∈ g.printed ↔ (rule.1, .normal) ∈ b.heads ∧ rule.2 = g.listing rule.1 := by
  obtain ⟨more, hmore, hall⟩ := Grammar.heads_of_build hb
  have hg := h.resolved_of_build hb
  have hstart : g.start = 0 := (Grammar.first_of_build hb).1
  obtain ⟨hzero, hname, -⟩ := h.name_zero hb
  rw [Grammar.mem_printed_iff, hstart]
  constructor
  · rintro ⟨id, hid, hne, hprinted, rfl⟩
    refine ⟨?_, (hg.listing_eq hid).symm⟩
    have hmem : ((g.rule id).name, (g.rule id).kind) ∈ g.heads := Grammar.mem_heads_iff.2 ⟨id, hid, rfl⟩
    rw [hmore] at hmem
    rcases List.mem_append.1 hmem with hmem | hmem
    · have hnormal : (g.rule id).kind = .normal := by
        rcases h.mem_heads hmem with he | he | ⟨-, he⟩
        · exact absurd (hg.name_inj hid hzero ((Prod.mk.inj he).1.trans hname.symm)) hne
        · exact absurd (Prod.mk.inj he).2 hprinted
        · exact he.trans ((kindOfName_eq_or _).resolve_right fun htoken => hprinted (he.trans htoken))
      exact hnormal ▸ hmem
    · obtain ⟨c, -, he⟩ := hall _ hmem
      exact absurd (Prod.mk.inj he).2 hprinted
  · rintro ⟨hmem, hsides⟩
    obtain ⟨id, hid, hne, hn, hkind⟩ := h.exists_of_mem_heads_normal hb hmem
    exact ⟨id, hid, hne, by simp [hkind], Prod.ext hn.symm (by rw [hsides, ← hn, hg.listing_eq hid])⟩

theorem printed_eq_cons : ∃ rest, g.printed = (name, g.sides 2) :: rest := by
  obtain ⟨added, hadded⟩ := h.heads_of_build hb
  have hstart : g.start = 0 := (Grammar.first_of_build hb).1
  rw [Grammar.heads] at hadded
  obtain ⟨r₀, l₀, hl₀, -, hadded⟩ := List.map_eq_cons_iff.1 hadded
  obtain ⟨r₁, l₁, rfl, hr₁, hadded⟩ := List.map_eq_cons_iff.1 hadded
  obtain ⟨r₂, l₂, rfl, hr₂, -⟩ := List.map_eq_cons_iff.1 hadded
  obtain ⟨-, hk₁⟩ := Prod.mk.inj hr₁
  obtain ⟨hn₂, hk₂⟩ := Prod.mk.inj hr₂
  simp [Grammar.printed, hl₀, hstart, hk₁, hn₂, hk₂]

/-- Finishing leaves the right-hand sides of normal rules as they are. -/
theorem listing_eq (hstart : n ≠ startRuleName) (hkind : kindOfName n = .normal) : g.listing n = b.listing n := by
  rw [(Grammar.listing_of_build h.resolved hb).2]
  refine Change.amendAll_of_ne fun c hc he => ?_
  rcases (GrammarBuilder.of_mem_finishing hc).2 with hname | ⟨className, hname⟩
  · exact hstart (he.symm.trans hname)
  · exact kindOfName_eq_normal_iff.1 hkind className (he.symm.trans hname)

end Leaves

end Notation

/-! ## Printing and reading back -/

/-- Terminals that are shown in a form that is read as the terminal. Token classes are not shown. -/
def Atom.Plain : Atom → Prop
  | .literal text => ∀ c ∈ text.toList, Quoted.Plain c
  | .pattern p => p.className = none → '/' ∉ p.pattern.toList

instance : DecidablePred Atom.Plain
  | .literal text => List.decidableBAll Quoted.Plain text.toList
  | .pattern p => inferInstanceAs (Decidable (p.className = none → '/' ∉ p.pattern.toList))

namespace Notation

/-- The text defines a rule of this name. -/
def Defines (text name : String) : Prop :=
  ∃ ls stop, lexemes text = .ok (ls, stop) ∧ [.reference name, .define] <:+: ls.map Lexeme.kind

variable {text : String} {classes : List (String × String)} {g : Grammar} {kinds : List LexemeKind}
  {name n : String} {b : GrammarBuilder}

/-! ## The text that is read first -/

/-- Apart from the names of rules that are written, only synthetic rules have right-hand sides. -/
theorem normal_of_ruleChanges {rules : List (String × Choice)}
    (hrules : ∀ rule ∈ rules, rule.1 ≠ startRuleName ∧ kindOfName rule.1 = .normal)
    (hn : Change.amendAll (fun _ => []) (rules.flatMap Reader.ruleChanges) n ≠ []) :
    n ≠ startRuleName ∧ kindOfName n = .normal := by
  by_contra hnot
  refine hn (Change.amendAll_of_ne fun c hc he => hnot (he ▸ ?_))
  obtain ⟨rule, hrule, hc⟩ := List.mem_flatMap.1 hc
  rcases List.mem_append.1 hc with hc | hc
  · obtain ⟨o, -, rfl⟩ := List.mem_map.1 hc
    exact ⟨o.name_ne_startRuleName, kindOfName_eq_normal_iff.2 o.name_ne_tokenRuleName⟩
  · obtain rfl := List.mem_singleton.1 hc
    exact hrules rule hrule

/-- What is known of a text of BNF that is read as a grammar. -/
theorem leaves_of_text (h : Grammar.ofText .bnf text classes = .ok g)
    (htoken : ∀ className, ¬ Defines text (tokenRuleName className)) : ∃ ls stop name b,
      lexemes text = .ok (ls, stop) ∧ Leaves (ls.map Lexeme.kind) name b ∧ b.build = .ok g ∧
      b.tokenClasses.toList = declared classes ∧
      ∀ n, b.listing n ≠ [] → n ≠ startRuleName ∧ kindOfName n = .normal := by
  obtain ⟨ls, stop, r, hls, hr, hbuild⟩ := Grammar.ofText_bnf_iff.1 h
  obtain ⟨hresolved, hlisting⟩ := resolved_declaring classes
  obtain ⟨rules, hnames, hbefore, hreads⟩ := Reader.reads_rules hresolved (Nat.lt_succ_self _)
    (Reader.rules_ebnf_of_bnf _ hresolved hr)
  have hkinds : ls.map Lexeme.kind = rules.flatMap ruleKinds := (beforeEnd_of_lexemes hls).symm.trans hbefore
  have hnormal : ∀ rule ∈ rules, rule.1 ≠ startRuleName ∧ kindOfName rule.1 = .normal := by
    refine fun rule hrule => ⟨(hnames rule hrule).1, kindOfName_eq_normal_iff.2 fun className he => ?_⟩
    refine htoken className ⟨ls, stop, hls, ?_⟩
    obtain ⟨before, after, rfl⟩ := List.append_of_mem hrule
    exact ⟨before.flatMap ruleKinds, rule.2.kinds ++ after.flatMap ruleKinds, by simp [hkinds, ruleKinds, he]⟩
  cases rules with
  | nil =>
    -- no rule has been opened, so no rule is the first one
    obtain rfl : ls = [] := List.map_eq_nil_iff.1 hkinds
    rcases Reader.rules_succ hr with ⟨-, rfl⟩ | ⟨hne, -⟩
    · obtain ⟨tokenClasses, hdeclaring⟩ := declaring_eq classes
      have hfirst := (Grammar.first_of_build hbuild).2
      rw [hdeclaring] at hfirst
      cases hfirst
    · exact absurd rfl hne
  | cons rule rules =>
    have hleaves := leaves_of_rules hkinds (hnormal rule (.head _)).2 hr hreads.effect.resolved
    refine ⟨ls, stop, _, _, hls, hleaves, hbuild, hreads.effect.classes.symm ▸ rfl, fun n hn => ?_⟩
    rw [hreads.effect.listing, hlisting] at hn
    exact normal_of_ruleChanges hnormal hn

/-! ## The rules that are printed -/

theorem nameable_startRuleName : Nameable startRuleName :=
  ⟨by decide, by decide +kernel, by simp [startRuleName]⟩

theorem nameable_eofRuleName : Nameable (tokenRuleName eofClass) :=
  ⟨by decide, by decide +kernel, by simp [tokenRuleName, tokenRulePrefix, eofClass]⟩

theorem exists_terminal_of_build (hb : b.build = .ok g) {a : Atom} (ha : a ∈ b.atoms) :
    ∃ t ∈ g.terminals, t.atom = a := by
  obtain ⟨first, -, hg, -⟩ := exists_of_build hb
  obtain ⟨t, ht, rfl⟩ := List.mem_map.1 ha
  have hstays := (b.terminals_internTerminal _).trans (b.terminals_complete first).2
  rw [hg]
  exact ⟨t, Array.mem_toList_iff.1 (hstays.subset ht), rfl⟩

namespace Leaves

variable (h : Leaves kinds name b)
include h

/-- What the builder knows can be printed if its terminals are plain. -/
theorem printable_of_named (hkinds : ∀ kind ∈ kinds, kind.Writable) (hplain : ∀ a ∈ b.atoms, a.Plain)
    {s : Symbol} {x : NamedSymbol} (hs : b.named? s = some x) : Printable x := by
  cases s with
  | rule id =>
    obtain ⟨d, hd, rfl⟩ := Option.map_eq_some_iff.1 hs
    rcases h.mem_heads (mem_heads_of_draft (Array.mem_of_getElem? hd)) with he | he | ⟨hreference, -⟩
    · exact .rule ((Prod.mk.inj he).1 ▸ nameable_startRuleName)
    · exact .rule ((Prod.mk.inj he).1 ▸ nameable_eofRuleName)
    · exact .rule (hkinds _ hreference)
  | terminal id =>
    obtain ⟨t, ht, rfl⟩ := Option.map_eq_some_iff.1 hs
    have hmem : t.atom ∈ b.atoms := List.mem_map_of_mem (Array.mem_toList_iff.2 (Array.mem_of_getElem? ht))
    have hstands := h.atoms _ hmem
    have hplain := hplain _ hmem
    generalize t.atom = a at hstands hplain
    cases a with
    | literal text => exact .literal hplain
    | pattern p =>
      obtain ⟨text, flags, className⟩ := p
      obtain ⟨rfl, hpattern⟩ := hstands
      exact .pattern (hkinds _ hpattern) (hplain rfl)

variable (hb : b.build = .ok g)
include hb

/-- The rules that are printed can be read. -/
theorem printable (hkinds : ∀ kind ∈ kinds, kind.Writable) (hplain : ∀ t ∈ g.terminals, t.atom.Plain) :
    ∀ rule ∈ g.printed, Reader.PrintableRule rule := by
  intro rule hrule
  obtain ⟨hmem, hsides⟩ := (h.mem_printed_iff hb).1 hrule
  obtain ⟨hreference, hkind⟩ := h.reference_mem hmem
  have hstart := h.ne_startRuleName hb hmem
  have hatoms : ∀ a ∈ b.atoms, a.Plain := fun a ha => by
    obtain ⟨t, ht, rfl⟩ := exists_terminal_of_build hb ha
    exact hplain t ht
  refine ⟨hkinds _ hreference, hstart, ?_, fun alt halt => ?_⟩
  · obtain ⟨id, hid, -, -, rfl⟩ := Grammar.mem_printed_iff.1 hrule
    rw [hsides]
    exact h.listing_ne_nil hb ⟨id, hid, rfl⟩
  · rw [hsides, h.listing_eq hb hstart hkind] at halt
    have hnamed := h.resolved.named_of_mem_listing halt
    refine ⟨fun hempty => (hnamed _ hempty).1 rfl, fun x hx => ?_⟩
    obtain ⟨s, hs⟩ := (hnamed x hx).2
    exact h.printable_of_named hkinds hatoms hs

/-- The rules that are printed put the same right-hand sides into a listing that the text has put there. -/
theorem listing_of_defines (hnormal : ∀ n, b.listing n ≠ [] → n ≠ startRuleName ∧ kindOfName n = .normal) :
    Change.amendAll (fun _ => []) (g.printed.map fun rule => .define rule.1 rule.2) = b.listing := by
  funext n
  by_cases hn : (n, .normal) ∈ b.heads
  · have hlisting := h.listing_eq hb (h.ne_startRuleName hb hn) (h.reference_mem hn).2
    rw [← hlisting]
    refine Change.amendAll_define (h.resolved_of_build hb).nodup_printed (fun rule hrule => ?_) (fun _ _ => rfl)
      (n, g.listing n) ((h.mem_printed_iff hb).2 ⟨hn, rfl⟩)
    obtain ⟨hmem, hsides⟩ := (h.mem_printed_iff hb).1 hrule
    rw [hsides, h.listing_eq hb (h.ne_startRuleName hb hmem) (h.reference_mem hmem).2]
    exact h.resolved.nodup_listing _
  · have hnil : b.listing n = [] := by
      by_contra hne
      obtain ⟨hstart, hkind⟩ := hnormal n hne
      obtain ⟨id, d, hd, rfl⟩ := exists_of_listing_ne_nil hne
      have hmem := mem_heads_of_draft (Array.mem_of_getElem? hd)
      rcases h.mem_heads hmem with he | he | ⟨-, he⟩
      · exact hstart (Prod.mk.inj he).1
      · exact kindOfName_eq_normal_iff.1 hkind eofClass (Prod.mk.inj he).1
      · exact hn ((he.trans hkind : d.rule.kind = .normal) ▸ hmem)
    rw [hnil]
    refine Change.amendAll_of_ne fun c hc he => hn ?_
    obtain ⟨rule, hrule, rfl⟩ := List.mem_map.1 hc
    obtain rfl : rule.1 = n := he
    exact ((h.mem_printed_iff hb).1 hrule).1

/-- After the rules that are printed, a builder has no rules that the grammar does not have. -/
theorem exists_of_mem_heads {b' : GrammarBuilder} (h' : Leaves (g.printed.flatMap bnfKinds) name b')
    {x : String × RuleKind} (hx : x ∈ b'.heads) : ∃ id < g.rules.size, (g.rule id).name = x.1 := by
  have hnamed : x ∈ g.heads → ∃ id < g.rules.size, (g.rule id).name = x.1 := by
    intro hmem
    obtain ⟨id, hid, he⟩ := Grammar.mem_heads_iff.1 hmem
    exact ⟨id, hid, congrArg Prod.fst he⟩
  obtain ⟨added, hadded⟩ := h.heads_of_build hb
  rcases h'.mem_heads hx with rfl | rfl | ⟨hreference, -⟩
  · exact hnamed (hadded ▸ .head _)
  · exact hnamed (hadded ▸ .tail _ (.head _))
  · exact (h.resolved_of_build hb).exists_of_reference_mem hreference

end Leaves

end Notation

namespace Grammar

variable {text : String} {classes : List (String × String)} {g : Grammar}

/-- A grammar that has been read from a text of BNF is printed as a text that is read as the same grammar: with the
same rules, which have the same right-hand sides in the same order, and with the same first rule. -/
theorem ofText_toBnf (h : ofText .bnf text classes = .ok g)
    (htoken : ∀ className, ¬ Defines text (tokenRuleName className))
    (hplain : ∀ t ∈ g.terminals, t.atom.Plain) : ∃ g', ofText .bnf g.toBnf classes = .ok g' ∧
      g'.listing = g.listing ∧ (∀ name, (g'.ruleNamed? name).isSome = (g.ruleNamed? name).isSome) ∧
      (g'.rule g'.first).name = (g.rule g.first).name := by
  obtain ⟨ls, stop, name, b, hls, hleaves, hb, hclasses, hnormal⟩ := leaves_of_text h htoken
  have hg := hleaves.resolved_of_build hb
  have hprintable := hleaves.printable hb (List.forall_mem_map.2 (writable_of_lexemes hls)) hplain
  -- the text that is printed is cut into the lexemes of the rules, and these are read
  obtain ⟨ls', stop', hls', hkinds⟩ := (lexes_toBnf fun rule hrule => ⟨(hprintable rule hrule).name,
    fun alt halt => ((hprintable rule hrule).symbols alt halt).2⟩).lexemes
  obtain ⟨hresolved, hnil⟩ := resolved_declaring classes
  obtain ⟨r, hr, hreads⟩ := Reader.rules_of_printed (r := ⟨ls', stop', declaring classes⟩) hprintable hresolved hkinds
    (Nat.lt_succ_self _)
  have hleaves' : Leaves (ls'.map Lexeme.kind) name r.builder := by
    obtain ⟨rest, hprinted⟩ := hleaves.printed_eq_cons hb
    obtain ⟨added, -, hall⟩ := hleaves.heads
    have hfirst : ls'.map Lexeme.kind =
        .reference name :: (.define :: sidesKinds (g.sides 2) ++ rest.flatMap bnfKinds) := by
      rw [hkinds, hprinted]
      rfl
    exact leaves_of_rules hfirst (hall _ (.head _)).2.symm hr hreads.effect.resolved
  -- the builder has the same listing as before, and so has the grammar
  have hfinished : Change.amendAll r.builder.listing (finishing r.builder.tokenClasses.toList name) = g.listing := by
    rw [(listing_of_build hleaves.resolved hb).2, hleaves.name_first hb, hclasses, hreads.effect.listing, hnil,
      hleaves.listing_of_defines hb hnormal, hreads.effect.classes]
    rfl
  obtain ⟨g', hb'⟩ := hleaves'.resolved.exists_build hleaves'.first hleaves'.named_first fun x hx => by
    rw [hfinished]
    exact hleaves.listing_ne_nil hb (hleaves.exists_of_mem_heads hb (hkinds ▸ hleaves') hx)
  have hlisting : g'.listing = g.listing := by
    rw [(listing_of_build hleaves'.resolved hb').2, hleaves'.name_first hb', hfinished]
  refine ⟨g', ofText_bnf_iff.2 ⟨ls', stop', r, hls', hr, hb'⟩, hlisting, fun n => Bool.eq_iff_iff.2 ?_, ?_⟩
  · rw [(hleaves'.resolved_of_build hb').isSome_ruleNamed?_iff (alternatives_ne_of_build hb'), hlisting,
      hg.isSome_ruleNamed?_iff (alternatives_ne_of_build hb)]
  · rw [hleaves'.name_first hb', hleaves.name_first hb]

/-- A text with a line break and a quote in literals, flags of a pattern, a token class and an empty right-hand
side. -/
def linesText : String :=
  "<S> ::= <S> \"\\n\" <T> | <T> <T> ::= '\"' /[0-9]+/i <Token-id> | \"\""

theorem ofText_toBnf_lines : ∃ g, ofText .bnf linesText [("id", "[a-z]+")] = .ok g ∧
    (∀ className, ¬ Defines linesText (tokenRuleName className)) ∧ (∀ t ∈ g.terminals, t.atom.Plain) ∧
    ∃ g', ofText .bnf g.toBnf [("id", "[a-z]+")] = .ok g' ∧ g'.listing = g.listing ∧
      (∀ name, (g'.ruleNamed? name).isSome = (g.ruleNamed? name).isSome) ∧
      (g'.rule g'.first).name = (g.rule g.first).name := by
  have htoken : ∀ className, ¬ Defines linesText (tokenRuleName className) := by
    have hkinds : (lexemes linesText).toOption.map (fun p => p.1.map Lexeme.kind) = some [.reference "S", .define,
        .reference "S", .literal "\n", .reference "T", .pipe, .reference "T", .reference "T", .define,
        .literal "\"", .pattern "[0-9]+" "i", .reference "Token-id", .pipe, .literal ""] := by decide +kernel
    rintro className ⟨ls, stop, hls, hinfix⟩
    rw [hls] at hkinds
    have hS : "S" ≠ tokenRuleName className := kindOfName_eq_normal_iff.1 (by decide) className
    have hT : "T" ≠ tokenRuleName className := kindOfName_eq_normal_iff.1 (by decide) className
    rw [show ls.map Lexeme.kind = _ from Option.some.inj hkinds] at hinfix
    simp [List.infix_cons_iff, List.cons_prefix_cons, hS.symm, hT.symm] at hinfix
  have hplain : ((ofText .bnf linesText [("id", "[a-z]+")]).toOption.map fun g =>
      decide (∀ t ∈ g.terminals, t.atom.Plain)) = some true := by decide +kernel
  cases h : ofText .bnf linesText [("id", "[a-z]+")] with
  | error e => simp [h, Except.toOption] at hplain
  | ok g =>
    have hplain : ∀ t ∈ g.terminals, t.atom.Plain := by simpa [h, Except.toOption] using hplain
    exact ⟨g, rfl, htoken, hplain, ofText_toBnf h htoken hplain⟩

end Grammar

end ParseForest
