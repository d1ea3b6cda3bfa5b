import ParseForest.Grammar.Builder
import ParseForest.Proofs.Basic
import ParseForest.Proofs.Grammar.Nullable

/-!
# Built grammars

A grammar is *built* when a builder that was put together call by call answers it (`Made`,
`Grammar.Built`). What such a grammar guarantees is collected in `WellFormed`; no later proof looks
at a builder again.

The builder indexes its table of terminals at every terminal of a right-hand side, so a call that
names a terminal it has not handed out does not return. Rules are not looked up, and an alternative
may mention a rule that comes into being later.
-/

namespace ParseForest

namespace GrammarBuilder

/-- The builders that calls on a new builder lead to. -/
inductive Made : GrammarBuilder → Prop
  | new : Made .new
  | declareClass {b : GrammarBuilder} (h : Made b) (name pattern : String) :
      Made (b.declareClass name pattern)
  | internRule {b : GrammarBuilder} (h : Made b) (name : String) (kind : RuleKind) :
      Made (b.internRule name kind).2
  | mention {b : GrammarBuilder} (h : Made b) (name : String) (place : Location) :
      Made (b.mention name place).2
  | addAlternative {b : GrammarBuilder} (h : Made b) (id : RuleId) (symbols : List Symbol)
      (ht : ∀ t, Symbol.terminal t ∈ symbols → t < b.terminals.size) :
      Made (b.addAlternative id symbols)
  | setFirst {b : GrammarBuilder} (h : Made b) (id : RuleId) : Made (b.setFirst id)
  | literal {b : GrammarBuilder} (h : Made b) (text : String) : Made (b.literal text).2
  | pattern {b : GrammarBuilder} (h : Made b) (text flags : String) : Made (b.pattern text flags).2
  | annotate {b : GrammarBuilder} (h : Made b) (id : TerminalId) (precedence : Option Nat)
      (associativity : Option Associativity) (place : Location) :
      Made (b.annotate id precedence associativity place).2

/-- The rules `#S` and `Token-EOF` are there, and right-hand sides name terminals that exist. -/
structure Scoped (b : GrammarBuilder) : Prop where
  two_le : 2 ≤ b.drafts.size
  terminal_lt : ∀ (i : Nat) (d : RuleDraft), b.drafts[i]? = some d →
    ∀ a ∈ d.rule.alternatives, ∀ t, Symbol.terminal t ∈ a.symbols → t < b.terminals.size

theorem scoped_new : Scoped .new where
  two_le := by decide
  terminal_lt := by
    intro i d hd a ha
    have hempty : ∀ d ∈ GrammarBuilder.new.drafts, d.rule.alternatives = #[] := by
      simp [GrammarBuilder.new, Rule.named]
    rw [hempty d (Array.mem_of_getElem? hd)] at ha
    simp at ha

/-- A change that keeps the drafts and loses no terminal. -/
theorem Scoped.congr {b b' : GrammarBuilder} (h : b.Scoped) (hd : b'.drafts = b.drafts)
    (ht : b.terminals.size ≤ b'.terminals.size) : b'.Scoped where
  two_le := by rw [hd]; exact h.two_le
  terminal_lt i d hi a ha t hs := by
    rw [hd] at hi
    exact Nat.lt_of_lt_of_le (h.terminal_lt i d hi a ha t hs) ht

theorem Scoped.withoutClasses {b : GrammarBuilder} (h : b.Scoped) :
    Scoped { b with tokenClasses := #[] } := h.congr rfl (Nat.le_refl _)

theorem Scoped.internRule {b : GrammarBuilder} (h : b.Scoped) (name : String) (kind : RuleKind) :
    (b.internRule name kind).2.Scoped := by
  unfold GrammarBuilder.internRule
  split
  · exact h
  · refine ⟨by simpa using Nat.le_succ_of_le h.two_le, fun i d hi a ha => ?_⟩
    simp only [Array.getElem?_push] at hi
    split at hi
    · obtain rfl := Option.some.inj hi
      simp [Rule.named] at ha
    · exact h.terminal_lt i d hi a ha

/-- A change of one draft that keeps the alternatives, or replaces them by ones in scope. -/
theorem Scoped.modify {b : GrammarBuilder} (h : b.Scoped) (id : RuleId) (f : RuleDraft → RuleDraft)
    (hf : ∀ d, b.drafts[id]? = some d → ∀ a ∈ (f d).rule.alternatives,
      ∀ t, Symbol.terminal t ∈ a.symbols → t < b.terminals.size) :
    Scoped { b with drafts := b.drafts.modify id f } where
  two_le := by simpa using h.two_le
  terminal_lt i d hi a ha t hs := by
    simp only [Array.getElem?_modify] at hi
    split at hi
    · rename_i hid
      subst hid
      obtain ⟨d₀, hd₀, rfl⟩ := Option.map_eq_some_iff.1 hi
      exact hf d₀ hd₀ a ha t hs
    · exact h.terminal_lt i d hi a ha t hs

theorem Scoped.setOnly {b : GrammarBuilder} (h : b.Scoped) (id : RuleId) (symbols : List Symbol)
    (hs : ∀ t, Symbol.terminal t ∈ symbols → t < b.terminals.size) : (b.setOnly id symbols).Scoped :=
  h.modify id _ fun d _ a ha => by
    obtain rfl : a = .ofSymbols symbols := by simpa using ha
    exact hs

theorem Scoped.internTerminal {b : GrammarBuilder} (h : b.Scoped) (t : Terminal) :
    (b.internTerminal t).2.Scoped ∧ (b.internTerminal t).1 < (b.internTerminal t).2.terminals.size := by
  unfold GrammarBuilder.internTerminal
  split
  · rename_i id hid
    obtain ⟨hlt, -⟩ := Array.findIdx?_eq_some_iff_getElem.1 hid
    exact ⟨h, hlt⟩
  · exact ⟨h.congr rfl (by simp), by simp⟩

theorem Scoped.addAlternative {b : GrammarBuilder} (h : b.Scoped) (id : RuleId)
    (symbols : List Symbol) (hs : ∀ t, Symbol.terminal t ∈ symbols → t < b.terminals.size) :
    (b.addAlternative id symbols).Scoped := by
  unfold GrammarBuilder.addAlternative
  dsimp only
  split
  · exact h
  · rename_i draft hdraft
    have hfirst : ∀ c : Prop, ∀ _ : Decidable c,
        Scoped (if c then { b with first := some id } else b) ∧
        (if c then { b with first := some id } else b).drafts = b.drafts ∧
        (if c then { b with first := some id } else b).terminals = b.terminals := by
      intro c _
      split
      · exact ⟨h.congr rfl (Nat.le_refl _), rfl, rfl⟩
      · exact ⟨h, rfl, rfl⟩
    split
    · exact (hfirst _ _).1
    · obtain ⟨hsc, hdr, htm⟩ := hfirst (draft.rule.kind = .normal ∧ b.first = none) inferInstance
      refine ⟨by simpa [hdr] using h.two_le, fun i d hi a ha t ht => ?_⟩
      simp only [hdr, Array.getElem?_setIfInBounds] at hi
      simp only [htm]
      split at hi
      · split at hi
        · obtain rfl := Option.some.inj hi
          rcases Array.mem_push.1 ha with ha | rfl
          · exact h.terminal_lt id draft hdraft a ha t ht
          · exact hs t ((List.mem_filter.1 ht).1)
        · simp at hi
      · exact h.terminal_lt i d hi a ha t ht

theorem Scoped.annotate {b : GrammarBuilder} (h : b.Scoped) (id : TerminalId)
    (precedence : Option Nat) (associativity : Option Associativity) (place : Location) :
    (b.annotate id precedence associativity place).2.Scoped := by
  have hlit : ∀ (b : GrammarBuilder), b.Scoped → ∀ id l, (b.setLiteral id l).Scoped :=
    fun b h id l => h.congr rfl (by simp [GrammarBuilder.setLiteral])
  have hassoc : ∀ (b : GrammarBuilder), b.Scoped → ∀ id l conflict,
      (annotate.annotateAssociativity b id l associativity conflict).2.Scoped := by
    intro b h id l conflict
    unfold annotate.annotateAssociativity
    split
    · exact h
    · split
      · split
        · exact hlit b h _ _
        · exact h
      · exact (hlit b h _ _).congr rfl (Nat.le_refl _)
  unfold GrammarBuilder.annotate
  split
  · dsimp only
    split
    · split
      · exact hassoc b h _ _ _
      · exact h
    · exact hassoc _ (hlit b h _ _) _ _ _
    · exact hassoc b h _ _ _
  · exact h

theorem Made.scoped {b : GrammarBuilder} (h : b.Made) : b.Scoped := by
  induction h with
  | new => exact scoped_new
  | declareClass _ name pattern ih =>
    unfold GrammarBuilder.declareClass
    split
    · exact ih
    · exact ih.congr rfl (Nat.le_refl _)
  | internRule _ name kind ih => exact ih.internRule name kind
  | mention _ name place ih =>
    exact (ih.internRule name _).modify _ _ fun d hd => (ih.internRule name _).terminal_lt _ d hd
  | addAlternative _ id symbols ht ih => exact ih.addAlternative id symbols ht
  | setFirst _ id ih => exact ih.congr rfl (Nat.le_refl _)
  | literal _ text ih => exact (ih.internTerminal _).1
  | pattern _ text flags ih => exact (ih.internTerminal _).1
  | annotate _ id p a place ih => exact ih.annotate id p a place

/-! ## Terminals stay -/

theorem terminals_internTerminal (b : GrammarBuilder) (t : Terminal) :
    b.terminals.toList <+: (b.internTerminal t).2.terminals.toList := by
  rw [internTerminal]
  split
  · exact List.prefix_refl _
  · simp

theorem terminals_addAlternative (b : GrammarBuilder) (id : RuleId) (symbols : List Symbol) :
    (b.addAlternative id symbols).terminals = b.terminals := by
  rw [addAlternative]
  dsimp only
  split
  · rfl
  · split <;> split <;> rfl

theorem terminals_internRule (b : GrammarBuilder) (name : String) (kind : RuleKind) :
    (b.internRule name kind).2.terminals = b.terminals := by
  rw [internRule]
  split <;> rfl

theorem Made.internRules {b : GrammarBuilder} (rules : List (String × RuleKind)) (h : Made b) :
    Made (rules.foldl (fun b x => (b.internRule x.1 x.2).2) b) :=
  List.foldlRecOn (motive := Made) _ _ h fun _ hb x _ => hb.internRule x.1 x.2

theorem Made.addAlternatives {b : GrammarBuilder} (alternatives : List (RuleId × List Symbol))
    (h : Made b) (ht : ∀ x ∈ alternatives, ∀ s ∈ x.2, ∀ t ∈ s.terminal?, t < b.terminals.size) :
    Made (alternatives.foldl (fun b x => b.addAlternative x.1 x.2) b) := by
  induction alternatives generalizing b with
  | nil => exact h
  | cons x alternatives ih =>
    refine ih (h.addAlternative x.1 x.2 fun t hx => ht x (.head _) _ hx t rfl) fun y hy s hs t hst => ?_
    rw [terminals_addAlternative]
    exact ht y (.tail _ hy) s hs t hst

theorem terminals_spliceClass (b : GrammarBuilder) (className pattern : String) :
    b.terminals.toList <+: (b.spliceClass className pattern).terminals.toList := by
  rw [spliceClass]
  dsimp only
  split
  · rw [terminals_internRule]
  · rw [terminals_addAlternative, ← terminals_internRule b (tokenRuleName className) .tokenClass]
    exact terminals_internTerminal _ _

theorem terminals_spliceClasses (b : GrammarBuilder) (classes : List (String × String)) :
    b.terminals.toList <+:
      (classes.foldl (fun b c => b.spliceClass c.1 c.2) b).terminals.toList := by
  induction classes generalizing b with
  | nil => exact List.prefix_refl _
  | cons c classes ih => exact (terminals_spliceClass b c.1 c.2).trans (ih _)

/-- After the terminal of the end of input, finishing only adds terminals. -/
theorem terminals_complete (b : GrammarBuilder) (first : RuleId) :
    (b.complete first).1 = (b.internTerminal (.ofClass eofClass "")).1 ∧
      (b.internTerminal (.ofClass eofClass "")).2.terminals.toList <+:
        (b.complete first).2.terminals.toList := by
  simp only [complete, ← Array.foldl_toList]
  generalize b.internTerminal (.ofClass eofClass "") = c
  exact ⟨trivial, terminals_spliceClasses
    { c.2.setOnly eofRuleId [.terminal c.1] with tokenClasses := #[] } c.2.tokenClasses.toList⟩

/-! ## Names and kinds stay -/

/-- The names and kinds of the rules. -/
def heads (b : GrammarBuilder) : List (String × RuleKind) :=
  b.drafts.toList.map fun d => (d.rule.name, d.rule.kind)

theorem mem_heads_of_draft {b : GrammarBuilder} {d : RuleDraft} (hd : d ∈ b.drafts) :
    (d.rule.name, d.rule.kind) ∈ b.heads :=
  List.mem_map.2 ⟨d, Array.mem_toList_iff.2 hd, rfl⟩

theorem heads_eq {b b' : GrammarBuilder} (h : ∀ id : RuleId,
    b'.drafts[id]?.map (fun d => (d.rule.name, d.rule.kind)) =
      b.drafts[id]?.map fun d => (d.rule.name, d.rule.kind)) : b'.heads = b.heads := by
  refine List.ext_getElem? fun id => ?_
  simpa only [heads, List.getElem?_map, Array.getElem?_toList] using h id

theorem heads_internRule (b : GrammarBuilder) (name : String) (kind : RuleKind) :
    (b.internRule name kind).2.heads = b.heads ∨
      (b.internRule name kind).2.heads = b.heads ++ [(name, kind)] := by
  rw [internRule]
  split
  · exact .inl rfl
  · exact .inr (by simp [heads, Rule.named])

theorem heads_mention (b : GrammarBuilder) (name : String) (place : Location) :
    (b.mention name place).2.heads = (b.internRule name (kindOfName name)).2.heads := by
  refine heads_eq fun id => ?_
  simp only [mention, Array.getElem?_modify]
  split
  · rw [Option.map_map]
    rfl
  · rfl

theorem heads_setOnly (b : GrammarBuilder) (id : RuleId) (symbols : List Symbol) :
    (b.setOnly id symbols).heads = b.heads := by
  refine heads_eq fun id' => ?_
  simp only [setOnly, Array.getElem?_modify]
  split
  · rw [Option.map_map]
    rfl
  · rfl

theorem heads_internTerminal (b : GrammarBuilder) (t : Terminal) :
    (b.internTerminal t).2.heads = b.heads := by
  rw [internTerminal]
  split <;> rfl

theorem heads_addAlternative (b : GrammarBuilder) (id : RuleId) (symbols : List Symbol) :
    (b.addAlternative id symbols).heads = b.heads := by
  rw [addAlternative]
  dsimp only
  split
  · rfl
  · rename_i draft hdraft
    have hset : ∀ {b' : GrammarBuilder} {alternatives : Array Alternative}, b'.drafts = b.drafts.setIfInBounds id
        { draft with rule := { draft.rule with alternatives } } → b'.heads = b.heads := by
      intro b' alternatives hb'
      refine heads_eq fun id' => ?_
      rw [hb', Array.getElem?_setIfInBounds]
      split
      · rename_i hid
        subst hid
        obtain ⟨hlt, hget⟩ := Array.getElem?_eq_some_iff.1 hdraft
        simp [hlt, hget]
      · rfl
    split <;> split
    · rfl
    · rfl
    · exact hset rfl
    · exact hset rfl

theorem heads_spliceClass (b : GrammarBuilder) (className pattern : String) :
    (b.spliceClass className pattern).heads = b.heads ∨
      (b.spliceClass className pattern).heads = b.heads ++ [(tokenRuleName className, .tokenClass)] := by
  have hrule := b.heads_internRule (tokenRuleName className) .tokenClass
  rw [spliceClass]
  dsimp only
  split
  · exact hrule
  · rwa [heads_addAlternative, heads_internTerminal]

theorem heads_spliceClasses (b : GrammarBuilder) (classes : List (String × String)) :
    ∃ added, (classes.foldl (fun b c => b.spliceClass c.1 c.2) b).heads = b.heads ++ added ∧
      ∀ h ∈ added, ∃ c ∈ classes, h = (tokenRuleName c.1, .tokenClass) := by
  induction classes generalizing b with
  | nil => exact ⟨[], (List.append_nil _).symm, by simp⟩
  | cons c classes ih =>
    obtain ⟨added, hadded, hall⟩ := ih (b.spliceClass c.1 c.2)
    have hall' : ∀ h ∈ added, ∃ c' ∈ c :: classes, h = (tokenRuleName c'.1, .tokenClass) := fun h hh => by
      obtain ⟨c', hc', he⟩ := hall h hh
      exact ⟨c', .tail _ hc', he⟩
    rcases b.heads_spliceClass c.1 c.2 with hc | hc
    · exact ⟨added, hadded.trans (by rw [hc]), hall'⟩
    · exact ⟨(tokenRuleName c.1, .tokenClass) :: added, hadded.trans (by rw [hc]; simp),
        List.forall_mem_cons.2 ⟨⟨c, .head _, rfl⟩, hall'⟩⟩

/-- Finishing only adds rules of token classes. -/
theorem heads_complete (b : GrammarBuilder) (first : RuleId) :
    ∃ added, (b.complete first).2.heads = b.heads ++ added ∧
      ∀ h ∈ added, ∃ c ∈ b.tokenClasses.toList, h = (tokenRuleName c.1, .tokenClass) := by
  have hterminal := b.heads_internTerminal (.ofClass eofClass "")
  have hclasses : (b.internTerminal (.ofClass eofClass "")).2.tokenClasses = b.tokenClasses := by
    rw [internTerminal]
    split <;> rfl
  simp only [complete, ← Array.foldl_toList, heads_setOnly]
  generalize b.internTerminal (.ofClass eofClass "") = c at hterminal hclasses
  obtain ⟨added, hadded, hall⟩ := heads_spliceClasses
    { c.2.setOnly eofRuleId [.terminal c.1] with tokenClasses := #[] } c.2.tokenClasses.toList
  have hheads : heads { c.2.setOnly eofRuleId [.terminal c.1] with tokenClasses := #[] } = b.heads :=
    (heads_setOnly _ _ _).trans hterminal
  rw [hheads] at hadded
  exact ⟨added, hadded, hclasses ▸ hall⟩

/-! ## Finishing -/

/-- What is known of a grammar that is built: it has the completed builder's rules, each with an alternative,
and its terminals. -/
theorem exists_of_build {b : GrammarBuilder} {g : Grammar} (hb : b.build = .ok g) : ∃ first, b.first = some first ∧
    g = { rules := finishRules (b.complete first).2.terminals
            ((b.complete first).2.drafts.map RuleDraft.rule)
          terminals := (b.complete first).2.terminals
          start := startId, first := first, eofRule := eofRuleId, eof := (b.complete first).1 } ∧
    ∀ d ∈ (b.complete first).2.drafts, d.rule.alternatives ≠ #[] := by
  rw [build] at hb
  split at hb
  · cases hb
  · rename_i first hfirst
    refine ⟨first, hfirst, ?_⟩
    dsimp only at hb
    split at hb
    · cases hb
    · rename_i hnone
      refine ⟨(Except.ok.inj hb).symm, fun d hd hempty => ?_⟩
      have := Array.findSome?_eq_none_iff.1 hnone d hd
      simp [RuleDraft.fault?, hempty] at this

/-- A builder whose first rule is known, and in which every rule has an alternative when it is completed, answers a
grammar. -/
theorem build_eq_ok {b : GrammarBuilder} {first : RuleId} (hfirst : b.first = some first)
    (h : ∀ d ∈ (b.complete first).2.drafts, d.rule.alternatives ≠ #[]) : ∃ g, b.build = .ok g := by
  have hnone : (b.complete first).2.drafts.findSome? RuleDraft.fault? = none :=
    Array.findSome?_eq_none_iff.2 fun d hd => by simp [RuleDraft.fault?, h d hd]
  simp [build, hfirst, hnone]

theorem Scoped.spliceClass {b : GrammarBuilder} (h : b.Scoped) (className pattern : String) :
    (b.spliceClass className pattern).Scoped := by
  have hr := h.internRule (tokenRuleName className) .tokenClass
  unfold GrammarBuilder.spliceClass
  dsimp only
  split
  · exact hr
  · have ht := hr.internTerminal (.ofClass className pattern)
    refine ht.1.addAlternative _ _ fun t hmem => ?_
    obtain rfl : t = _ := by simpa using hmem
    exact ht.2

/-- The draft of a rule has the one given alternative. -/
def HasOnly (b : GrammarBuilder) (id : RuleId) (symbols : List Symbol) : Prop :=
  ∃ d, b.drafts[id]? = some d ∧ d.rule.alternatives = #[.ofSymbols symbols]

theorem hasOnly_setOnly {b : GrammarBuilder} {id : RuleId} (hid : id < b.drafts.size)
    (symbols : List Symbol) : (b.setOnly id symbols).HasOnly id symbols := by
  refine ⟨{ b.drafts[id] with rule := { b.drafts[id].rule with
    alternatives := #[.ofSymbols symbols] } }, ?_, rfl⟩
  simp [GrammarBuilder.setOnly, Array.getElem?_modify, Array.getElem?_eq_getElem hid]

theorem HasOnly.setOnly_ne {b : GrammarBuilder} {id id' : RuleId} {symbols symbols' : List Symbol}
    (h : b.HasOnly id symbols) (hne : id' ≠ id) : (b.setOnly id' symbols').HasOnly id symbols := by
  obtain ⟨d, hd, ha⟩ := h
  exact ⟨d, by simpa [GrammarBuilder.setOnly, Array.getElem?_modify, hne] using hd, ha⟩

theorem HasOnly.internRule {b : GrammarBuilder} {id : RuleId} {symbols : List Symbol}
    (h : b.HasOnly id symbols) (name : String) (kind : RuleKind) :
    (b.internRule name kind).2.HasOnly id symbols := by
  obtain ⟨d, hd, ha⟩ := h
  unfold GrammarBuilder.internRule
  split
  · exact ⟨d, hd, ha⟩
  · refine ⟨d, ?_, ha⟩
    have hlt := (Array.getElem?_eq_some_iff.1 hd).1
    simpa [Array.getElem?_push, Nat.ne_of_lt hlt] using hd

theorem drafts_internTerminal (b : GrammarBuilder) (t : Terminal) :
    (b.internTerminal t).2.drafts = b.drafts := by
  unfold GrammarBuilder.internTerminal
  split <;> rfl

/-- Adding an alternative to one rule leaves the others. -/
theorem HasOnly.addAlternative_ne {b : GrammarBuilder} {id id' : RuleId}
    {symbols symbols' : List Symbol} (h : b.HasOnly id symbols) (hne : id' ≠ id) :
    (b.addAlternative id' symbols').HasOnly id symbols := by
  obtain ⟨d, hd, ha⟩ := h
  have hdr : ∀ c : Prop, ∀ _ : Decidable c, ∀ x : Option RuleId,
      (if c then { b with first := x } else b).drafts = b.drafts := by
    intro c _ x
    split <;> rfl
  refine ⟨d, ?_, ha⟩
  unfold GrammarBuilder.addAlternative
  dsimp only
  split
  · exact hd
  · split
    · rw [hdr]
      exact hd
    · simpa [hdr, Array.getElem?_setIfInBounds, hne] using hd

theorem HasOnly.spliceClass {b : GrammarBuilder} {id : RuleId} {symbols : List Symbol}
    (h : b.HasOnly id symbols) (className pattern : String) :
    (b.spliceClass className pattern).HasOnly id symbols := by
  have hr := h.internRule (tokenRuleName className) .tokenClass
  unfold GrammarBuilder.spliceClass
  dsimp only
  split
  · exact hr
  · rename_i hdef
    refine HasOnly.addAlternative_ne ?_ ?_
    · obtain ⟨d, hd, ha⟩ := hr
      exact ⟨d, by rw [drafts_internTerminal]; exact hd, ha⟩
    · rintro rfl
      obtain ⟨d, hd, ha⟩ := hr
      simp [GrammarBuilder.isDefined, hd, ha] at hdef

theorem scoped_foldl_spliceClass (classes : List (String × String)) {b : GrammarBuilder}
    {id : RuleId} {symbols : List Symbol} (h : b.Scoped) (ho : b.HasOnly id symbols) :
    (classes.foldl (fun b (name, pattern) => b.spliceClass name pattern) b).Scoped ∧
      (classes.foldl (fun b (name, pattern) => b.spliceClass name pattern) b).HasOnly id symbols := by
  induction classes generalizing b with
  | nil => exact ⟨h, ho⟩
  | cons c classes ih => exact ih (h.spliceClass c.1 c.2) (ho.spliceClass c.1 c.2)

/-- The completed builder is in scope and has the right-hand sides of `#S` and of the end of
input. -/
theorem Scoped.complete {b : GrammarBuilder} (h : b.Scoped) (first : RuleId) :
    (b.complete first).2.Scoped ∧
      (b.complete first).2.HasOnly startId [.rule first, .rule eofRuleId] ∧
      (b.complete first).2.HasOnly eofRuleId [.terminal (b.complete first).1] := by
  obtain ⟨hs, hlt⟩ := h.internTerminal (.ofClass eofClass "")
  have h₁ := hs.setOnly eofRuleId [.terminal (b.internTerminal (.ofClass eofClass "")).1]
    fun t ht => by
      obtain rfl : t = _ := by simpa using ht
      exact hlt
  have hlt' : eofRuleId < (b.internTerminal (.ofClass eofClass "")).2.drafts.size :=
    Nat.lt_of_lt_of_le (by decide) hs.two_le
  have ho := hasOnly_setOnly hlt' [.terminal (b.internTerminal (.ofClass eofClass "")).1]
  obtain ⟨h₂, ho₂⟩ := scoped_foldl_spliceClass
    ((b.internTerminal (.ofClass eofClass "")).2.setOnly eofRuleId
      [.terminal (b.internTerminal (.ofClass eofClass "")).1]).tokenClasses.toList
    (h₁.withoutClasses) ho
  rw [Array.foldl_toList] at h₂ ho₂
  exact ⟨h₂.setOnly startId _ (by simp), hasOnly_setOnly (Nat.lt_of_lt_of_le (by decide) h₂.two_le) _,
    ho₂.setOnly_ne (by decide)⟩

/-- An operator is one of the terminals among the symbols. -/
theorem exists_terminal_of_operatorAmong {terminals : Array Terminal} {i : Nat}
    {symbols : List Symbol} {op : Operator} (h : operatorAmong terminals i symbols = some op) :
    ∃ k t, op.index = i + k ∧ symbols[k]? = some (.terminal t) := by
  induction symbols generalizing i with
  | nil => cases h
  | cons s rest ih =>
    have hrest : operatorAmong terminals (i + 1) rest = some op →
        ∃ k t, op.index = i + k ∧ (s :: rest)[k]? = some (.terminal t) := fun h => by
      obtain ⟨k, t, hk, ht⟩ := ih h
      exact ⟨k + 1, t, by rw [hk, Nat.add_right_comm, Nat.add_assoc], ht⟩
    cases s with
    | rule A => exact hrest h
    | terminal t =>
      rw [operatorAmong] at h
      split at h
      · cases h
        exact ⟨0, t, rfl, rfl⟩
      · exact hrest h

end GrammarBuilder

namespace Grammar

/-- A builder that was put together call by call answers the grammar. -/
def Built (g : Grammar) : Prop := ∃ b : GrammarBuilder, b.Made ∧ b.build = .ok g

/-- What every built grammar guarantees. -/
structure WellFormed (g : Grammar) : Prop where
  start_ne_eofRule : g.start ≠ g.eofRule
  start_alternatives : ∃ a, (g.rule g.start).alternatives = #[a] ∧
    a.symbols = [.rule g.first, .rule g.eofRule]
  eof_alternatives : ∃ a, (g.rule g.eofRule).alternatives = #[a] ∧ a.symbols = [.terminal g.eof]
  terminal_lt : ∀ rule, ∀ a ∈ (g.rule rule).alternatives, ∀ t, Symbol.terminal t ∈ a.symbols →
    t < g.terminals.size
  isNullable_iff : ∀ rule, g.isNullable rule = true ↔ g.Nullable [.rule rule]
  nullableFrom_le_iff : ∀ rule, ∀ a ∈ (g.rule rule).alternatives, ∀ k,
    a.nullableFrom ≤ k ↔ g.Nullable (a.symbols.drop k)
  operator_eq : ∀ rule, ∀ a ∈ (g.rule rule).alternatives,
    a.operator = GrammarBuilder.operatorAmong g.terminals 0 a.symbols

/-- The operator of an alternative is one of its terminals. -/
theorem WellFormed.operator_terminal {g : Grammar} (hg : g.WellFormed) {rule : RuleId} {alt : Nat}
    (halt : alt < (g.rule rule).alternatives.size) {op : Operator}
    (h : (g.alternative rule alt).operator = some op) :
    ∃ t, (g.alternative rule alt).symbols[op.index]? = some (.terminal t) := by
  rw [hg.operator_eq rule _ (alternative_mem halt)] at h
  obtain ⟨k, t, hk, ht⟩ := GrammarBuilder.exists_terminal_of_operatorAmong h
  rw [Nat.zero_add] at hk
  exact ⟨t, hk ▸ ht⟩

/-- The only alternative of the rule that accepts. -/
theorem WellFormed.alternative_start {g : Grammar} (hg : g.WellFormed) :
    (g.rule g.start).alternatives.size = 1 ∧
      (g.alternative g.start 0).symbols = [.rule g.first, .rule g.eofRule] := by
  obtain ⟨a, hall, hsym⟩ := hg.start_alternatives
  exact ⟨by rw [hall]; rfl, by simp [Grammar.alternative, hall, hsym]⟩

/-- The only alternative of the rule of the end of input. -/
theorem WellFormed.alternative_eofRule {g : Grammar} (hg : g.WellFormed) :
    (g.rule g.eofRule).alternatives.size = 1 ∧
      (g.alternative g.eofRule 0).symbols = [.terminal g.eof] := by
  obtain ⟨a, hall, hsym⟩ := hg.eof_alternatives
  exact ⟨by rw [hall]; rfl, by simp [Grammar.alternative, hall, hsym]⟩

/-- The end of input begins with its terminal. -/
theorem WellFormed.first_eofRule {g : Grammar} (hg : g.WellFormed) :
    g.First [.rule g.eofRule] g.eof := by
  obtain ⟨a, hall, hs⟩ := hg.eof_alternatives
  refine .rule [] (a := a) (by simp [hall]) ?_
  rw [hs]
  exact .terminal _ []

/-- The end of input is not nothing. -/
theorem WellFormed.not_nullable_eofRule {g : Grammar} (hg : g.WellFormed) :
    ¬ g.Nullable [.rule g.eofRule] := by
  intro h
  obtain ⟨a, hall, hs⟩ := hg.eof_alternatives
  obtain ⟨a', ha', hn⟩ := nullable_rule_iff.1 h
  rw [hall] at ha'
  obtain rfl : a' = a := by simpa using ha'
  rw [hs] at hn
  exact not_nullable_terminal hn

section Finished

open GrammarBuilder

variable {terminals : Array Terminal} {rules : Array Rule} {g : Grammar}
  (hg : g.rules = finishRules terminals rules)
include hg

theorem size_rules_of_finished : g.rules.size = rules.size := by
  rw [hg]
  simp [finishRules]

theorem rule_of_finished {i : RuleId} (hi : i < rules.size) :
    g.rule i = { rules[i] with
      nullable := (nullableRules rules).getD i false
      alternatives := rules[i].alternatives.map
        (finishAlternative (nullableRules rules) terminals) } := by
  simp [Grammar.rule, hg, finishRules, Array.getD_eq_getD_getElem?, hi]

theorem rule_of_finished_out {i : RuleId} (hi : ¬ i < rules.size) : g.rule i = default := by
  have := size_rules_of_finished hg
  simp [Grammar.rule, Array.getD, this, hi]

/-- The alternatives of a finished rule are those of the draft, filled in. -/
theorem mem_alternatives_of_finished {i : RuleId} {a : Alternative} :
    a ∈ (g.rule i).alternatives ↔
      ∃ a₀ ∈ (rules.getD i default).alternatives,
        finishAlternative (nullableRules rules) terminals a₀ = a := by
  by_cases hi : i < rules.size
  · rw [rule_of_finished hg hi]
    simp [Array.getD, hi]
  · rw [rule_of_finished_out hg hi]
    simp [Array.getD, hi]

theorem isNullable_of_finished (i : RuleId) :
    g.isNullable i = (nullableRules rules).getD i false := by
  by_cases hi : i < rules.size
  · simp [Grammar.isNullable, rule_of_finished hg hi]
  · have hd : (default : Rule).nullable = false := rfl
    simp [Grammar.isNullable, rule_of_finished_out hg hi, hd, Array.getD, hi]

theorem nullable_of_finished {i : RuleId} (h : (nullableRules rules).getD i false = true) :
    g.Nullable [.rule i] := by
  refine nullableRules_induction (P := fun i => g.Nullable [.rule i]) (fun i a ha hs => ?_) h
  refine nullable_rule_iff.2 ⟨_, (mem_alternatives_of_finished hg).2 ⟨a, ha, rfl⟩, ?_⟩
  refine nullable_iff_forall.2 fun s hmem => ?_
  obtain ⟨id, rfl, hid⟩ := hs s hmem
  exact hid

/-- The table of nullable rules is right about sentential forms: it contains every rule of which
the form consists, when the form derives nothing. -/
theorem symbolNullable_of_derives {α : List Symbol} (h : g.Nullable α) :
    ∀ s ∈ α, symbolNullable (nullableRules rules) s = true := by
  induction h using Relation.ReflTransGen.head_induction_on with
  | refl => simp
  | head hp _ ih =>
    obtain ⟨before, after, rule, a, ha⟩ := hp
    obtain ⟨a₀, ha₀, rfl⟩ := (mem_alternatives_of_finished hg).1 ha
    simp only [finishAlternative, List.mem_append] at ih
    intro s hs
    rcases List.mem_append.1 hs with hs | hs
    · exact ih s (.inl (.inl hs))
    · rcases List.mem_cons.1 hs with rfl | hs
      · exact nullableRules_closed ha₀ fun s hs => ih s (.inl (.inr hs))
      · exact ih s (.inr hs)

theorem symbolNullable_iff_of_finished {s : Symbol} :
    symbolNullable (nullableRules rules) s = true ↔ g.Nullable [s] := by
  refine ⟨fun h => ?_, fun h => symbolNullable_of_derives hg h s (by simp)⟩
  cases s with
  | rule id => exact nullable_of_finished hg h
  | terminal id => simp [symbolNullable] at h

end Finished

theorem Built.wellFormed {g : Grammar} (h : g.Built) : g.WellFormed := by
  obtain ⟨b, hb, hbuild⟩ := h
  obtain ⟨first, -, hg, -⟩ := GrammarBuilder.exists_of_build hbuild
  obtain ⟨hsc, hstart, heof⟩ := hb.scoped.complete first
  generalize b.complete first = c at hg hsc hstart heof
  obtain ⟨eof, c⟩ := c
  dsimp only at hg hsc hstart heof
  have hrules : g.rules = GrammarBuilder.finishRules c.terminals (c.drafts.map (·.rule)) := by rw [hg]
  have hterm : g.terminals = c.terminals := by rw [hg]
  have halt : ∀ id symbols, c.HasOnly id symbols →
      ∃ a, (g.rule id).alternatives = #[a] ∧ a.symbols = symbols := by
    rintro id symbols ⟨d, hd, ha⟩
    obtain ⟨hlt, rfl⟩ := Array.getElem?_eq_some_iff.1 hd
    refine ⟨GrammarBuilder.finishAlternative (nullableRules (c.drafts.map (·.rule))) c.terminals
      (.ofSymbols symbols), ?_, rfl⟩
    rw [rule_of_finished hrules (by simpa using hlt)]
    simp [ha]
  have hne : g.start ≠ g.eofRule := by
    rw [hg]
    exact (by decide : GrammarBuilder.startId ≠ GrammarBuilder.eofRuleId)
  refine ⟨hne, ?_, ?_, fun rule a ha t ht => ?_, fun rule => ?_, ?_, fun rule a ha => ?_⟩
  · have := halt _ _ hstart
    subst hg
    exact this
  · have := halt _ _ heof
    subst hg
    exact this
  · obtain ⟨a₀, ha₀, rfl⟩ := (mem_alternatives_of_finished hrules).1 ha
    by_cases hlt : rule < c.drafts.size
    · rw [hterm]
      refine hsc.terminal_lt rule c.drafts[rule] (Array.getElem?_eq_getElem hlt) a₀ ?_ t ht
      simpa [Array.getD, hlt] using ha₀
    · simp [Array.getD, hlt] at ha₀
  · rw [isNullable_of_finished hrules]
    exact symbolNullable_iff_of_finished hrules (s := .rule rule)
  · intro rule a ha k
    obtain ⟨a₀, ha₀, rfl⟩ := (mem_alternatives_of_finished hrules).1 ha
    simp only [GrammarBuilder.finishAlternative]
    rw [nullableSuffixStart_le_iff, nullable_iff_forall]
    simp only [symbolNullable_iff_of_finished hrules]
  · obtain ⟨a₀, ha₀, rfl⟩ := (mem_alternatives_of_finished hrules).1 ha
    rw [hterm]
    rfl

/-! ## An example -/

/-- Calls for the grammar of one or more `a`, which derives all but the shortest texts in many
ways. -/
def listBuilder : GrammarBuilder :=
  ((GrammarBuilder.new.internRule "list" .normal).2.literal "a").2
    |>.addAlternative 2 [.rule 2, .rule 2]
    |>.addAlternative 2 [.terminal 0]

/-- What they build. -/
def list : Grammar where
  rules := #[⟨startRuleName, .start, #[⟨[.rule 2, .rule 1], 2, none⟩], false⟩,
    ⟨"Token-EOF", .tokenClass, #[⟨[.terminal 1], 1, none⟩], false⟩,
    ⟨"list", .normal, #[⟨[.rule 2, .rule 2], 2, none⟩, ⟨[.terminal 0], 1, none⟩], false⟩]
  terminals := #[.ofText "a", .ofClass eofClass ""]
  start := 0
  first := 2
  eofRule := 1
  eof := 1

theorem list_built : list.Built := by
  refine ⟨listBuilder, ?_, by decide +kernel⟩
  have h := (GrammarBuilder.Made.new.internRule "list" .normal).literal "a"
  refine (h.addAlternative 2 [.rule 2, .rule 2] ?_).addAlternative 2 [.terminal 0] ?_
  · simp
  · intro t ht
    obtain rfl : t = 0 := by simpa using ht
    decide +kernel

/-- Rules outside the table have no alternatives. -/
theorem forall_alternatives_of_lt {g : Grammar} {P : RuleId → Alternative → Prop}
    (h : ∀ rule < g.rules.size, ∀ a ∈ (g.rule rule).alternatives, P rule a) (rule : RuleId) :
    ∀ a ∈ (g.rule rule).alternatives, P rule a := by
  intro a ha
  by_cases hr : rule < g.rules.size
  · exact h rule hr a ha
  · rw [Grammar.rule, Array.getD_of_size_le (Nat.not_lt.1 hr)] at ha
    simp at ha

theorem list_avoidsStart : list.AvoidsStart := forall_alternatives_of_lt (by decide)

theorem list_not_cyclic : ¬ list.Cyclic := by
  -- no alternative is a single rule
  have hunit : ∀ A, ∀ a ∈ (list.rule A).alternatives, (a.symbols.length == 1 && a.symbols.all
      fun x => x.rule?.isSome) = false := forall_alternatives_of_lt (by decide)
  refine not_cyclic_of_rank (forall_alternatives_of_lt (by decide)) (fun _ => 0)
    fun A a ha B hB => ?_
  have := hunit A a ha
  rw [hB] at this
  cases this

end Grammar

end ParseForest
