import ParseForest.Proofs.Grammar.Effects

/-!
# Listings of built grammars

Building puts the end of input, the token classes and the rule that accepts into the listing of the builder
(`GrammarBuilder.finishing`), and the grammar has this listing. So a grammar is known by what has been
written into its builder, whatever the numbers of its rules and terminals are (`Grammar.listing_of_build`).
-/

namespace ParseForest

namespace GrammarBuilder

variable {b b' b'' : GrammarBuilder} {s : Symbol} {x : NamedSymbol} {symbols : List Symbol}
  {alt : List NamedSymbol} {id : RuleId} {name : String}

/-- The terminal of a token class by what it matches. -/
def classSymbol (className pattern : String) : NamedSymbol :=
  .terminal (.pattern ⟨pattern, "", some className⟩)

theorem classSymbol_ne_empty (className pattern : String) :
    classSymbol className pattern ≠ .empty := by
  simp [classSymbol, NamedSymbol.empty]

theorem Resolved.effect_spliceClass (h : b.Resolved) (className pattern : String) :
    Effect b [.supply (tokenRuleName className) [[classSymbol className pattern]]]
      (b.spliceClass className pattern) := by
  obtain ⟨hrule, hid⟩ := h.effect_internRule (tokenRuleName className) .tokenClass
  obtain ⟨hterminal, ht⟩ := hrule.resolved.effect_internTerminal (.ofClass className pattern)
  refine hrule.trans (hrule.resolved.effect_supply hid fun _ => ?_)
  exact hterminal.trans (hterminal.resolved.effect_addAlternative (hterminal.grows _ _ hid)
    (stands_singleton ht (classSymbol_ne_empty _ _)))

theorem Resolved.effect_spliceClasses (h : b.Resolved) (classes : List (String × String)) :
    Effect b (classes.map fun c => .supply (tokenRuleName c.1) [[classSymbol c.1 c.2]])
      (classes.foldl (fun b (name, pattern) => b.spliceClass name pattern) b) := by
  induction classes generalizing b with
  | nil => exact .refl h
  | cons c classes ih =>
    have hc := h.effect_spliceClass c.1 c.2
    exact hc.trans (ih hc.resolved)

/-- What finishing does to the listing: the end of input, the token classes that are not written, and the
rule that accepts. -/
def finishing (classes : List (String × String)) (first : String) : List Change :=
  .replace (tokenRuleName eofClass) [[classSymbol eofClass ""]] ::
    classes.map (fun c => .supply (tokenRuleName c.1) [[classSymbol c.1 c.2]]) ++
    [.replace startRuleName [[.rule first, .rule (tokenRuleName eofClass)]]]

theorem Resolved.complete (h : b.Resolved) {first : RuleId} {firstName : String}
    (hfirst : b.named? (.rule first) = some (.rule firstName)) :
    (b.complete first).2.Resolved ∧ b.Grows (b.complete first).2 ∧
      (b.complete first).2.named? (.terminal (b.complete first).1) = some (classSymbol eofClass "") ∧
      (b.complete first).2.listing =
        Change.amendAll b.listing (finishing b.tokenClasses.toList firstName) := by
  obtain ⟨hterminal, ht⟩ := h.effect_internTerminal (.ofClass eofClass "")
  have heof := hterminal.trans (hterminal.resolved.effect_setOnly hterminal.resolved.eofRule
    (stands_singleton ht (classSymbol_ne_empty eofClass "")))
  obtain ⟨hresolved, hgrows, hlisting⟩ := @Resolved.of_eq _ { (b.internTerminal
    (.ofClass eofClass "")).2.setOnly eofRuleId [.terminal (b.internTerminal (.ofClass eofClass "")).1]
    with tokenClasses := #[] } heof.resolved rfl rfl rfl
  have hclasses := hresolved.effect_spliceClasses b.tokenClasses.toList
  have hnamed := hclasses.grows _ _ (hgrows _ _ (heof.grows _ _ hfirst))
  have hrest := hclasses.trans (hclasses.resolved.effect_setOnly hclasses.resolved.start
    (.cons ⟨hnamed, by simp [NamedSymbol.empty]⟩
      (.cons ⟨hclasses.resolved.eofRule, by simp [NamedSymbol.empty]⟩ .nil)))
  have hcomplete : (b.complete first).2 = setOnly (b.tokenClasses.toList.foldl
      (fun b (name, pattern) => b.spliceClass name pattern) { (b.internTerminal
        (.ofClass eofClass "")).2.setOnly eofRuleId
          [.terminal (b.internTerminal (.ofClass eofClass "")).1] with tokenClasses := #[] })
      startId [.rule first, .rule eofRuleId] := by
    rw [GrammarBuilder.complete, Array.foldl_toList]
    simp only [setOnly, hterminal.classes]
  rw [hcomplete]
  refine ⟨hrest.resolved, heof.grows.trans (hgrows.trans hrest.grows), ?_, ?_⟩
  · refine hrest.grows _ _ (hgrows _ _ ?_)
    exact ht
  rw [hrest.listing, hlisting, heof.listing, ← Change.amendAll_append]
  rfl

/-- Finishing is about `#S` and token classes. -/
theorem of_mem_finishing {classes : List (String × String)} {first : String} {c : Change}
    (hc : c ∈ finishing classes first) : c.alternatives ≠ [] ∧
      (c.name = startRuleName ∨ ∃ className, c.name = tokenRuleName className) := by
  simp only [finishing, List.mem_append, List.mem_cons, List.mem_map, List.not_mem_nil, or_false] at hc
  rcases hc with (rfl | ⟨c, -, rfl⟩) | rfl
  · exact ⟨List.cons_ne_nil _ _, .inr ⟨_, rfl⟩⟩
  · exact ⟨List.cons_ne_nil _ _, .inr ⟨_, rfl⟩⟩
  · exact ⟨List.cons_ne_nil _ _, .inl rfl⟩

/-- A builder that knows its first rule answers a grammar if each of its rules has right-hand sides in the end. -/
theorem Resolved.exists_build (h : b.Resolved) {first : RuleId} {firstName : String} (hfirst : b.first = some first)
    (hnamed : b.named? (.rule first) = some (.rule firstName)) (hne : ∀ x ∈ b.heads,
      Change.amendAll b.listing (finishing b.tokenClasses.toList firstName) x.1 ≠ []) : ∃ g, b.build = .ok g := by
  obtain ⟨hc, -, -, hlisting⟩ := h.complete hnamed
  obtain ⟨added, hheads, hadded⟩ := b.heads_complete first
  refine build_eq_ok hfirst fun d hd hempty => ?_
  obtain ⟨id, hid⟩ := Array.mem_iff_getElem?.1 hd
  have hnil : (b.complete first).2.listing d.rule.name = [] := by
    rw [hc.listing_eq hid, sides, hempty]
    rfl
  have hmem := mem_heads_of_draft hd
  rw [hlisting] at hnil
  rw [hheads] at hmem
  rcases List.mem_append.1 hmem with hmem | hmem
  · exact hne _ hmem hnil
  · -- the rule of a token class has been supplied
    obtain ⟨c, hc, he⟩ := hadded _ hmem
    refine Change.amendAll_ne_nil (fun c hc => (of_mem_finishing hc).1) (.inr ⟨.supply (tokenRuleName c.1)
      [[classSymbol c.1 c.2]], ?_, (Prod.mk.inj he).1.symm⟩) hnil
    exact List.mem_append_left _ (.tail _ (List.mem_map.2 ⟨c, hc, rfl⟩))

theorem alternatives_of_new {d : RuleDraft} (hd : d ∈ GrammarBuilder.new.drafts) :
    d.rule.alternatives = #[] := by
  have hnone : ∀ d ∈ GrammarBuilder.new.drafts, d.rule.alternatives = #[] := by
    simp [GrammarBuilder.new, Rule.named]
  exact hnone d hd

/-- A new builder has two rules without right-hand sides. -/
theorem resolved_new : Resolved .new where
  start := rfl
  eofRule := rfl
  first _ h := by cases h
  name_inj {i j d d'} hi hj he := by
    have hcases : ∀ {i : RuleId} {d : RuleDraft}, GrammarBuilder.new.drafts[i]? = some d →
        (i = 0 ∧ d.rule.name = startRuleName) ∨ (i = 1 ∧ d.rule.name = tokenRuleName eofClass) := by
      intro i d hd
      match i with
      | 0 => exact .inl ⟨rfl, by rw [← Option.some.inj hd]; rfl⟩
      | 1 => exact .inr ⟨rfl, by rw [← Option.some.inj hd]; rfl⟩
      | i + 2 => cases hd
    have hne : startRuleName ≠ tokenRuleName eofClass := by decide
    rcases hcases hi with ⟨rfl, hn⟩ | ⟨rfl, hn⟩ <;> rcases hcases hj with ⟨rfl, hn'⟩ | ⟨rfl, hn'⟩
    · rfl
    · exact absurd (hn.symm.trans (he.trans hn')) hne
    · exact absurd (hn'.symm.trans (he.symm.trans hn)) hne
    · rfl
  atom_inj hi := by simp [GrammarBuilder.new] at hi
  stands hd a ha := by simp [alternatives_of_new (Array.mem_of_getElem? hd)] at ha
  nodup hd := by simp [alternatives_of_new (Array.mem_of_getElem? hd)]

theorem listing_new : GrammarBuilder.new.listing = fun _ => [] := by
  funext name
  by_cases hname : ∃ d ∈ GrammarBuilder.new.drafts, d.rule.name = name
  · obtain ⟨d, hd, rfl⟩ := hname
    obtain ⟨id, hid⟩ := Array.mem_iff_getElem?.1 hd
    rw [resolved_new.listing_eq hid, sides, alternatives_of_new hd]
    rfl
  · exact listing_eq_nil fun d hd he => hname ⟨d, hd, he⟩

end GrammarBuilder

namespace Grammar

variable {g : Grammar} {b : GrammarBuilder}

/-- The names and kinds of the rules. -/
def heads (g : Grammar) : List (String × RuleKind) := g.rules.toList.map fun r => (r.name, r.kind)

theorem getElem?_heads_iff {id : RuleId} {x : String × RuleKind} : g.heads[id]? = some x ↔
    id < g.rules.size ∧ ((g.rule id).name, (g.rule id).kind) = x := by
  rw [heads, List.getElem?_map, Array.getElem?_toList]
  by_cases hid : id < g.rules.size <;> simp [rule, Array.getD, hid]

theorem mem_heads_iff {x : String × RuleKind} : x ∈ g.heads ↔
    ∃ id < g.rules.size, ((g.rule id).name, (g.rule id).kind) = x := by
  simp only [List.mem_iff_getElem?, getElem?_heads_iff]

section Finished

variable (hrules : g.rules = GrammarBuilder.finishRules b.terminals (b.drafts.map RuleDraft.rule))
  (hterminals : g.terminals = b.terminals)
include hrules

theorem name_of_finished {id : RuleId} {d : RuleDraft} (hd : b.drafts[id]? = some d) :
    (g.rule id).name = d.rule.name := by
  obtain ⟨hlt, rfl⟩ := Array.getElem?_eq_some_iff.1 hd
  rw [rule_of_finished hrules (by simpa using hlt)]
  simp

theorem heads_of_finished : g.heads = b.heads := by
  refine List.ext_getElem? fun id => ?_
  simp [heads, GrammarBuilder.heads, hrules, GrammarBuilder.finishRules, Function.comp_def]

theorem map_symbols_of_finished {id : RuleId} {d : RuleDraft} (hd : b.drafts[id]? = some d) :
    (g.rule id).alternatives.toList.map Alternative.symbols =
      d.rule.alternatives.toList.map Alternative.symbols := by
  obtain ⟨hlt, rfl⟩ := Array.getElem?_eq_some_iff.1 hd
  rw [rule_of_finished hrules (by simpa using hlt)]
  simp [GrammarBuilder.finishAlternative]

theorem exists_draft_of_finished {id : RuleId} (hid : id < g.rules.size) :
    ∃ d, b.drafts[id]? = some d := by
  rw [size_rules_of_finished hrules, Array.size_map] at hid
  exact ⟨_, Array.getElem?_eq_getElem hid⟩

/-- Right-hand sides are made of symbols that the builder has, none of them the empty literal. -/
theorem named_of_mem_symbols (h : b.Resolved) {id : RuleId} {a : Alternative}
    (ha : a ∈ (g.rule id).alternatives) {s : Symbol} (hs : s ∈ a.symbols) :
    ∃ x, b.named? s = some x ∧ x ≠ .empty := by
  obtain ⟨d, hd⟩ := exists_draft_of_finished hrules (lt_of_mem_alternatives ha)
  obtain ⟨a', ha', hsymbols⟩ := List.mem_map.1
    (map_symbols_of_finished hrules hd ▸ List.mem_map_of_mem (Array.mem_toList_iff.2 ha))
  obtain ⟨alt, halt⟩ := h.stands hd a' (Array.mem_toList_iff.1 ha')
  obtain ⟨x, -, hx⟩ := List.exists_right_of_forall₂ halt (hsymbols ▸ hs)
  exact ⟨x, hx⟩

theorem nodup_symbols_of_finished (h : b.Resolved) (id : RuleId) :
    ((g.rule id).alternatives.toList.map Alternative.symbols).Nodup := by
  by_cases hid : id < g.rules.size
  · obtain ⟨d, hd⟩ := exists_draft_of_finished hrules hid
    exact map_symbols_of_finished hrules hd ▸ h.nodup hd
  · rw [rule, Array.getD_of_size_le (Nat.not_lt.1 hid)]
    exact List.nodup_nil

include hterminals

theorem named_of_finished {s : Symbol} {x : NamedSymbol} (hs : b.named? s = some x) :
    g.named s = x := by
  cases s with
  | rule id =>
    obtain ⟨d, hd, rfl⟩ := Option.map_eq_some_iff.1 hs
    rw [named, name_of_finished hrules hd]
  | terminal id =>
    obtain ⟨t, ht, rfl⟩ := Option.map_eq_some_iff.1 hs
    simp [named, terminal, hterminals, Array.getD_eq_getD_getElem?, ht]

theorem map_named_of_finished {symbols : List Symbol} {alt : List NamedSymbol}
    (hs : b.Stands symbols alt) : symbols.map g.named = alt := by
  induction hs with
  | nil => rfl
  | cons hx _ ih => rw [List.map_cons, named_of_finished hrules hterminals hx.1, ih]

theorem sides_of_finished (h : b.Resolved) {id : RuleId} {d : RuleDraft} (hd : b.drafts[id]? = some d) :
    g.sides id = b.sides d := by
  obtain ⟨hlt, rfl⟩ := Array.getElem?_eq_some_iff.1 hd
  rw [sides, GrammarBuilder.sides, rule_of_finished hrules (by simpa using hlt)]
  simp only [Array.getElem_map, Array.toList_map, List.map_map]
  refine List.map_congr_left fun a ha => ?_
  exact map_named_of_finished hrules hterminals
    (GrammarBuilder.stands_filterMap (h.stands hd a (Array.mem_toList_iff.1 ha)))

/-- A finished grammar has the listing of its builder. -/
theorem listing_of_finished (h : b.Resolved) : g.Resolved ∧ g.listing = b.listing := by
  have hg : g.Resolved := by
    refine ⟨fun {i j} hi hj he => ?_, fun {id} a ha i hi => ?_⟩
    · obtain ⟨d, hd⟩ := exists_draft_of_finished hrules hi
      obtain ⟨d', hd'⟩ := exists_draft_of_finished hrules hj
      rw [name_of_finished hrules hd, name_of_finished hrules hd'] at he
      exact h.name_inj hd hd' he
    · obtain ⟨x, hx, -⟩ := named_of_mem_symbols hrules h ha hi
      obtain ⟨d', hd', -⟩ := Option.map_eq_some_iff.1 hx
      rw [size_rules_of_finished hrules, Array.size_map]
      exact (Array.getElem?_eq_some_iff.1 hd').1
  refine ⟨hg, funext fun name => ?_⟩
  by_cases hname : ∃ d ∈ b.drafts, d.rule.name = name
  · obtain ⟨d, hmem, rfl⟩ := hname
    obtain ⟨id, hd⟩ := Array.mem_iff_getElem?.1 hmem
    have hid : id < g.rules.size := by
      rw [size_rules_of_finished hrules, Array.size_map]
      exact (Array.getElem?_eq_some_iff.1 hd).1
    rw [h.listing_eq hd, ← sides_of_finished hrules hterminals h hd, ← hg.listing_eq hid, name_of_finished hrules hd]
  · rw [GrammarBuilder.listing_eq_nil fun d hd he => hname ⟨d, hd, he⟩]
    refine hg.listing_eq_nil fun id hid he => ?_
    obtain ⟨d, hd⟩ := exists_draft_of_finished hrules hid
    exact hname ⟨d, Array.mem_of_getElem? hd, (name_of_finished hrules hd).symm.trans he⟩

end Finished

/-- A built grammar has the listing of its builder, with the end of input, the token classes and the rule
that accepts put in. -/
theorem listing_of_build (h : b.Resolved) (hb : b.build = .ok g) : g.Resolved ∧
    g.listing = Change.amendAll b.listing
      (GrammarBuilder.finishing b.tokenClasses.toList (g.rule g.first).name) := by
  obtain ⟨first, hfirst, hg, -⟩ := GrammarBuilder.exists_of_build hb
  obtain ⟨firstName, hnamed⟩ := h.first first hfirst
  obtain ⟨hc, hgrows, -, hclisting⟩ := h.complete hnamed
  have hrules : g.rules = GrammarBuilder.finishRules (b.complete first).2.terminals
      ((b.complete first).2.drafts.map RuleDraft.rule) := by rw [hg]
  have hterminals : g.terminals = (b.complete first).2.terminals := by rw [hg]
  obtain ⟨hresolved, hlisting⟩ := listing_of_finished hrules hterminals hc
  have hname := named_of_finished hrules hterminals (hgrows _ _ hnamed)
  have hfirst' : g.first = first := by rw [hg]
  rw [hlisting, hclisting, hfirst', NamedSymbol.rule.inj hname]
  exact ⟨hresolved, rfl⟩

/-- A built grammar has the rules of its builder, and rules of token classes after them. -/
theorem heads_of_build (hb : b.build = .ok g) : ∃ added, g.heads = b.heads ++ added ∧
    ∀ h ∈ added, ∃ c ∈ b.tokenClasses.toList, h = (tokenRuleName c.1, .tokenClass) := by
  obtain ⟨first, -, hg, -⟩ := GrammarBuilder.exists_of_build hb
  have hheads : g.heads = (b.complete first).2.heads := heads_of_finished (by rw [hg])
  rw [hheads]
  exact b.heads_complete first

theorem heads_subset_of_build (hb : b.build = .ok g) : b.heads ⊆ g.heads := by
  obtain ⟨added, hadded, -⟩ := heads_of_build hb
  rw [hadded]
  exact List.subset_append_left _ _

theorem first_of_build (hb : b.build = .ok g) : g.start = GrammarBuilder.startId ∧ b.first = some g.first := by
  obtain ⟨first, hfirst, hg, -⟩ := GrammarBuilder.exists_of_build hb
  rw [hfirst, hg]
  exact ⟨rfl, rfl⟩

/-- No rule of a built grammar is without right-hand sides. -/
theorem alternatives_ne_of_build (hb : b.build = .ok g) :
    ∀ id < g.rules.size, (g.rule id).alternatives ≠ #[] := by
  obtain ⟨first, -, hg, hne⟩ := GrammarBuilder.exists_of_build hb
  have hrules : g.rules = GrammarBuilder.finishRules (b.complete first).2.terminals
      ((b.complete first).2.drafts.map RuleDraft.rule) := by rw [hg]
  intro id hid hempty
  obtain ⟨d, hd⟩ := exists_draft_of_finished hrules hid
  refine hne d (Array.mem_of_getElem? hd) ?_
  obtain ⟨hlt, rfl⟩ := Array.getElem?_eq_some_iff.1 hd
  rw [rule_of_finished hrules (by simpa using hlt)] at hempty
  simpa using hempty

end Grammar

end ParseForest
