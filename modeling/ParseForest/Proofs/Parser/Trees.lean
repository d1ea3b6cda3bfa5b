import ParseForest.Proofs.Forest.Enumerating
import ParseForest.Proofs.Parser.Acyclic
import ParseForest.Proofs.Parser.Answer
import ParseForest.Proofs.Parser.Once

/-!
# The trees of a parse

Where no rule derives itself and candidates are judged by rule, alternative and span alone, the forest
of a parse has every tree of which all rule nodes are accepted, once, and no other
(`Parser.trees_exact`). No accepted tree is missing for no derivation that it needs is turned down
(`Engine.run_of_admitted`); every derivation that was kept has been accepted
(`Arrives.everywhere_admitted`); no list of trees has repetitions (`Formed.nodup_readings`), and the
passes change none of them (`Arrives.passed_eq`, `Arrives.restacks`).
-/

namespace ParseForest

variable {σ : Type}

/-- A derivation tree of the first rule for the tokens, of which the rule nodes that cover tokens are
accepted by all rulings. -/
structure Grammar.IsAdmissible (g : Grammar) (m : TerminalMatcher) (vs : List Ruling)
    (toks : List Token) (t : Tree) : Prop where
  fits : t.Fits g m (.rule g.first)
  leaves_eq : t.leaves = toks
  admitted : t.Everywhere (Tree.Admitted vs) 0

namespace Engine

variable {input : ParseInput σ} {e : Engine σ} {root : NodeId} {vs : List Ruling} {user : σ}
  (hr : input.Ready) (h : Arrives input user e root)
include hr h

/-- The alternatives of what spans tokens have been accepted. -/
theorem Arrives.accepted (hv : input.RuledBy vs) {id p : NodeId} {A B : RuleId} {alt : Nat} {s : Span}
    (hk : (Arena.node e.nodes id).kind = .symbol A) (hs : (Arena.node e.nodes id).span = some s)
    (hp : p ∈ Arena.childrenOf e.nodes id) (hpk : (Arena.node e.nodes p).kind = .packed B alt) :
    Accepted vs A alt s := by
  have hformed := h.formed hr
  have hle := hformed.size_le_of_span hr.epsilon hs
  have hc : (Arena.node e.nodes id).isChoice = true := by rw [Node.isChoice, hk]
  cases h with
  | blank _ _ => exact absurd (Arena.lt_size_of_isChoice hc) (Nat.not_lt.2 hle)
  | levels _ hf _ _ =>
    rcases hformed.alternative_cases hr.epsilon hc hp with ⟨C, alt', hC, -⟩ |
      ⟨-, C, alt', -, children, -, -, hnode, -⟩
    · exact absurd (hr.epsilon.symbol C id hC).1 (Nat.not_lt.2 hle)
    · obtain ⟨rfl, rfl⟩ : C = B ∧ alt' = alt := by
        rw [hnode] at hpk
        exact NodeKind.packed.inj hpk
      have ha : e.nodes.HasAlternative id C alt' children := ⟨hc, p, hp, hnode⟩
      obtain rfl := hformed.rule_eq hk hs ha
      exact (hf.forest.kept hv.policy id C s alt' children hk hs ha).1 rfl

/-- All rule nodes of the trees of a forest have been accepted if they cover tokens. -/
theorem Arrives.everywhere_admitted (ht : input.tokens.EndsOnce) (hv : input.RuledBy vs) {t : Tree}
    (hread : e.nodes.Reads input.grammar input.tokens root t) :
    t.Everywhere (Tree.Admitted vs) 0 := by
  have hbacked := (h.formed hr).backed
  refine (hbacked.everywhere_of_reads (P := Tree.Admitted vs) ?_).1 root t hread _ _ _ (h.stands hr ht)
  intro id p A B alt l r ts hstands hp hpk hts hne
  obtain rfl := (hbacked.spans_of_stands hstands (.rule hstands.1 hp hpk hts)).2.2
  -- only what spans tokens covers any
  rcases hstands.2 with hs | ⟨-, he⟩
  · simpa only [Tree.leaves] using h.accepted hr hv hstands.1 hs hp hpk
  · simp only [Tree.leaves] at he
    exact absurd (List.length_eq_zero_iff.1 (by omega)) hne

/-- After alternatives have been taken away the passes change no list of trees. -/
theorem Arrives.restacks {nodes : Arena} (htrimmed : TrimmedTo input e root nodes)
    {rank : NodeId → Nat} (hrank : e.nodes.Ranked rank) :
    Pass.Restacks input.grammar input.tokens rank nodes (passed input e root) := by
  obtain ⟨htrims, hpassed⟩ := htrimmed
  have hranked := hrank.trims htrims
  have hl := (h.layered hr).trims htrims
  have hε : (Arena.node nodes epsilonId).kind = .epsilon := by
    rw [htrims.kind_eq, (h.formed hr).backed.epsilon]
  rcases hpassed with he | he <;> rw [he]
  · exact ⟨.refl nodes, hranked, hl, fun _ => rfl⟩
  · exact Pass.restacks_collapse_linkParents hranked hl hε

/-- What the passes leave of the trees for which the root stands is listed by the engine too, in the same
order. -/
theorem Arrives.allReadings_sublist {nodes : Arena} (htrimmed : TrimmedTo input e root nodes)
    (hcyclic : ¬ input.grammar.Cyclic) :
    ((passed input e root).allReadings input.grammar input.tokens root).Sublist
      (e.nodes.allReadings input.grammar input.tokens root) := by
  obtain ⟨rank, hrank⟩ := (h.formed hr).exists_ranked hr.epsilon hr.wellFormed hcyclic
  rw [(h.restacks hr htrimmed hrank).readings, Arena.allReadings, Arena.allReadings,
    htrimmed.1.size_eq]
  exact Pass.readings_sublist htrimmed.1 _ root

/-- The passes leave only trees for which the root stood. -/
theorem Arrives.reads_of_passed (ht : input.tokens.EndsOnce) {nodes : Arena}
    (htrimmed : TrimmedTo input e root nodes) (hcyclic : ¬ input.grammar.Cyclic) {t : Tree}
    (hread : (passed input e root).Reads input.grammar input.tokens root t) :
    e.nodes.Reads input.grammar input.tokens root t := by
  obtain ⟨rank, hrank⟩ := (h.formed hr).exists_ranked hr.epsilon hr.wellFormed hcyclic
  have hrestacks := h.restacks hr htrimmed hrank
  have hk := (h.stands hr ht).1
  have hk' := (hrestacks.kind_eq root).trans ((htrimmed.1.kind_eq root).trans hk)
  have hmem := (Arena.mem_allReadings_iff hrestacks.ranked hrestacks.layered (.inr ⟨_, hk'⟩)).2 hread
  exact (Arena.mem_allReadings_iff hrank (h.layered hr) (.inr ⟨_, hk⟩)).1
    ((h.allReadings_sublist hr htrimmed hcyclic).subset hmem)

/-- Where no rule derives itself, the passes leave the trees that are left when alternatives have been
taken away, and the forest lists them as long as its count is below the limit. -/
theorem Arrives.reads_passed_iff (ht : input.tokens.EndsOnce) (hcyclic : ¬ input.grammar.Cyclic)
    {nodes : Arena} (htrimmed : TrimmedTo input e root nodes) {f : Forest}
    (hf : f = ⟨passed input e root, root, input.tokens, input.grammar, e.stats⟩) (t : Tree) :
    (f.nodes.Reads f.grammar f.tokens f.root t ↔ nodes.Reads input.grammar input.tokens root t) ∧
      (f.treeCount < countLimit → (t ∈ f.trees ↔ f.nodes.Reads f.grammar f.tokens f.root t)) := by
  subst hf
  have hformed := h.formed hr
  obtain ⟨rank, hrank⟩ := hformed.exists_ranked hr.epsilon hr.wellFormed hcyclic
  have hrestacks := h.restacks hr htrimmed hrank
  have htrims := htrimmed.1
  have hk := (htrims.kind_eq root).trans (h.stands hr ht).1
  have hk' := (hrestacks.kind_eq root).trans hk
  refine ⟨?_, fun hcount => Forest.mem_trees_iff hrestacks.ranked hrestacks.layered
    (fun id i hid => ?_) hk' hcount⟩
  · rw [← Arena.mem_allReadings_iff (hrank.trims htrims) ((h.layered hr).trims htrims) (.inr ⟨_, hk⟩),
      ← hrestacks.readings,
      Arena.mem_allReadings_iff hrestacks.ranked hrestacks.layered (.inr ⟨_, hk'⟩)]
  · exact hformed.lt_length_of_terminal
      ((htrims.kind_eq id).symm.trans ((hrestacks.kind_eq id).symm.trans hid))

/-- The forest enumerates the trees that are left when alternatives have been taken away, as far as there
are numbers. -/
theorem Arrives.map_trees_eq_take (ht : input.tokens.EndsOnce) (hcyclic : ¬ input.grammar.Cyclic)
    {nodes : Arena} (htrimmed : TrimmedTo input e root nodes) {f : Forest}
    (hf : f = ⟨passed input e root, root, input.tokens, input.grammar, e.stats⟩) :
    f.trees.map (fun t => [t]) =
      (nodes.allReadings input.grammar input.tokens root).take countLimit := by
  subst hf
  have hformed := h.formed hr
  obtain ⟨rank, hrank⟩ := hformed.exists_ranked hr.epsilon hr.wellFormed hcyclic
  have hrestacks := h.restacks hr htrimmed hrank
  have hk := (htrimmed.1.kind_eq root).trans (h.stands hr ht).1
  rw [← hrestacks.readings]
  refine Forest.map_trees_eq_take hrestacks.ranked hrestacks.layered (fun id i hid => ?_)
    ((hrestacks.kind_eq root).trans hk)
  exact hformed.lt_length_of_terminal
    ((htrimmed.1.kind_eq id).symm.trans ((hrestacks.kind_eq id).symm.trans hid))

/-- The forest enumerates no tree twice. -/
theorem Arrives.nodup_trees (ht : input.tokens.EndsOnce) (hcyclic : ¬ input.grammar.Cyclic)
    {nodes : Arena} (htrimmed : TrimmedTo input e root nodes) {f : Forest}
    (hf : f = ⟨passed input e root, root, input.tokens, input.grammar, e.stats⟩) : f.trees.Nodup := by
  refine .of_map (fun t => [t]) ?_
  rw [h.map_trees_eq_take hr ht hcyclic htrimmed hf]
  refine ((List.take_sublist _ _).trans ?_).nodup
    ((h.formed hr).nodup_readings hr (h.distinct hr) (e.nodes.size + 1) root)
  rw [Arena.allReadings, htrimmed.1.size_eq]
  exact Pass.readings_sublist htrimmed.1 _ root

/-- Where no rule derives itself, a forest lists the trees for which its root stands, without
repetitions, and enumerates this list as far as there are numbers. -/
theorem Arrives.lists (ht : input.tokens.EndsOnce) (hv : input.RuledBy vs)
    (hcyclic : ¬ input.grammar.Cyclic) {f : Forest}
    (hf : f = ⟨passed input e root, root, input.tokens, input.grammar, e.stats⟩) :
    ∃ ts : List Tree, ts.Nodup ∧ (∀ t, t ∈ ts ↔ e.nodes.Reads input.grammar input.tokens root t) ∧
      (ts.length ≤ countLimit → f.trees = ts) := by
  have hformed := h.formed hr
  obtain ⟨rank, hrank⟩ := hformed.exists_ranked hr.epsilon hr.wellFormed hcyclic
  have hk := (h.stands hr ht).1
  have hl := h.layered hr
  -- the list of the root has a single tree in every place
  obtain ⟨ts, hts⟩ : e.nodes.allReadings input.grammar input.tokens root ∈
      Set.range (List.map fun t => [t]) := by
    rw [Set.range_list_map]
    intro x hx
    obtain ⟨-, -, -, -, -, -, -, rfl⟩ := (Arena.mem_readings_symbol_iff hl hk).1 hx
    exact ⟨_, rfl⟩
  have hinj : Function.Injective fun t : Tree => [t] := fun _ _ heq => (List.cons.inj heq).1
  refine ⟨ts, ?_, fun t => ?_, fun hlimit => ?_⟩
  · refine List.Nodup.of_map (fun t => [t]) ?_
    rw [hts]
    exact hformed.nodup_readings hr (h.distinct hr) _ root
  · rw [← Arena.mem_allReadings_iff hrank hl (.inr ⟨_, hk⟩), ← hts, List.mem_map_of_injective hinj]
  · obtain ⟨nodes, htrimmed, hreadings⟩ := h.passed_eq hr hv
    have htake := h.map_trees_eq_take hr ht hcyclic htrimmed hf
    rw [Arena.allReadings, hreadings, htrimmed.1.size_eq, ← Arena.allReadings, ← hts, ← List.map_take,
      List.take_of_length_le hlimit] at htake
    exact hinj.list_map htake

end Engine

/-! ## The trees of three items -/

/-- A tree for items is a single one, or two trees for items. -/
theorem Tree.IsItems.cases {n : Nat} {t : Tree} (h : t.IsItems n) :
    (n = 1 ∧ t = .rule "list" 2 1 [.token .item]) ∨ ∃ i j t₁ t₂, i + j = n ∧
      t = .rule "list" 2 0 [t₁, t₂] ∧ t₁.IsItems i ∧ t₂.IsItems j := by
  obtain ⟨hfits, hleaves⟩ := h
  cases hfits with
  | @rule _ alt children halt hchildren =>
    match alt, halt with
    | 0, _ =>
      obtain _ | ⟨h₁, _ | ⟨h₂, ⟨⟩⟩⟩ := hchildren
      simp only [leaves, leavesOfAll, List.append_nil] at hleaves
      obtain ⟨hn, hl₁, hl₂⟩ := List.append_eq_replicate_iff.1 hleaves
      exact .inr ⟨_, _, _, _, hn, rfl, ⟨h₁, hl₁⟩, ⟨h₂, hl₂⟩⟩
    | 1, _ =>
      obtain _ | ⟨⟨⟩, ⟨⟩⟩ := hchildren
      obtain ⟨hn, hitem⟩ := List.eq_replicate_iff.1 hleaves
      obtain rfl := hitem _ (List.mem_singleton_self _)
      exact .inl ⟨hn.symm, rfl⟩

/-- A tree for items has some. -/
theorem Tree.IsItems.pos {n : Nat} {t : Tree} (h : t.IsItems n) : 0 < n := by
  have hnull : ¬ Grammar.list.Nullable [.rule 2] := fun h =>
    absurd (h.length_le (Grammar.forall_alternatives_of_lt (by decide))) (by decide)
  refine Nat.pos_of_ne_zero ?_
  rintro rfl
  exact hnull (Tree.nullable_of_leaves.1 t _ h.fits h.leaves_eq)

/-- A single item has one tree. -/
theorem Tree.IsItems.eq_one {t : Tree} (h : t.IsItems 1) : t = .rule "list" 2 1 [.token .item] := by
  rcases h.cases with ⟨-, rfl⟩ | ⟨i, j, t₁, t₂, hn, -, h₁, h₂⟩
  · rfl
  · have := h₁.pos
    have := h₂.pos
    omega

/-- Two items have one tree. -/
theorem Tree.IsItems.eq_two {t : Tree} (h : t.IsItems 2) :
    t = .rule "list" 2 0 [.rule "list" 2 1 [.token .item], .rule "list" 2 1 [.token .item]] := by
  rcases h.cases with ⟨hn, -⟩ | ⟨i, j, t₁, t₂, hn, rfl, h₁, h₂⟩
  · cases hn
  · have := h₁.pos
    have := h₂.pos
    obtain ⟨rfl, rfl⟩ : i = 1 ∧ j = 1 := by omega
    rw [h₁.eq_one, h₂.eq_one]

/-- Three items are put together from the left or from the right. -/
theorem Tree.IsItems.eq_three {t : Tree} (h : t.IsItems 3) :
    t = threeItems true ∨ t = threeItems false := by
  rcases h.cases with ⟨hn, -⟩ | ⟨i, j, t₁, t₂, hn, rfl, h₁, h₂⟩
  · cases hn
  · have := h₁.pos
    have := h₂.pos
    obtain ⟨rfl, rfl⟩ | ⟨rfl, rfl⟩ : (i = 2 ∧ j = 1) ∨ (i = 1 ∧ j = 2) := by omega
    · exact .inl (by rw [h₁.eq_two, h₂.eq_one]; rfl)
    · exact .inr (by rw [h₁.eq_one, h₂.eq_two]; rfl)

namespace Parser

/-- The forest of three items lists both trees. -/
theorem exists_trees_threeItems : ∃ c f, CompiledGrammar.ofGrammar .list .empty = .ok c ∧
    (parseTokens ⟨c, plainConfig, ([] : List (Disambiguator Unit))⟩ (.items 3) ()).1 = .ok f ∧
    f.trees.Nodup ∧ ∀ t, t ∈ f.trees ↔ t = .threeItems true ∨ t = .threeItems false := by
  obtain ⟨c, f, start, e, root, hc, -, hf, -, harr, hfinish, -, -, hreads⟩ :=
    exists_parse_items (n := 3) (by decide) (by decide)
  obtain ⟨ht, -⟩ := TokenStream.items_endsOnce 3
  obtain ⟨hg, -⟩ := CompiledGrammar.parts_of_ofGrammar hc
  have hr := CompiledGrammar.ready Grammar.list_built hc plainConfig ([] : List (Disambiguator Unit))
    (.items 3)
  have hcyclic : ¬ c.grammar.Cyclic := hg ▸ Grammar.list_not_cyclic
  obtain ⟨ts, hnodup, hmem, htrees⟩ := harr.lists hr ht
    (show ParseInput.RuledBy _ [] from ⟨rfl, rfl, .nil⟩) hcyclic
    ((harr.finish_eq_ok_iff hr ht).1 hfinish).1
  have hall : ∀ t, t ∈ ts ↔ t = .threeItems true ∨ t = .threeItems false := fun t => by
    rw [hmem t, ParseInput.grammar, hg, hreads t]
    refine ⟨Tree.IsItems.eq_three, ?_⟩
    rintro (rfl | rfl) <;> exact Tree.isItems_threeItems _
  have hle : ts.length ≤ [Tree.threeItems true, Tree.threeItems false].length :=
    (List.subperm_of_subset hnodup fun t ht => by simpa using (hall t).1 ht).length_le
  have hlist := htrees (hle.trans (by decide))
  exact ⟨c, f, hc, hf, hlist ▸ hnodup, hlist ▸ hall⟩

end Parser

/-! ## The trees of a parse -/

namespace Parser

variable {g : Grammar} {lexer : LexerDescription} {c : CompiledGrammar} {config : ParserConfig}
  {user : List (Disambiguator σ)} {tokens : TokenStream} {s : σ} {f : Forest} {vs : List Ruling}

/-- Every tree of a forest that a parse answers is a derivation tree of the first rule for exactly
this input, whatever the settings and the disambiguators. -/
theorem trees_sound (hg : g.Built) (hc : CompiledGrammar.ofGrammar g lexer = .ok c)
    (ht : tokens.EndsOnce) (hf : (parseTokens ⟨c, config, user⟩ tokens s).1 = .ok f) (t : Tree)
    (h : (∃ i, f.treeAt? i = some t) ∨ ∃ n, t ∈ f.firstTrees n) :
    t.Fits g c.matcher (.rule g.first) ∧ t.leaves = tokens.content := by
  obtain ⟨e, root, harr, rfl, -⟩ := arrives_of_ok hg hc ht hf
  obtain ⟨rfl, -⟩ := CompiledGrammar.parts_of_ofGrammar hc
  refine harr.fits (CompiledGrammar.ready hg hc config user tokens) ht ?_
  rcases h with ⟨i, hi⟩ | ⟨n, hn⟩
  · exact Forest.reads_of_treeAt? hi
  · exact Forest.reads_of_mem_firstTrees hn

/-- The trees of three items have three items, and the forest has both. -/
theorem trees_sound_items : ∃ c f, CompiledGrammar.ofGrammar .list .empty = .ok c ∧
    (parseTokens ⟨c, plainConfig, ([] : List (Disambiguator Unit))⟩ (.items 3) ()).1 = .ok f ∧
    (∀ fromLeft, .threeItems fromLeft ∈ f.trees) ∧
    ∀ t, (∃ i, f.treeAt? i = some t) ∨ (∃ n, t ∈ f.firstTrees n) →
      t.Fits .list c.matcher (.rule 2) ∧ t.leaves = [.item, .item, .item] := by
  obtain ⟨c, f, hc, hf, -, hmem⟩ := exists_trees_threeItems
  obtain ⟨ht, hcontent, -⟩ := TokenStream.items_endsOnce 3
  refine ⟨c, f, hc, hf, fun fromLeft => (hmem _).2 (by cases fromLeft <;> simp), fun t h => ?_⟩
  obtain ⟨hfits, hleaves⟩ := trees_sound Grammar.list_built hc ht hf t h
  exact ⟨hfits, hleaves.trans hcontent⟩

/-- Without the built-in rules, and where no rule derives itself, a parse whose disambiguators go by
rule, alternative and span finds every admissible tree, once, and no other tree, as long as the trees
can be numbered; and if there is none, it fails. -/
theorem trees_exact (hg : g.Built) (hs : g.AvoidsStart) (hcyclic : ¬ g.Cyclic)
    (hc : CompiledGrammar.ofGrammar g lexer = .ok c) (hprecedence : config.precedence = false)
    (hgreedy : config.greedy = false) (huser : List.Forall₂ Disambiguator.GoesBy user vs)
    (ht : tokens.EndsOnce) (heof : Accepted vs g.eofRule 0 ⟨tokens.length - 1, tokens.length⟩)
    (hlimits : WithinLimits ⟨c, config, user⟩ tokens s) :
    ((∃ t, g.IsAdmissible c.matcher vs tokens.content t) →
      ∃ f, (parseTokens ⟨c, config, user⟩ tokens s).1 = .ok f ∧
        ((∀ ts : List Tree, ts.Nodup → (∀ t ∈ ts, g.IsAdmissible c.matcher vs tokens.content t) →
            ts.length < 2 ^ 64) →
          f.trees.Nodup ∧ ∀ t, t ∈ f.trees ↔ g.IsAdmissible c.matcher vs tokens.content t)) ∧
    ((¬ ∃ t, g.IsAdmissible c.matcher vs tokens.content t) →
      ∃ err, (parseTokens ⟨c, config, user⟩ tokens s).1 = .error err) := by
  obtain ⟨rfl, -⟩ := CompiledGrammar.parts_of_ofGrammar hc
  obtain ⟨hlength, hstack⟩ := hlimits
  have hr := CompiledGrammar.ready hg hc config user tokens
  have hv : ParseInput.RuledBy ⟨c, config, user, tokens⟩ vs := ⟨hprecedence, hgreedy, huser⟩
  obtain ⟨last, hend⟩ := CompiledGrammar.endsWith hc ht config user
  -- what the root stands for is admissible
  have hadmissible : ∀ {e root t}, Engine.Arrives ⟨c, config, user, tokens⟩ s e root →
      e.nodes.Reads c.grammar tokens root t →
      c.grammar.IsAdmissible c.matcher vs tokens.content t := by
    intro e root t harr hread
    obtain ⟨hfits, hspans⟩ := (harr.formed hr).backed.spans_of_stands (harr.stands hr ht) hread
    obtain ⟨hfits, hleaves⟩ := ParseInput.isParse_iff.1 ⟨hfits, hspans⟩
    exact ⟨hfits, hleaves, harr.everywhere_admitted hr ht hv hread⟩
  rw [parseTokens, ht.ensureEof_eq] at hstack ⊢
  have hrun : ∀ {t}, c.grammar.IsAdmissible c.matcher vs tokens.content t → ∃ e root,
      Engine.Arrives ⟨c, config, user, tokens⟩ s e root ∧
      e.nodes.Reads c.grammar tokens root t ∧ (Engine.run ⟨c, config, user, tokens⟩ s).1 =
        .ok ⟨Engine.passed ⟨c, config, user, tokens⟩ e root, root, tokens, c.grammar, e.stats⟩ :=
    fun ht' => Engine.run_of_admitted hr hs ht hend hv heof hlength hstack
      (ParseInput.isParse_iff.2 ⟨ht'.fits, ht'.leaves_eq⟩) ht'.admitted
  constructor
  · rintro ⟨t₀, ht₀⟩
    obtain ⟨e, root, harr, -, he⟩ := hrun ht₀
    generalize hf : (⟨Engine.passed ⟨c, config, user, tokens⟩ e root, root, tokens, c.grammar,
      e.stats⟩ : Forest) = f at he
    refine ⟨f, he, fun hfew => ?_⟩
    obtain ⟨ts, hnodup, hmem, htrees⟩ := harr.lists hr ht hv hcyclic hf.symm
    have hlength : ts.length ≤ countLimit :=
      Nat.le_of_lt_succ (hfew ts hnodup fun t ht' => hadmissible harr ((hmem t).1 ht'))
    rw [htrees hlength]
    refine ⟨hnodup, fun t => ⟨fun ht' => hadmissible harr ((hmem t).1 ht'), fun ht' => ?_⟩⟩
    -- the parse is the same for every tree
    obtain ⟨e', root', harr', hread', he'⟩ := hrun ht'
    obtain ⟨ts', hnodup', hmem', htrees'⟩ := harr'.lists hr ht hv hcyclic
      (Except.ok.inj (he.symm.trans he'))
    have hlength' : ts'.length ≤ countLimit :=
      Nat.le_of_lt_succ (hfew ts' hnodup' fun t ht' => hadmissible harr' ((hmem' t).1 ht'))
    rw [← htrees hlength, htrees' hlength']
    exact (hmem' t).2 hread'
  · intro hnone
    cases hresult : (Engine.run ⟨c, config, user, tokens⟩ s).1 with
    | error err => exact ⟨err, rfl⟩
    | ok f =>
      have hok : (parseTokens ⟨c, config, user⟩ tokens s).1 = .ok f := by
        rw [parseTokens, ht.ensureEof_eq]
        exact hresult
      obtain ⟨e, root, harr, -⟩ := arrives_of_ok hg hc ht hok
      obtain ⟨t, hread⟩ := harr.exists_reads hr ht hv.prompt
      exact absurd ⟨t, hadmissible harr hread⟩ hnone

/-- The first two items are not to be put together. -/
def firstApart : Ruling := fun _ alt s => !(alt == 0 && s == ⟨0, 2⟩)

/-- If the first two of three items are kept apart, one tree is left. -/
theorem trees_exact_items : ∃ c f, CompiledGrammar.ofGrammar .list .empty = .ok c ∧
    (parseTokens ⟨c, plainConfig, [fun d (u : Unit) => (firstApart d.rule d.alt d.span, u)]⟩
      (.items 3) ()).1 = .ok f ∧ f.trees = [.threeItems false] := by
  obtain ⟨c, hc, hm, hsize⟩ := CompiledGrammar.exists_list
  obtain ⟨ht, hcontent, hlength⟩ := TokenStream.items_endsOnce 3
  have hadmissible : ∀ t, Grammar.list.IsAdmissible c.matcher [firstApart] [.item, .item, .item] t ↔
      t = .threeItems false := by
    intro t
    rw [hm]
    constructor
    · rintro ⟨hfits, hleaves, hall⟩
      rcases Tree.IsItems.eq_three ⟨hfits, hleaves⟩ with rfl | rfl
      · -- the first two items are put together
        exact absurd (hall.2.1.1 (by decide) _ (List.mem_singleton_self _)) (by decide)
      · rfl
    · rintro rfl
      obtain ⟨hfits, hleaves⟩ := Tree.isItems_threeItems false
      refine ⟨hfits, hleaves, ?_⟩
      simp [Tree.threeItems, Tree.Everywhere, Tree.EverywhereAll, Tree.Admitted, Accepted, firstApart,
        Tree.leaves, Tree.leavesOfAll]
  have heof : Accepted [firstApart] Grammar.list.eofRule 0
      ⟨(TokenStream.items 3).length - 1, (TokenStream.items 3).length⟩ := by
    intro v hv
    obtain rfl := List.mem_singleton.1 hv
    rw [hlength]
    decide
  obtain ⟨f, hf, hexact⟩ := (trees_exact Grammar.list_built Grammar.list_avoidsStart
    Grammar.list_not_cyclic hc rfl rfl (.cons (fun _ _ => rfl) .nil) ht heof
    (withinLimits_items hc hsize (by decide)
      [fun d (u : Unit) => (firstApart d.rule d.alt d.span, u)] ())).1
    ⟨_, by rw [hcontent]; exact (hadmissible _).2 rfl⟩
  rw [hcontent] at hexact
  obtain ⟨hnodup, hmem⟩ := hexact fun ts hts hall => by
    have hone : ts ⊆ [.threeItems false] := fun t ht' =>
      List.mem_singleton.2 ((hadmissible t).1 (hall t ht'))
    exact Nat.lt_of_le_of_lt (List.subperm_of_subset hts hone).length_le (by decide)
  refine ⟨c, f, hc, hf, ?_⟩
  exact List.perm_singleton.1 ((List.perm_ext_iff_of_nodup hnodup (List.nodup_singleton _)).2 fun t => by
    rw [hmem t, List.mem_singleton]
    exact hadmissible t)

end Parser

end ParseForest
