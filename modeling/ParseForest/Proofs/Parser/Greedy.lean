import ParseForest.Proofs.Forest.Longest
import ParseForest.Proofs.Parser.Existence
import ParseForest.Proofs.Parser.Trees

/-!
# Greedy lists reject nothing

Without precedence and disambiguators a candidate is only turned down because a greedier one is there
already, so judging is lenient (`ParseInput.lenient_of_plain`), and every node that is made keeps an
alternative: while the parse goes on, and through the passes afterwards. So whether a parse answers a
forest does not depend on greedy lists (`Parser.greedy_refines`). With greedy lists the forest has a
tree, and all trees for which its root stands are among those of the forest without.

Only as many trees are enumerated as can be numbered. Where there are more, those that greedy lists leave
need not be the first ones of the forest without (`Parser.greedy_lists_other_tree`).
-/

namespace ParseForest

variable {σ : Type}

/-- A candidate is only greedily turned down for one that is there already. -/
theorem ParseInput.lenient_of_plain {input : ParseInput σ} (hprecedence : input.config.precedence = false)
    (huser : input.user = []) : input.Lenient := by
  have hbuiltIn : ∀ c, input.pipeline.builtIn c = if input.pipeline.greedy && !Arena.greedyAllows
      c.grammar c.nodes c.sequences (c.existing.map Prod.snd) then .reject else .accept := fun c => by
    simp only [Pipeline.builtIn, pipeline, hprecedence, Bool.false_and, Bool.false_eq_true, if_false]
  refine ⟨fun c s => ?_, fun c s hnot hnil => hnot ?_⟩
  · rw [Pipeline.judge_fst huser, hbuiltIn]
    split <;> simp
  · have hexisting : c.existing = [] := by rw [Candidate.existing, hnil, List.filterMap_nil]
    have hallows : Arena.greedyAllows c.grammar c.nodes c.sequences [] = true := by
      cases c.sequences <;> rfl
    rw [Pipeline.judge_fst huser, hbuiltIn, hexisting, List.map_nil, hallows, Bool.not_true,
      Bool.and_false, if_neg Bool.false_ne_true]

namespace Engine

variable {input : ParseInput σ} {e : Engine σ} {st : Stage} {ds : List Deferred} {root : NodeId}
  {user : σ}

/-- Where judging is lenient, whatever a derivation has been turned down for is there. -/
theorem ForestValid.existing (h : ForestValid input st ds e) (hlenient : input.Lenient) :
    ∀ key ∈ e.rejected, Arena.childrenOf e.nodes key.owner ≠ [] := by
  intro key hk
  obtain ⟨d, rfl, -, hknown⟩ := h.dropped key hk
  exact hknown hlenient.policy rfl

section

variable (hr : input.Ready) (h : Arrives input user e root) (hlenient : input.Lenient)
include hr h hlenient

/-- Where judging is lenient and precedence is off, the passes leave the root an alternative. -/
theorem Arrives.childrenOf_passed_ne_nil (ht : input.tokens.EndsOnce)
    (hprecedence : input.config.precedence = false) :
    Arena.childrenOf (passed input e root) root ≠ [] := by
  obtain ⟨huse, st, hforest⟩ := h.inUse hr
  have hstocked := hforest.stocked hr (hforest.existing hlenient)
  have hk := (h.stands hr ht).1
  have hchoice : (Arena.node e.nodes root).isChoice = true := by rw [Node.isChoice, hk]
  have hpacked : (Arena.node e.nodes root).isPacked = false := by rw [Node.isPacked, hk]
  rw [passed, passesOf, hprecedence]
  split
  · split
    · rw [Pass.childrenOf_standard hpacked]
      have hselecting : (Pass.runAll (Pass.selecting false input.config.greedy) input.grammar root
          e.nodes).1.Stocked (e.InUse input) :=
        Pass.stocked_selecting hstocked fun hon => absurd hon Bool.false_ne_true
      have hselected : (Pass.pruneDead.run input.grammar root _).1.Stocked (e.InUse input) :=
        Pass.stocked_pruneDead hselecting
      refine hselected.ne_nil root huse ?_
      rw [((Pass.trims_selecting false _).trans (Pass.trims_pruneDead _ _ _)).isChoice_eq]
      exact hchoice
    · rw [Pass.runAll_eq, Pass.structural, List.foldl_cons, List.foldl_cons, List.foldl_nil,
        (Pass.relinks_linkParents _ _ _).childrenOf_eq]
      refine (Pass.childrenOf_collapseAll _ hpacked).symm ▸ hstocked.ne_nil root huse hchoice
  · exact hstocked.ne_nil root huse hchoice

end

/-- Where judging is lenient and precedence is off, a parse answers a forest if there is a tree, unless
a limit is reached. -/
theorem run_of_lenient {t : Tree} {last : Token} (hr : input.Ready) (hs : input.grammar.AvoidsStart)
    (ht : input.tokens.EndsOnce) (hend : input.EndsWith last) (hlenient : input.Lenient)
    (hprecedence : input.config.precedence = false)
    (hlength : input.tokens.length < GraphStack.idLimit)
    (hstack : ∀ limit, (run input user).1 ≠ .error (.stackLimit limit)) (hparse : input.IsParse t) :
    ∃ f, (run input user).1 = .ok f := by
  have hall := Tree.everywhere_of_forall (P := fun _ _ => True) fun _ _ => trivial
  rcases run_arrives hr hs hparse (hall 0 t) hend (hall _ _)
    (fun _ _ _ hf => ⟨_, hf.tracks_of_lenient hr hlenient, fun _ _ hR => hR⟩) ht user with
    ⟨e, root, harr, hrun⟩ | hlong | ⟨limit, hlimit⟩
  · exact ⟨_, hrun.trans ((harr.finish_eq_ok_iff hr ht).2
      ⟨rfl, fun _ => harr.childrenOf_passed_ne_nil hr hlenient ht hprecedence⟩)⟩
  · exact absurd hlong (Nat.not_le.2 hlength)
  · exact absurd hlimit (hstack limit)

/-- With greedy lists the passes leave no alternative that another one beats. What spans nothing stands for
what it stood for. -/
theorem Arrives.exists_unbeaten (hr : input.Ready) (h : Arrives input user e root)
    (ht : input.tokens.EndsOnce) (hon : input.config.transforms = true)
    (hprecedence : input.config.precedence = false) (hgreedy : input.config.greedy = true) :
    ∃ before nodes, Arena.Trims e.nodes before ∧ TrimmedTo input e root nodes ∧
      (∀ id, nodes.Reachable root id → (Arena.node nodes id).isChoice = true →
        ∀ p ∈ Arena.childrenOf nodes id, ∀ q ∈ Arena.childrenOf nodes id,
          Pass.beats input.grammar before q p = false) ∧
      ∀ fuel, ∀ id < input.compiled.epsilon.nodes.size,
        nodes.readings input.grammar input.tokens fuel id =
          e.nodes.readings input.grammar input.tokens fuel id := by
  have hformed := h.formed hr
  have hl := h.layered hr
  have hchoice : (Arena.node e.nodes root).isChoice = true := by
    rw [Node.isChoice, (h.stands hr ht).1]
  have hlt := Arena.lt_size_of_isChoice hchoice
  simp only [TrimmedTo]
  rw [passed, passesOf, if_pos hon]
  split
  · -- what no pass but the preference for longer lists takes away stands for nothing
    have htrims := Pass.trims_pruneDead input.grammar root e.nodes
    have hl' := hl.trims htrims
    have hdedupe := @Pass.dedupeEquivalent_eq _ input.grammar root hl'
      ((h.distinct hr).trims htrims hl) ((h.shapesEnd hr).trims htrims)
    have hrun : (Pass.runAll (Pass.selecting input.config.precedence input.config.greedy) input.grammar
        root e.nodes).1 = (Pass.preferLongestList.run input.grammar root
          (Pass.pruneDead.run input.grammar root e.nodes).1).1 := by
      rw [hprecedence, hgreedy, Pass.runAll_eq]
      simp only [Pass.selecting, Bool.false_eq_true, if_false, if_true, List.append_nil,
        List.cons_append, List.nil_append, List.foldl_cons, List.foldl_nil, hdedupe]
    rw [Pass.runAll_standard, hrun]
    generalize hbefore : (Pass.pruneDead.run input.grammar root e.nodes).1 = before at *
    have hlonger := Pass.trims_preferLongestList input.grammar root before
    have hpruned := Pass.trims_pruneDead input.grammar root
      (Pass.preferLongestList.run input.grammar root before).1
    have hlt' : root < before.size := htrims.size_eq ▸ hlt
    refine ⟨before, _, htrims, ⟨(htrims.trans hlonger).trans hpruned, .inr rfl⟩,
      fun id hid hc p hp q hq => ?_, fun fuel id hid => ?_⟩
    · have hreach := (hlonger.trans hpruned).reachable hid
      rw [(hlonger.trans hpruned).isChoice_eq] at hc
      have hp := hpruned.mem_children hp
      have hq := (hlonger.trans hpruned).mem_children hq
      rw [Pass.childrenOf_preferLongestList hlt' hl'.closed hreach hc, List.mem_filter] at hp
      simpa using List.all_eq_true.1 hp.2 q hq
    · rw [Pass.pruneDead_readings, Pass.readings_preferLongestList hlt' hl'.closed
        (U := fun id => id < input.compiled.epsilon.nodes.size) (fun id hid c hc => ?_) (fun id hid => ?_)
        fuel hid, ← hbefore, Pass.pruneDead_readings]
      · have hc := htrims.mem_children hc
        rw [Arena.childrenOf, hformed.fragment id hid] at hc
        exact Arena.closed_epsilon hr.epsilon hc
      · rw [Node.width, htrims.span_eq, hformed.fragment id hid, hr.epsilon.span_eq_none hid]
        rfl
  · -- no choice has two alternatives
    rename_i hfew
    refine ⟨e.nodes, e.nodes, .refl _, ⟨.refl _, .inr rfl⟩, fun id hid hc p hp q hq => ?_,
      fun fuel id hid => rfl⟩
    obtain rfl : p = q := by
      by_contra hne
      refine hfew (Bool.or_eq_true_iff.2 (.inl ?_))
      refine (Forest.isAmbiguous_iff hlt hl.closed).2 ⟨id, hid, hc, ?_⟩
      exact (List.subperm_of_subset (by simpa using hne : [p, q].Nodup) (by simp [hp, hq])).length_le
    exact Bool.eq_false_iff.2 (Pass.beats_irrefl _ _ _)

end Engine

namespace Parser

variable {g : Grammar} {lexer : LexerDescription} {c : CompiledGrammar} {config config' : ParserConfig}
  {tokens : TokenStream} {s : σ}

/-- Without precedence and disambiguators a parse answers a forest if the first rule derives terminals
that the tokens satisfy, whether lists are greedy or not. -/
theorem exists_ok_of_plain (hg : g.Built) (hs : g.AvoidsStart)
    (hc : CompiledGrammar.ofGrammar g lexer = .ok c) (hprecedence : config.precedence = false)
    (ht : tokens.EndsOnce) (hlimits : WithinLimits ⟨c, config, []⟩ tokens s)
    (hd : g.DerivesTokens c.matcher g.first tokens.content) :
    ∃ f, (parseTokens ⟨c, config, []⟩ tokens s).1 = .ok f := by
  obtain ⟨rfl, -⟩ := CompiledGrammar.parts_of_ofGrammar hc
  obtain ⟨hlength, hstack⟩ := hlimits
  have hr := CompiledGrammar.ready hg hc config ([] : List (Disambiguator σ)) tokens
  obtain ⟨last, hend⟩ := CompiledGrammar.endsWith hc ht config ([] : List (Disambiguator σ))
  rw [parseTokens, ht.ensureEof_eq] at hstack ⊢
  obtain ⟨t, hparse⟩ := ParseInput.exists_isParse
    ⟨c, config, ([] : List (Disambiguator σ)), tokens⟩ hd
  exact Engine.run_of_lenient hr hs ht hend (ParseInput.lenient_of_plain hprecedence rfl) hprecedence
    hlength hstack hparse

end Parser

/-!
## Pairs of lists

A single item can be in either list of a pair, and greedy lists want it in the first one. What follows the
pair covers nothing, in as many ways as its rules have.
-/

/-- A grammar of texts of a pair of lists and something that derives nothing. -/
structure Grammar.HasPairs (g : Grammar) : Prop where
  first : g.first = 2
  text : g.rule 2 = ⟨"text", .normal, #[⟨[.rule 3, .rule 5], 0, none⟩], true⟩
  pair : g.rule 3 = ⟨"pair", .normal, #[⟨[.rule 4, .rule 4], 0, none⟩], true⟩
  items : g.rule 4 = ⟨"items", .list, #[⟨[.terminal 0], 1, none⟩, ⟨[], 0, none⟩], true⟩
  blank : ∀ A, ∀ a ∈ (g.rule A).alternatives, 5 ≤ A →
    a.symbols.all (fun x => x.rule?.any (5 ≤ ·)) = true

namespace Tree

variable {g : Grammar} {m : TerminalMatcher} {t : Tree}

/-- A list of one item or none. -/
def items : Bool → Tree
  | true => .rule "items" 4 0 [.token .item]
  | false => .rule "items" 4 1 []

/-- A pair of lists, one of which has an item. -/
def onePair (first : Bool) : Tree := .rule "pair" 3 0 [items first, items !first]

/-- A text of a pair and what follows it. -/
def withRest (pair : Tree) (rest : List Tree) : Tree := .rule "text" 2 0 (pair :: rest)

/-- A tree without tokens. -/
structure IsBlank (g : Grammar) (m : TerminalMatcher) (A : RuleId) (t : Tree) : Prop where
  fits : t.Fits g m (.rule A)
  leaves_eq : t.leaves = []

theorem exists_isBlank {A : RuleId} (m : TerminalMatcher) (h : g.Nullable [.rule A]) :
    ∃ t : Tree, t.IsBlank g m A := by
  obtain ⟨ts, hfits, hleaves⟩ := h.exists_trees m
  obtain _ | ⟨hfit, ⟨⟩⟩ := hfits
  exact ⟨_, hfit, by simpa [leavesOfAll] using hleaves⟩

/-- An alternative of a rule that is known. -/
theorem Fits.of_rule_eq {A : RuleId} {r : Rule} (hr : g.rule A = r) {alt : Nat} {children : List Tree}
    (halt : alt < r.alternatives.size)
    (h : FitsAll g m children (r.alternatives.getD alt default).symbols) :
    Fits g m (.rule r.name A alt children) (.rule A) := by
  subst hr
  exact .rule halt h

section

variable (hg : g.HasPairs)
include hg

theorem items_of_fits (h : t.Fits g m (.rule 4)) (hleaves : ∀ tok ∈ t.leaves, tok = .item) :
    ∃ b, t = items b := by
  cases h with
  | @rule _ alt children halt hchildren =>
    rw [Grammar.alternative, hg.items] at hchildren
    rw [hg.items] at halt ⊢
    rcases alt with _ | _ | alt
    · obtain _ | ⟨⟨⟩, ⟨⟩⟩ := hchildren
      obtain rfl := hleaves _ (List.mem_singleton_self _)
      exact ⟨true, rfl⟩
    · obtain ⟨⟩ := hchildren
      exact ⟨false, rfl⟩
    · exact absurd halt (Nat.not_lt.2 (Nat.le_add_left 2 alt))

/-- There are two pairs for one item. -/
theorem onePair_of_fits (h : t.Fits g m (.rule 3)) (hleaves : t.leaves = [.item]) :
    ∃ first, t = onePair first := by
  cases h with
  | @rule _ alt children halt hchildren =>
    rw [Grammar.alternative, hg.pair] at hchildren
    rw [hg.pair] at halt ⊢
    rcases alt with _ | alt
    · obtain _ | ⟨h₁, _ | ⟨h₂, ⟨⟩⟩⟩ := hchildren
      simp only [leaves, leavesOfAll, List.append_nil] at hleaves
      have hall : ∀ tok ∈ [Token.item], tok = .item := by simp
      rw [← hleaves] at hall
      obtain ⟨b, rfl⟩ := items_of_fits hg h₁ fun tok htok => hall tok (List.mem_append_left _ htok)
      obtain ⟨b', rfl⟩ := items_of_fits hg h₂ fun tok htok => hall tok (List.mem_append_right _ htok)
      cases b <;> cases b'
      · cases hleaves
      · exact ⟨false, rfl⟩
      · exact ⟨true, rfl⟩
      · cases hleaves
    · exact absurd halt (Nat.not_lt.2 (Nat.le_add_left 1 alt))

/-- Each of them makes a text with whatever follows it. -/
theorem fits_withRest (hm : 0 ∈ m.matching .item) (first : Bool) {u : Tree} (hu : u.IsBlank g m 5) :
    (withRest (onePair first) [u]).Fits g m (.rule 2) ∧
      (withRest (onePair first) [u]).leaves = [.item] := by
  have hitems : ∀ b, (items b).Fits g m (.rule 4) := by
    rintro (_ | _)
    · exact .of_rule_eq hg.items (by decide) .nil
    · exact .of_rule_eq hg.items (by decide) (.cons (.token hm) .nil)
  have hpair : (onePair first).Fits g m (.rule 3) :=
    .of_rule_eq hg.pair (by decide) (.cons (hitems first) (.cons (hitems _) .nil))
  refine ⟨.of_rule_eq hg.text (by decide) (.cons hpair (.cons hu.fits .nil)), ?_⟩
  cases first <;> simp [withRest, onePair, items, leaves, leavesOfAll, hu.leaves_eq]

end

end Tree

/-- An alternative with two children keeps them while alternatives are taken away. -/
theorem Arena.Trims.childrenOf_eq_pair {nodes nodes' : Arena} {p x y : NodeId} {A : RuleId} {alt : Nat}
    (h : nodes.Trims nodes') (hnode : node nodes p = alternativeNode A alt ⟨x, some y⟩) :
    childrenOf nodes' p = [x, y] := by
  rw [h.children_eq p (by rw [hnode]; exact Bool.false_ne_true), childrenOf, hnode]
  rfl

/-- What the arena of a parse of one item looks like. -/
structure ParseInput.OfPairs (input : ParseInput σ) (nodes : Arena) : Prop where
  pairs : input.grammar.HasPairs
  tokens : input.tokens = .items 1
  matching : 0 ∈ input.compiled.matcher.matching .item
  ready : input.Ready
  formed : input.Formed nodes

namespace ParseInput.OfPairs

variable {input : ParseInput σ} {nodes nodes' before : Arena} {id p x y : NodeId}
  (h : input.OfPairs nodes)
include h

/-- What follows the pair covers nothing. -/
theorem not_stands_blank {l r : Nat}
    (hs : nodes.Stands input.compiled.matcher input.tokens (.rule 5) l r id) : ¬ l < r := by
  obtain ⟨w, hw, rfl, -⟩ := h.formed.backed.spells_of_stands hs
  have hrules : ∀ x ∈ w.map Symbol.terminal, x.rule?.any (5 ≤ ·) = true := by
    refine hw.mem_of_closed (fun A hA a ha x hx => ?_) fun x hx => ?_
    · exact List.all_eq_true.1 (h.pairs.blank A a ha (of_decide_eq_true hA)) x hx
    · obtain rfl := List.mem_singleton.1 hx
      rfl
  cases w with
  | nil => simp
  | cons t w => cases hrules _ (.head _)

/-- An alternative of the text holds the pair and the fragment of what follows it. -/
theorem text_cases (hk : (Arena.node nodes id).kind = .symbol 2)
    (hs : (Arena.node nodes id).span = some ⟨0, 1⟩) (hp : p ∈ Arena.childrenOf nodes id) :
    ∃ x y, Arena.node nodes p = Arena.alternativeNode 2 0 ⟨x, some y⟩ ∧
      (Arena.node nodes x).kind = .symbol 3 ∧ (Arena.node nodes x).span = some ⟨0, 1⟩ ∧
      input.compiled.epsilon.tail? 2 0 1 = some y := by
  obtain ⟨alt, halt, children, hnode, hh⟩ := h.formed.holds_of_mem hk hs hp
  rw [h.pairs.text] at halt
  obtain rfl : alt = 0 := Nat.lt_one_iff.1 halt
  obtain ⟨x, y, k, rfl, ⟨hkx, hspan⟩, ⟨hy, rfl⟩ | ⟨hy, hlt⟩⟩ :=
    Arena.Holds.pair (X := .rule 3) (Y := .rule 5) hh (by rw [Grammar.alternative, h.pairs.text]; rfl)
  · refine ⟨x, y, hnode, hkx, hspan.resolve_right fun hnone => ?_, hy⟩
    cases hnone.2
  · exact absurd hlt (h.not_stands_blank hy)

/-- An alternative of the pair has the item in the first list or in the second. -/
theorem pair_cases (hk : (Arena.node nodes id).kind = .symbol 3)
    (hs : (Arena.node nodes id).span = some ⟨0, 1⟩) (hp : p ∈ Arena.childrenOf nodes id) :
    ∃ x y, Arena.node nodes p = Arena.alternativeNode 3 0 ⟨x, some y⟩ ∧
      (Arena.node nodes x).kind = .symbol 4 ∧
      (((Arena.node nodes x).span = some ⟨0, 1⟩ ∧ input.compiled.epsilon.tail? 3 0 1 = some y) ∨
        (input.compiled.epsilon.symbol? 4 = some x ∧ (Arena.node nodes y).kind = .symbol 4)) := by
  obtain ⟨alt, halt, children, hnode, hh⟩ := h.formed.holds_of_mem hk hs hp
  rw [h.pairs.pair] at halt
  obtain rfl : alt = 0 := Nat.lt_one_iff.1 halt
  obtain ⟨x, y, k, rfl, ⟨hkx, hspan⟩, ⟨hy, rfl⟩ | ⟨⟨hky, -⟩, hlt⟩⟩ :=
    Arena.Holds.pair (X := .rule 4) (Y := .rule 4) hh (by rw [Grammar.alternative, h.pairs.pair]; rfl)
  · refine ⟨x, y, hnode, hkx, .inl ⟨hspan.resolve_right fun hnone => ?_, hy⟩⟩
    cases hnone.2
  · refine ⟨x, y, hnode, hkx, .inr ⟨?_, hky⟩⟩
    rcases hspan with hspan | ⟨hnone, -⟩
    · have := h.formed.lt_of_span h.ready.epsilon hspan
      dsimp only at this hlt
      omega
    · exact h.formed.symbol?_of_span_none h.ready.epsilon hkx hnone

/-- The alternative with the item in the first list beats the other one. -/
theorem beats (hbefore : nodes.Trims before) {q x' y' : NodeId}
    (hp : Arena.node nodes p = Arena.alternativeNode 3 0 ⟨x, some y⟩)
    (hq : Arena.node nodes q = Arena.alternativeNode 3 0 ⟨x', some y'⟩)
    (hx : (Arena.node nodes x).kind = .symbol 4) (hspan : (Arena.node nodes x).span = some ⟨0, 1⟩)
    (hy : input.compiled.epsilon.tail? 3 0 1 = some y)
    (hx' : input.compiled.epsilon.symbol? 4 = some x') (hy' : (Arena.node nodes y').kind = .symbol 4) :
    Pass.beats input.grammar before p q = true := by
  have hε := h.ready.epsilon
  obtain ⟨hlt, hkx', hspan', -⟩ := hε.symbol 4 x' hx'
  obtain ⟨hlty, hnode⟩ := hε.tail 3 0 1 y hy
  have hsymbols : (input.grammar.alternative 3 0).symbols = [.rule 4, .rule 4] := by
    rw [Grammar.alternative, h.pairs.pair]
    rfl
  have hsame := h.formed.fragment
  have htail : Arena.childrenOf before y = [x'] := by
    rw [hbefore.children_eq y (by rw [hsame y hlty, hnode]; exact Bool.false_ne_true), Arena.childrenOf,
      hsame y hlty, hnode, EpsilonForest.nulledNode, hsymbols]
    change [EpsilonForest.fragment _ (.rule 4)] = _
    rw [EpsilonForest.fragment_rule hx']
  have hky : (Arena.node before y).kind = .nulled 3 0 1 := by
    rw [hbefore.kind_eq, hsame y hlty, hnode]
    rfl
  have hfirst : Pass.firstSequence? before p = some [x, x'] := by
    rw [Pass.firstSequence?, Arena.sequences, hbefore.childrenOf_eq_pair hp, Arena.sequencesOf, Arena.expandChildren]
    simp [Arena.extend, hbefore.kind_eq x, hx, hky, htail]
  have hsecond : Pass.firstSequence? before q = some [x', y'] := by
    rw [Pass.firstSequence?, Arena.sequences, hbefore.childrenOf_eq_pair hq, Arena.sequencesOf, Arena.expandChildren]
    simp [Arena.extend, hbefore.kind_eq, hsame x' hlt, hkx', hy']
  refine Pass.beats_eq_true_iff.2 ⟨_, _, hfirst, hsecond, ?_⟩
  have hne : x ≠ x' := by
    rintro rfl
    rw [hsame x hlt, hspan'] at hspan
    cases hspan
  rw [Arena.greedier_cons_of_ne hne, Arena.wider_eq_true_iff]
  refine ⟨4, (hbefore.kind_eq x).trans hx, ?_, by rw [h.pairs.items]; rfl, by rw [h.pairs.items], ?_⟩
  · rw [hbefore.kind_eq, hsame x' hlt, hkx']
  · rw [Node.width, Node.width, hbefore.span_eq, hbefore.span_eq, hspan, hsame x' hlt, hspan']
    exact Nat.zero_lt_one

/-! ### What the nodes stand for -/

/-- What the node of the pair stands for is one of the two pairs. -/
theorem exists_onePair {t : Tree} (hk : (Arena.node nodes x).kind = .symbol 3)
    (hs : (Arena.node nodes x).span = some ⟨0, 1⟩)
    (hread : nodes.Reads input.grammar input.tokens x t) : ∃ first, t = .onePair first := by
  obtain ⟨hfits, hspans⟩ := h.formed.backed.spans_of_stands (x := .rule 3) ⟨hk, .inl hs⟩ hread
  refine Tree.onePair_of_fits h.pairs hfits (hspans.unique ⟨fun i tok hi => ?_, rfl⟩)
  obtain ⟨rfl, rfl⟩ : i = 0 ∧ .item = tok := by simpa [List.getElem?_singleton] using hi
  rw [h.tokens]
  rfl

/-- So its list is no longer than that. -/
theorem length_allReadings_le {rank : NodeId → Nat} (hrank : nodes.Ranked rank)
    (hnodup : (nodes.allReadings input.grammar input.tokens x).Nodup)
    (hk : (Arena.node nodes x).kind = .symbol 3) (hs : (Arena.node nodes x).span = some ⟨0, 1⟩) :
    (nodes.allReadings input.grammar input.tokens x).length ≤ 2 := by
  have hl := h.formed.layered h.ready.epsilon
  have hsub : nodes.allReadings input.grammar input.tokens x ⊆
      [[.onePair true], [.onePair false]] := fun r hr => by
    obtain ⟨t, rfl⟩ : ∃ t, r = [t] := by
      obtain ⟨p, hp, B, alt, us, hpk, hus, he⟩ := (Arena.mem_readings_symbol_iff hl hk).1 hr
      exact ⟨_, he⟩
    obtain ⟨b, rfl⟩ := h.exists_onePair hk hs ((Arena.mem_allReadings_iff hrank hl (.inr ⟨3, hk⟩)).1 hr)
    cases b <;> simp
  exact (List.subperm_of_subset hnodup hsub).length_le

/-- The fragment of what follows the pair stands for every tree without tokens. -/
theorem readsAll_blank (hy : input.compiled.epsilon.tail? 2 0 1 = some y) {t : Tree}
    (hblank : t.IsBlank input.grammar input.compiled.matcher 5) :
    nodes.ReadsAll input.grammar input.tokens [y] [t] := by
  have hε := h.ready.epsilon
  have hsymbols : (input.grammar.alternative 2 0).symbols = [.rule 3, .rule 5] := by
    rw [Grammar.alternative, h.pairs.text]
    rfl
  have hfits : Tree.FitsAll input.grammar input.compiled.matcher [t]
      ((input.grammar.alternative 2 0).symbols.drop 1) := hsymbols ▸ .cons hblank.fits .nil
  have hread : input.compiled.epsilon.nodes.ReadsAll input.grammar input.tokens [y] [t] :=
    hε.reads_tail h.ready.wellFormed hy hfits (by simp [Tree.leavesOfAll, hblank.leaves_eq])
  have hl := (input.formed_fragments h.ready.wellFormed hε).layered hε
  refine (Arena.reads_grows hl.closed hl.isPacked h.formed.base).2 _ _ hread fun c hc => ?_
  obtain rfl := List.mem_singleton.1 hc
  exact (hε.tail 2 0 1 c hy).1

section

variable (htrims : nodes.Trims nodes')
include htrims

/-- What the text stands for is one of the two pairs and what follows it. -/
theorem text_of_reads {t : Tree} (hk : (Arena.node nodes id).kind = .symbol 2)
    (hs : (Arena.node nodes id).span = some ⟨0, 1⟩)
    (hread : nodes'.Reads input.grammar input.tokens id t) :
    ∃ p ∈ Arena.childrenOf nodes' id, ∃ x y, Arena.node nodes p = Arena.alternativeNode 2 0 ⟨x, some y⟩ ∧
      (Arena.node nodes x).kind = .symbol 3 ∧ (Arena.node nodes x).span = some ⟨0, 1⟩ ∧
      input.compiled.epsilon.tail? 2 0 1 = some y ∧
      ∃ first rest, nodes'.Reads input.grammar input.tokens x (.onePair first) ∧
        t = .withRest (.onePair first) rest := by
  have hl := h.formed.layered h.ready.epsilon
  cases hread with
  | token hk' _ => cases ((htrims.kind_eq id).trans hk).symm.trans hk'
  | @rule _ p A A' alt children hk' hp hpk hchildren =>
    obtain ⟨x, y, hnode, hkx, hsx, hy⟩ := h.text_cases hk hs (htrims.mem_children hp)
    rw [htrims.kind_eq] at hk' hpk
    obtain rfl := NodeKind.symbol.inj (hk.symm.trans hk')
    rw [hnode] at hpk
    obtain ⟨rfl, rfl⟩ := NodeKind.packed.inj hpk
    rw [htrims.childrenOf_eq_pair hnode] at hchildren
    obtain ⟨t, rest, rfl, hx, -⟩ := hchildren.exists_first (.inr ⟨3, (htrims.kind_eq x).trans hkx⟩)
    obtain ⟨first, rfl⟩ := h.exists_onePair hkx hsx (htrims.reads hl hx)
    exact ⟨p, hp, x, y, hnode, hkx, hsx, hy, first, rest, hx, by rw [h.pairs.text]; rfl⟩

/-- The node of the pair is found below the text. -/
theorem exists_pair_of_reads {first : Bool} {rest : List Tree} (hk : (Arena.node nodes id).kind = .symbol 2)
    (hs : (Arena.node nodes id).span = some ⟨0, 1⟩)
    (hread : nodes'.Reads input.grammar input.tokens id (.withRest (.onePair first) rest)) :
    ∃ x, (Arena.node nodes x).kind = .symbol 3 ∧ (Arena.node nodes x).span = some ⟨0, 1⟩ ∧
      nodes'.Reads input.grammar input.tokens x (.onePair first) := by
  obtain ⟨-, -, x, -, -, hkx, hsx, -, first', rest', hx, he⟩ := h.text_of_reads htrims hk hs hread
  obtain ⟨-, -, -, he⟩ := Tree.rule.inj he
  exact ⟨x, hkx, hsx, (List.cons.inj he).1 ▸ hx⟩

/-- An alternative of the text stands for every pair with whatever may follow it. -/
theorem reads_withRest {pair : Tree} {rest : List Tree} (hk : (Arena.node nodes id).kind = .symbol 2)
    (hp : p ∈ Arena.childrenOf nodes' id)
    (hnode : Arena.node nodes p = Arena.alternativeNode 2 0 ⟨x, some y⟩)
    (hx : nodes'.Reads input.grammar input.tokens x pair)
    (hy : nodes'.ReadsAll input.grammar input.tokens [y] rest) :
    nodes'.Reads input.grammar input.tokens id (.withRest pair rest) := by
  have hall : nodes'.ReadsAll input.grammar input.tokens (Arena.childrenOf nodes' p) (pair :: rest) :=
    htrims.childrenOf_eq_pair hnode ▸ .tree hx hy
  have hread := Arena.Reads.rule ((htrims.kind_eq id).trans hk) hp
    ((htrims.kind_eq p).trans (congrArg Node.kind hnode)) hall
  rwa [h.pairs.text] at hread

/-- A pair that has its item in the first list is read where the node of this list covers it. -/
theorem pair_of_reads {first : Bool} (hk : (Arena.node nodes x).kind = .symbol 3)
    (hs : (Arena.node nodes x).span = some ⟨0, 1⟩)
    (hread : nodes'.Reads input.grammar input.tokens x (.onePair first)) :
    ∃ p ∈ Arena.childrenOf nodes' x, ∃ u v, Arena.node nodes p = Arena.alternativeNode 3 0 ⟨u, some v⟩ ∧
      (Arena.node nodes u).kind = .symbol 4 ∧
      if first then (Arena.node nodes u).span = some ⟨0, 1⟩ ∧ input.compiled.epsilon.tail? 3 0 1 = some v
      else input.compiled.epsilon.symbol? 4 = some u ∧ (Arena.node nodes v).kind = .symbol 4 := by
  have hl := h.formed.layered h.ready.epsilon
  generalize ht : Tree.onePair first = t at hread
  cases hread with
  | token _ _ => cases ht
  | @rule _ p A A' alt children hk' hp hpk hchildren =>
    obtain ⟨-, -, -, rfl⟩ := Tree.rule.inj ht
    obtain ⟨u, v, hnode, hku, hcases⟩ := h.pair_cases hk hs (htrims.mem_children hp)
    refine ⟨p, hp, u, v, hnode, hku, ?_⟩
    rw [htrims.childrenOf_eq_pair hnode] at hchildren
    obtain ⟨t, us, hts, hu, -⟩ := hchildren.exists_first (.inr ⟨4, (htrims.kind_eq u).trans hku⟩)
    obtain ⟨rfl, -⟩ := List.cons.inj hts
    replace hu := htrims.reads hl hu
    rcases hcases with ⟨hsu, hv⟩ | ⟨hu', hv⟩
    · obtain ⟨-, -, hlength⟩ := h.formed.backed.spans_of_stands (x := .rule 4) ⟨hku, .inl hsu⟩ hu
      cases first with
      | true => exact ⟨hsu, hv⟩
      | false => cases hlength
    · have hsu : (Arena.node nodes u).span = none := by
        obtain ⟨hlt, -, hsu, -⟩ := h.ready.epsilon.symbol 4 u hu'
        rw [h.formed.fragment u hlt, hsu]
      obtain ⟨-, -, hlength⟩ :=
        h.formed.backed.spans_of_stands (x := .rule 4) (l := 0) ⟨hku, .inr ⟨hsu, rfl⟩⟩ hu
      cases first with
      | true => cases hlength
      | false => exact ⟨hu', hv⟩

/-- Where no alternative is beaten, the node of the pair stands for one pair. -/
theorem first_unique (hbefore : nodes.Trims before) {first first' : Bool}
    (hk : (Arena.node nodes x).kind = .symbol 3) (hs : (Arena.node nodes x).span = some ⟨0, 1⟩)
    (hunbeaten : ∀ p ∈ Arena.childrenOf nodes' x, ∀ q ∈ Arena.childrenOf nodes' x,
      Pass.beats input.grammar before q p = false)
    (hread : nodes'.Reads input.grammar input.tokens x (.onePair first))
    (hread' : nodes'.Reads input.grammar input.tokens x (.onePair first')) : first = first' := by
  have hone : ¬ (nodes'.Reads input.grammar input.tokens x (.onePair true) ∧
      nodes'.Reads input.grammar input.tokens x (.onePair false)) := by
    rintro ⟨htrue, hfalse⟩
    obtain ⟨p, hp, u, v, hnode, hku, hsu, hv⟩ := h.pair_of_reads htrims hk hs htrue
    obtain ⟨q, hq, u', v', hnode', -, hu', hv'⟩ := h.pair_of_reads htrims hk hs hfalse
    have hbeaten := h.beats hbefore hnode hnode' hku hsu hv hu' hv'
    rw [hunbeaten q hq p hp] at hbeaten
    cases hbeaten
  cases first <;> cases first' <;> first | rfl | exact absurd ⟨‹_›, ‹_›⟩ hone

/-- So all trees of the text have the same pair. -/
theorem exists_withRest_of_reads (hbefore : nodes.Trims before) (hk : (Arena.node nodes id).kind = .symbol 2)
    (hs : (Arena.node nodes id).span = some ⟨0, 1⟩)
    (hunbeaten : ∀ x, nodes'.Reachable id x → (Arena.node nodes' x).isChoice = true →
      ∀ p ∈ Arena.childrenOf nodes' x, ∀ q ∈ Arena.childrenOf nodes' x,
        Pass.beats input.grammar before q p = false)
    (hx : (Arena.node nodes x).kind = .symbol 3) (hsx : (Arena.node nodes x).span = some ⟨0, 1⟩) {first : Bool}
    (hread : nodes'.Reads input.grammar input.tokens x (.onePair first)) {t : Tree}
    (hread' : nodes'.Reads input.grammar input.tokens id t) :
    ∃ rest, t = .withRest (.onePair first) rest := by
  obtain ⟨p, hp, x', y, hnode, hx', hsx', -, first', rest, hpair, rfl⟩ := h.text_of_reads htrims hk hs hread'
  obtain rfl := h.formed.unique x x' _ hsx hsx' (hx.trans hx'.symm)
  have hreach : nodes'.Reachable id x := by
    refine (Arena.Reachable.child .refl hp).child ?_
    rw [htrims.childrenOf_eq_pair hnode]
    exact .head _
  obtain rfl := h.first_unique htrims hbefore hx hsx
    (hunbeaten x hreach (by rw [Node.isChoice, htrims.kind_eq, hx])) hread hpair
  exact ⟨rest, rfl⟩

end

/-- The list of the text begins with the trees of its pairs that have the same tree after them. -/
theorem exists_prefix {rank : NodeId → Nat} (hrank : nodes.Ranked rank)
    (hk : (Arena.node nodes id).kind = .symbol 2) (hs : (Arena.node nodes id).span = some ⟨0, 1⟩)
    {t u : Tree} (hread : nodes.Reads input.grammar input.tokens id t)
    (hblank : u.IsBlank input.grammar input.compiled.matcher 5) :
    ∃ x back, (Arena.node nodes x).kind = .symbol 3 ∧ (Arena.node nodes x).span = some ⟨0, 1⟩ ∧
      (nodes.allReadings input.grammar input.tokens x).map (fun front => [Tree.rule "text" 2 0 (front ++ back)]) <+:
        nodes.allReadings input.grammar input.tokens id := by
  have hl := h.formed.layered h.ready.epsilon
  obtain ⟨p₀, hp₀, -⟩ := h.text_of_reads (.refl nodes) hk hs hread
  obtain ⟨p, ps, hchildren⟩ := List.exists_cons_of_ne_nil (List.ne_nil_of_mem hp₀)
  obtain ⟨x, y, hnode, hkx, hsx, hy⟩ := h.text_cases (p := p) hk hs (by simp [hchildren])
  obtain ⟨back, backs, hback⟩ : ∃ back backs,
      nodes.allReadings input.grammar input.tokens y = back :: backs := by
    obtain ⟨fuel, hfuel⟩ := (Arena.exists_mem_readings hl).2 _ _ (h.readsAll_blank hy hblank)
    rw [List.map_singleton, Arena.combine_singleton] at hfuel
    exact List.exists_cons_of_ne_nil (List.ne_nil_of_mem (Arena.mem_allReadings_of_mem hrank hfuel))
  have hfront := Arena.prefix_allReadings hrank hk hchildren (congrArg Node.kind hnode)
    (Arena.Trims.childrenOf_eq_pair (.refl nodes) hnode) hback
  rw [h.pairs.text] at hfront
  exact ⟨x, back, hkx, hsx, hfront⟩

end ParseInput.OfPairs

namespace Parser

section

variable {g : Grammar} {config : ParserConfig} {c : CompiledGrammar} {f : Forest}
  (hg : g.Built) (hpairs : g.HasPairs) (hc : CompiledGrammar.ofGrammar g .empty = .ok c)
  (hm : 0 ∈ c.matcher.matching .item)
include hg hpairs hc hm

variable (config) in
/-- One item is parsed, greedily or not. -/
theorem exists_ok_of_pairs (hs : g.AvoidsStart) (hblank : g.Nullable [.rule 5])
    (hprecedence : config.precedence = false)
    (hmax : 3 * c.automaton.states.size ≤ min config.maxStackNodes GraphStack.idLimit) :
    ∃ f, (parseTokens ⟨c, config, ([] : List (Disambiguator Unit))⟩ (.items 1) ()).1 = .ok f := by
  obtain ⟨ht, hcontent, hlength⟩ := TokenStream.items_endsOnce 1
  have hlimits := Nat.le_min.1 hmax
  refine exists_ok_of_plain hg hs hc hprecedence ht (withinLimits_of_le hg hc ht
    (hlength ▸ hlimits.1) (hlength ▸ hlimits.2)) ?_
  rw [hcontent, hpairs.first]
  have hnone : g.Nullable [.rule 4] := Grammar.nullable_rule_iff.2
    ⟨⟨[], 0, none⟩, by simp [hpairs.items], Grammar.nullable_nil⟩
  have hitem : g.Derives [.rule 4] [.terminal 0] :=
    Grammar.derives_rule (a := ⟨[.terminal 0], 1, none⟩) (by simp [hpairs.items]) (.refl _)
  have hpair : g.Derives [.rule 3] [.terminal 0] :=
    Grammar.derives_rule (a := ⟨[.rule 4, .rule 4], 0, none⟩) (by simp [hpairs.pair])
      (Grammar.derives_append hitem hnone)
  exact ⟨[0], Grammar.derives_rule (a := ⟨[.rule 3, .rule 5], 0, none⟩) (by simp [hpairs.text])
    (Grammar.derives_append hpair hblank), .cons hm .nil⟩

variable (hf : (parseTokens ⟨c, config, ([] : List (Disambiguator Unit))⟩ (.items 1) ()).1 = .ok f)
include hf

/-- How the parse of one item ends. -/
theorem arrives_of_pairs : ∃ (input : ParseInput Unit) (e : Engine Unit) (root : NodeId),
    input.config = config ∧ input.user = [] ∧ input.grammar = g ∧ input.compiled.matcher = c.matcher ∧
    input.OfPairs e.nodes ∧ (∃ last, input.EndsWith last) ∧ Engine.Arrives input () e root ∧
    f = ⟨Engine.passed input e root, root, input.tokens, input.grammar, e.stats⟩ ∧
    (config.transforms = true → Arena.childrenOf (Engine.passed input e root) root ≠ []) ∧
    (Arena.node e.nodes root).kind = .symbol 2 ∧ (Arena.node e.nodes root).span = some ⟨0, 1⟩ := by
  obtain ⟨ht, -⟩ := TokenStream.items_endsOnce 1
  obtain ⟨e, root, harr, hfe, hne⟩ := arrives_of_ok hg hc ht hf
  obtain ⟨rfl, -⟩ := CompiledGrammar.parts_of_ofGrammar hc
  have hr := CompiledGrammar.ready hg hc config ([] : List (Disambiguator Unit)) (.items 1)
  obtain ⟨hk, hs⟩ := harr.stands hr ht
  refine ⟨⟨c, config, [], .items 1⟩, e, root, rfl, rfl, rfl, rfl, ⟨hpairs, rfl, hm, hr, harr.formed hr⟩,
    CompiledGrammar.endsWith hc ht config [], harr, hfe, hne, hk.trans (congrArg _ hpairs.first),
    hs.resolve_right fun hnone => ?_⟩
  cases hnone.2

variable (hcyclic : ¬ g.Cyclic) (hprecedence : config.precedence = false)
include hcyclic hprecedence

/-- With greedy lists all trees have the same pair. There are as many as there are trees for what follows
it, as far as there are numbers. -/
theorem exists_first (hgreedy : config.greedy = true) (hon : config.transforms = true) :
    f.trees.Nodup ∧ ∃ first, (∀ t ∈ f.trees, ∃ rest, t = .withRest (.onePair first) rest) ∧
      ∀ ts : List Tree, ts.Nodup → (∀ u ∈ ts, u.IsBlank g c.matcher 5) →
        min countLimit ts.length ≤ f.trees.length := by
  obtain ⟨input, e, root, rfl, -, rfl, hmatcher, hone, -, harr, hfe, hne, hk, hs⟩ :=
    arrives_of_pairs hg hpairs hc hm hf
  obtain ⟨ht, -⟩ := TokenStream.items_endsOnce 1
  rw [← hone.tokens] at ht
  rw [← hmatcher]
  have hr := hone.ready
  obtain ⟨rank, hrank⟩ := hone.formed.exists_ranked hr.epsilon hr.wellFormed hcyclic
  obtain ⟨before, nodes, hbefore, htrimmed, hunbeaten, hsame⟩ :=
    harr.exists_unbeaten hr ht hon hprecedence hgreedy
  have htrims := htrimmed.1
  have hl := (harr.layered hr).trims htrims
  have hmap := harr.map_trees_eq_take hr ht hcyclic htrimmed hfe
  have hmem : ∀ t, [t] ∈ nodes.allReadings input.grammar input.tokens root ↔
      nodes.Reads input.grammar input.tokens root t := fun t =>
    Arena.mem_allReadings_iff (hrank.trims htrims) hl (.inr ⟨2, (htrims.kind_eq root).trans hk⟩)
  have hreads : ∀ t ∈ f.trees, nodes.Reads input.grammar input.tokens root t := fun t htree =>
    (hmem t).1 (List.mem_of_mem_take (hmap ▸ List.mem_map_of_mem htree))
  obtain ⟨-, hsome⟩ := harr.trees_ne_nil hr ht hcyclic (.inl hon) (hne hon) hfe
  obtain ⟨t, htree⟩ := List.exists_mem_of_ne_nil _ hsome
  obtain ⟨p, hp, x, y, hnode, hkx, hsx, hy, first, rest, hx, rfl⟩ :=
    hone.text_of_reads htrims hk hs (hreads t htree)
  refine ⟨harr.nodup_trees hr ht hcyclic htrimmed hfe, first, ?same, ?many⟩
  case same =>
    exact fun t' htree' =>
      hone.exists_withRest_of_reads htrims hbefore hk hs hunbeaten hkx hsx hx (hreads t' htree')
  case many =>
    intro ts hnodup hblank
    have hsub : (ts.map fun u => [Tree.withRest (.onePair first) [u]]) ⊆
        nodes.allReadings input.grammar input.tokens root := by
      intro r hr'
      obtain ⟨u, hu, rfl⟩ := List.mem_map.1 hr'
      refine (hmem _).2 (hone.reads_withRest htrims hk hp hnode hx ?_)
      -- what follows the pair stands for what it stood for
      obtain ⟨hlt, hny⟩ := hr.epsilon.tail 2 0 1 y hy
      obtain ⟨fuel, hfuel⟩ := (Arena.exists_mem_readings (harr.layered hr)).2 _ _
        (hone.readsAll_blank hy (hblank u hu))
      rw [List.map_singleton, Arena.combine_singleton, ← hsame fuel y hlt] at hfuel
      refine (Arena.reads_of_mem_readings hl fuel).1 y ?_ _ hfuel
      rw [Node.isPacked, htrims.kind_eq, hone.formed.fragment y hlt, hny]
      rfl
    have hle := (List.subperm_of_subset (hnodup.map fun u v huv => by simpa [Tree.withRest] using huv)
      hsub).length_le
    rw [List.length_map] at hle
    have hlengths := congrArg List.length hmap
    rw [List.length_map, List.length_take] at hlengths
    omega

/-- Without greedy lists there are trees of both pairs among those that are enumerated. -/
theorem exists_withRest (hs : g.AvoidsStart) (hblank : g.Nullable [.rule 5])
    (hgreedy : config.greedy = false) (first : Bool) :
    f.trees.length ≤ countLimit ∧ ∃ rest, .withRest (.onePair first) rest ∈ f.trees := by
  obtain ⟨input, e, root, rfl, huser, rfl, -, hone, ⟨last, hend⟩, harr, hfe, -, hk, hs'⟩ :=
    arrives_of_pairs hg hpairs hc hm hf
  obtain ⟨ht, hcontent, -⟩ := TokenStream.items_endsOnce 1
  rw [← hone.tokens] at ht hcontent
  have hr := hone.ready
  have hl := harr.layered hr
  obtain ⟨rank, hrank⟩ := hone.formed.exists_ranked hr.epsilon hr.wellFormed hcyclic
  have hv : input.RuledBy [] := ⟨hprecedence, hgreedy, huser ▸ .nil⟩
  obtain ⟨nodes, htrimmed, hsame⟩ := harr.passed_eq hr hv
  have hmap := harr.map_trees_eq_take hr ht hcyclic htrimmed hfe
  rw [show nodes.allReadings input.grammar input.tokens root =
      e.nodes.allReadings input.grammar input.tokens root by
    rw [Arena.allReadings, Arena.allReadings, hsame, htrimmed.1.size_eq]] at hmap
  refine ⟨?_, ?_⟩
  · have hlengths := congrArg List.length hmap
    rw [List.length_map, List.length_take] at hlengths
    omega
  -- the root stands for the pair, and its list begins with the trees of at most two pairs
  obtain ⟨u, hu⟩ := Tree.exists_isBlank input.compiled.matcher hblank
  have hroot := harr.reads_of_isParse hr hs ht hend hv (ParseInput.isParse_iff.2 (by
    rw [hone.pairs.first, hcontent]
    exact Tree.fits_withRest hone.pairs hone.matching first hu))
  obtain ⟨x, hkx, hsx, hread⟩ := hone.exists_pair_of_reads (.refl e.nodes) hk hs' hroot
  obtain ⟨x', back, hkx', hsx', hfront⟩ := hone.exists_prefix hrank hk hs' hroot hu
  obtain rfl := hone.formed.unique x x' _ hsx hsx' (hkx.trans hkx'.symm)
  have hpair := (Arena.mem_allReadings_iff hrank hl (.inr ⟨3, hkx⟩)).2 hread
  have hshort := hone.length_allReadings_le hrank (hone.formed.nodup_readings hr (harr.distinct hr) _ x) hkx hsx
  have hlimit : 2 ≤ countLimit := by decide
  refine ⟨back, ?_⟩
  rw [← List.mem_map_of_injective (f := fun t : Tree => [t]) fun _ _ heq => (List.cons.inj heq).1, hmap]
  refine (List.prefix_take_iff.2 ⟨hfront, ?_⟩).subset (List.mem_map.2 ⟨_, hpair, rfl⟩)
  rw [List.length_map]
  exact hshort.trans hlimit

end

end Parser

namespace Grammar

/-- The rules up to the lists, and their right-hand sides. -/
def pairRules : List (String × RuleKind) × List (RuleId × List Symbol) :=
  ([("text", .normal), ("pair", .normal), ("items", .list)],
    [(2, [.rule 3, .rule 5]), (3, [.rule 4, .rule 4]), (4, [.terminal 0]), (4, [])])

/-- Calls for a grammar of texts of a pair and what follows it, which is made of rules without tokens. -/
def pairsBuilder (rules : List (String × RuleKind)) (alternatives : List (RuleId × List Symbol)) :
    GrammarBuilder :=
  let b := (pairRules.1 ++ rules).foldl (fun b x => (b.internRule x.1 x.2).2) GrammarBuilder.new
  (pairRules.2 ++ alternatives).foldl (fun b x => b.addAlternative x.1 x.2) (b.literal "a").2

theorem pairsBuilder_made (rules : List (String × RuleKind)) {alternatives : List (RuleId × List Symbol)}
    (h : ∀ x ∈ alternatives, ∀ s ∈ x.2, s.terminal? = none) : (pairsBuilder rules alternatives).Made := by
  have hmade := GrammarBuilder.Made.new.internRules (pairRules.1 ++ rules)
  have hpos := Nat.zero_lt_of_lt (hmade.scoped.internTerminal (.ofText "a")).2
  refine (hmade.literal "a").addAlternatives _ fun x hx s hs t ht => ?_
  have hzero : ∀ x ∈ pairRules.2, ∀ s ∈ x.2, ∀ t ∈ s.terminal?, t = 0 := by decide
  rcases List.mem_append.1 hx with hx | hx
  · rw [hzero x hx s hs t ht]
    exact hpos
  · rw [h x hx s hs] at ht
    cases ht

/-- What they build. -/
def pairsThen (blanks : Array Rule) : Grammar where
  rules := #[⟨startRuleName, .start, #[⟨[.rule 2, .rule 1], 2, none⟩], false⟩,
    ⟨"Token-EOF", .tokenClass, #[⟨[.terminal 1], 1, none⟩], false⟩,
    ⟨"text", .normal, #[⟨[.rule 3, .rule 5], 0, none⟩], true⟩,
    ⟨"pair", .normal, #[⟨[.rule 4, .rule 4], 0, none⟩], true⟩,
    ⟨"items", .list, #[⟨[.terminal 0], 1, none⟩, ⟨[], 0, none⟩], true⟩] ++ blanks
  terminals := #[.ofText "a", .ofClass eofClass ""]
  start := 0
  first := 2
  eofRule := 1
  eof := 1

/-- Rules that refer to later ones only do not derive themselves. -/
theorem not_cyclic_of_all {g : Grammar} (h : ∀ A, ∀ a ∈ (g.rule A).alternatives,
    (a.symbols.filterMap Symbol.rule?).all (A < ·) = true) : ¬ g.Cyclic :=
  not_cyclic_of_later fun A a ha B hB =>
    of_decide_eq_true (List.all_eq_true.1 (h A a ha) B (List.mem_filterMap.2 ⟨_, hB, rfl⟩))

/-- A pair that nothing follows. -/
def pairs : Grammar := pairsThen #[⟨"nothing", .normal, #[⟨[], 0, none⟩], true⟩]

theorem pairs_built : pairs.Built :=
  ⟨pairsBuilder [("nothing", .normal)] [(5, [])], pairsBuilder_made _ (by decide), by decide +kernel⟩

theorem pairs_avoidsStart : pairs.AvoidsStart := forall_alternatives_of_lt (by decide)

theorem pairs_not_cyclic : ¬ pairs.Cyclic := not_cyclic_of_all (forall_alternatives_of_lt (by decide))

theorem pairs_hasPairs : pairs.HasPairs :=
  ⟨rfl, rfl, rfl, rfl, forall_alternatives_of_lt (by decide)⟩

theorem pairs_nullable : pairs.Nullable [.rule 5] := (pairs_built.wellFormed.isNullable_iff 5).1 rfl

/-- A pair that something follows that covers nothing in more ways than trees can be numbered: every rule
squares the number of ways of the next one. -/
def crowd : Grammar := pairsThen #[⟨"blank6", .normal, #[⟨[.rule 6, .rule 6], 0, none⟩], true⟩,
  ⟨"blank5", .normal, #[⟨[.rule 7, .rule 7], 0, none⟩], true⟩,
  ⟨"blank4", .normal, #[⟨[.rule 8, .rule 8], 0, none⟩], true⟩,
  ⟨"blank3", .normal, #[⟨[.rule 9, .rule 9], 0, none⟩], true⟩,
  ⟨"blank2", .normal, #[⟨[.rule 10, .rule 10], 0, none⟩], true⟩,
  ⟨"blank1", .normal, #[⟨[.rule 11, .rule 11], 0, none⟩], true⟩,
  ⟨"blank0", .normal, #[⟨[.rule 12], 0, none⟩, ⟨[], 0, none⟩], true⟩,
  ⟨"nothing", .normal, #[⟨[], 0, none⟩], true⟩]

theorem crowd_built : crowd.Built :=
  ⟨pairsBuilder [("blank6", .normal), ("blank5", .normal), ("blank4", .normal), ("blank3", .normal),
      ("blank2", .normal), ("blank1", .normal), ("blank0", .normal), ("nothing", .normal)]
    [(5, [.rule 6, .rule 6]), (6, [.rule 7, .rule 7]), (7, [.rule 8, .rule 8]), (8, [.rule 9, .rule 9]),
      (9, [.rule 10, .rule 10]), (10, [.rule 11, .rule 11]), (11, [.rule 12]), (11, []), (12, [])],
    pairsBuilder_made _ (by decide), by decide +kernel⟩

theorem crowd_avoidsStart : crowd.AvoidsStart := forall_alternatives_of_lt (by decide)

theorem crowd_not_cyclic : ¬ crowd.Cyclic := not_cyclic_of_all (forall_alternatives_of_lt (by decide))

theorem crowd_hasPairs : crowd.HasPairs :=
  ⟨rfl, rfl, rfl, rfl, forall_alternatives_of_lt (by decide)⟩

theorem crowd_nullable : crowd.Nullable [.rule 5] := (crowd_built.wellFormed.isNullable_iff 5).1 rfl

end Grammar

/-- Both grammars compile. -/
theorem CompiledGrammar.exists_pairs : ∃ c, CompiledGrammar.ofGrammar .pairs .empty = .ok c ∧
    0 ∈ c.matcher.matching .item ∧ c.automaton.states.size = 9 := by
  obtain ⟨c, hc, hm, hsize⟩ := exists_ofGrammar Grammar.pairs_built (m := ⟨#[.text "a", .never], 1⟩)
    (by cbv) rfl
  exact ⟨c, hc, hm ▸ by decide, hsize.trans (by cbv)⟩

theorem CompiledGrammar.exists_crowd : ∃ c, CompiledGrammar.ofGrammar .crowd .empty = .ok c ∧
    0 ∈ c.matcher.matching .item ∧ c.automaton.states.size = 22 := by
  obtain ⟨c, hc, hm, hsize⟩ := exists_ofGrammar Grammar.crowd_built (m := ⟨#[.text "a", .never], 1⟩)
    (by cbv) rfl
  exact ⟨c, hc, hm ▸ by decide, hsize.trans (by cbv)⟩

namespace Tree

variable {m : TerminalMatcher}

/-- A text of a pair that nothing follows. -/
theorem withRest_of_fits {t : Tree} (h : t.Fits .pairs m (.rule 2)) (hleaves : t.leaves = [.item]) :
    ∃ first, t = .withRest (.onePair first) [.rule "nothing" 5 0 []] := by
  cases h with
  | @rule _ alt children halt hchildren =>
    match alt, halt with
    | 0, _ =>
      obtain _ | ⟨hpair, _ | ⟨hrest, ⟨⟩⟩⟩ := hchildren
      cases hrest with
      | @rule _ alt' none halt' hnone =>
        match alt', halt' with
        | 0, _ =>
          obtain ⟨⟩ := hnone
          simp only [leaves, leavesOfAll, List.append_nil] at hleaves
          obtain ⟨first, rfl⟩ := onePair_of_fits Grammar.pairs_hasPairs hpair hleaves
          exact ⟨first, rfl⟩

/-- Of two trees without tokens there is one of the rule before. -/
theorem exists_blanks_square {A : RuleId} (h : (Grammar.crowd.alternative A 0).symbols =
      [.rule (A + 1), .rule (A + 1)]) {ts : List Tree} (hnodup : ts.Nodup)
    (hts : ∀ t ∈ ts, t.IsBlank .crowd m (A + 1)) :
    ∃ us : List Tree, us.Nodup ∧ us.length = ts.length ^ 2 ∧ ∀ t ∈ us, t.IsBlank .crowd m A := by
  have halt : 0 < (Grammar.crowd.rule A).alternatives.size := by
    by_contra hsize
    rw [Grammar.alternative, Array.getD_of_size_le (Nat.not_lt.1 hsize)] at h
    cases h
  refine ⟨(ts ×ˢ ts).map fun x => .rule (Grammar.crowd.rule A).name A 0 [x.1, x.2],
    (hnodup.product hnodup).map fun x y hxy => ?_, ?_, fun t ht => ?_⟩
  · simpa [Prod.ext_iff] using hxy
  · rw [List.length_map, List.length_product, Nat.pow_two]
  · obtain ⟨⟨u, v⟩, hx, rfl⟩ := List.mem_map.1 ht
    obtain ⟨hu, hv⟩ := List.pair_mem_product.1 hx
    refine ⟨.rule halt (h ▸ .cons (hts u hu).fits (.cons (hts v hv).fits .nil)), ?_⟩
    simp [leaves, leavesOfAll, (hts u hu).leaves_eq, (hts v hv).leaves_eq]

/-- There are more trees without tokens than can be numbered. -/
theorem exists_blanks (m : TerminalMatcher) :
    ∃ ts : List Tree, ts.Nodup ∧ countLimit < ts.length ∧ ∀ t ∈ ts, t.IsBlank .crowd m 5 := by
  have hlevel : ∀ k : Nat, k ≤ 6 → ∃ ts : List Tree, ts.Nodup ∧ ts.length = 2 ^ 2 ^ k ∧
      ∀ t ∈ ts, t.IsBlank .crowd m (11 - k) := by
    intro k hk
    induction k with
    | zero =>
      have hnothing : Tree.Fits .crowd m (.rule "nothing" 12 0 []) (.rule 12) :=
        .rule (A := 12) (by decide) .nil
      refine ⟨[.rule "blank0" 11 0 [.rule "nothing" 12 0 []], .rule "blank0" 11 1 []], by simp, rfl, ?_⟩
      intro t ht
      rcases List.mem_cons.1 ht with rfl | ht
      · exact ⟨.rule (A := 11) (by decide) (.cons hnothing .nil), rfl⟩
      · obtain rfl := List.mem_singleton.1 ht
        exact ⟨.rule (A := 11) (by decide) .nil, rfl⟩
    | succ k ih =>
      obtain ⟨ts, hnodup, hlength, hts⟩ := ih (Nat.le_of_succ_le hk)
      have hA : 11 - k = 11 - (k + 1) + 1 := by omega
      have hsquare : ∀ A : Nat, A < 11 → 5 ≤ A → (Grammar.crowd.alternative A 0).symbols =
        [.rule (A + 1), .rule (A + 1)] := by decide
      obtain ⟨us, hus, hlength', hblank⟩ :=
        exists_blanks_square (hsquare (11 - (k + 1)) (by omega) (by omega)) hnodup (hA ▸ hts)
      exact ⟨us, hus, by rw [hlength', hlength, ← pow_mul, pow_succ], hblank⟩
  obtain ⟨ts, hnodup, hlength, hts⟩ := hlevel 6 (Nat.le_refl 6)
  exact ⟨ts, hnodup, by rw [hlength]; decide, hts⟩

/-- The item of the other pair is in the other list. -/
theorem withRest_ne (first : Bool) (rest rest' : List Tree) :
    withRest (onePair !first) rest ≠ withRest (onePair first) rest' := by
  cases first <;> simp [withRest, onePair, items]

end Tree

/-! ## Refinement -/

namespace Parser

variable {g : Grammar} {lexer : LexerDescription} {c : CompiledGrammar} {config config' : ParserConfig}
  {tokens : TokenStream} {s : σ}

/-- Without precedence and disambiguators a parse with greedy lists answers a forest exactly if one
without does. Where no rule derives itself, the forest with greedy lists has a tree, and every tree for
which its root stands is one of the other forest, which enumerates it if its trees can be numbered. -/
theorem greedy_refines (hg : g.Built) (hs : g.AvoidsStart)
    (hc : CompiledGrammar.ofGrammar g lexer = .ok c) (hprecedence : config.precedence = false)
    (hprecedence' : config'.precedence = false) (ht : tokens.EndsOnce)
    (hlimits : WithinLimits ⟨c, { config with greedy := true }, []⟩ tokens s)
    (hlimits' : WithinLimits ⟨c, { config' with greedy := false }, []⟩ tokens s) :
    ((∃ f, (parseTokens ⟨c, { config with greedy := true }, []⟩ tokens s).1 = .ok f) ↔
      ∃ f, (parseTokens ⟨c, { config' with greedy := false }, []⟩ tokens s).1 = .ok f) ∧
    (¬ g.Cyclic → ∀ f f', (parseTokens ⟨c, { config with greedy := true }, []⟩ tokens s).1 = .ok f →
      (parseTokens ⟨c, { config' with greedy := false }, []⟩ tokens s).1 = .ok f' →
      f.trees ≠ [] ∧
      (∀ t, f.nodes.Reads f.grammar f.tokens f.root t → f'.nodes.Reads f'.grammar f'.tokens f'.root t) ∧
      ((∀ ts : List Tree, ts.Nodup → (∀ t ∈ ts, f'.nodes.Reads f'.grammar f'.tokens f'.root t) →
          ts.length < 2 ^ 64) →
        ∀ t ∈ f.trees, t ∈ f'.trees)) := by
  refine ⟨⟨fun ⟨f, hf⟩ => ?_, fun ⟨f, hf⟩ => ?_⟩, fun hcyclic f f' hf hf' => ?_⟩
  · exact exists_ok_of_plain hg hs hc hprecedence' ht hlimits' (derivesTokens_of_ok hg hc ht hf)
  · exact exists_ok_of_plain hg hs hc hprecedence ht hlimits (derivesTokens_of_ok hg hc ht hf)
  · obtain ⟨e, root, harr, rfl, -⟩ := arrives_of_ok hg hc ht hf
    obtain ⟨e', root', harr', he', -⟩ := arrives_of_ok hg hc ht hf'
    obtain ⟨rfl, -⟩ := CompiledGrammar.parts_of_ofGrammar hc
    have hr := CompiledGrammar.ready hg hc { config with greedy := true }
      ([] : List (Disambiguator σ)) tokens
    have hr' := CompiledGrammar.ready hg hc { config' with greedy := false }
      ([] : List (Disambiguator σ)) tokens
    have hlenient : ParseInput.Lenient
        ⟨c, { config with greedy := true }, ([] : List (Disambiguator σ)), tokens⟩ :=
      ParseInput.lenient_of_plain hprecedence rfl
    have hv' : ParseInput.RuledBy
        ⟨c, { config' with greedy := false }, ([] : List (Disambiguator σ)), tokens⟩ [] :=
      ⟨hprecedence', rfl, .nil⟩
    obtain ⟨last, hend⟩ := CompiledGrammar.endsWith hc ht { config' with greedy := false }
      ([] : List (Disambiguator σ))
    obtain ⟨nodes, htrimmed, hreadings⟩ := harr'.passed_eq hr' hv'
    have hlists := harr'.reads_passed_iff hr' ht hcyclic htrimmed he'
    have hsub : ∀ t, (Engine.passed ⟨c, { config with greedy := true }, [], tokens⟩ e root).Reads
        c.grammar tokens root t → f'.nodes.Reads f'.grammar f'.tokens f'.root t := fun t hread =>
      (hlists t).1.2 ((harr'.reads_iff_of_readings_eq hr' htrimmed.1 hreadings).2
        (harr'.reads_of_isParse hr' hs ht hend hv' (ParseInput.isParse_iff.2 (harr.fits hr ht hread))))
    obtain ⟨-, st, hforest⟩ := harr.inUse hr
    have hexisting := hforest.existing hlenient
    obtain ⟨-, hne⟩ := harr.trees_ne_nil hr ht hcyclic (.inr hexisting)
      (harr.childrenOf_passed_ne_nil hr hlenient ht hprecedence) rfl
    refine ⟨hne, hsub, fun hfew t hmem => ?_⟩
    obtain ⟨ts, hnodup, hmem', htrees⟩ := harr'.lists hr' ht hv' hcyclic he'
    have hreads : ∀ t, t ∈ ts ↔ f'.nodes.Reads f'.grammar f'.tokens f'.root t := fun t => by
      rw [hmem', (hlists t).1, harr'.reads_iff_of_readings_eq hr' htrimmed.1 hreadings]
    rw [htrees (Nat.le_of_lt_succ (hfew ts hnodup fun t ht => (hreads t).1 ht)), hreads]
    exact hsub t (Forest.reads_of_mem_firstTrees hmem)

/-- Of the two trees of a pair greedy lists leave one. -/
theorem greedy_refines_pairs : ∃ c f f', CompiledGrammar.ofGrammar .pairs .empty = .ok c ∧
    (parseTokens ⟨c, { plainConfig with greedy := true }, ([] : List (Disambiguator Unit))⟩
      (.items 1) ()).1 = .ok f ∧
    (parseTokens ⟨c, { plainConfig with greedy := false }, ([] : List (Disambiguator Unit))⟩
      (.items 1) ()).1 = .ok f' ∧
    f.trees ≠ [] ∧ (∀ t ∈ f.trees, t ∈ f'.trees) ∧ ∃ t ∈ f'.trees, t ∉ f.trees := by
  obtain ⟨ht, hcontent, hlength⟩ := TokenStream.items_endsOnce 1
  obtain ⟨c, hc, hm, hsize⟩ := CompiledGrammar.exists_pairs
  have hbuilt := Grammar.pairs_built
  have hs := Grammar.pairs_avoidsStart
  have hcyclic := Grammar.pairs_not_cyclic
  have hpairs := Grammar.pairs_hasPairs
  have hnull := Grammar.pairs_nullable
  have hlimits : ∀ greedy, WithinLimits
      ⟨c, { plainConfig with greedy := greedy }, ([] : List (Disambiguator Unit))⟩ (.items 1) () :=
    fun greedy => withinLimits_of_le hbuilt hc ht
      (by rw [hlength, hsize]; exact show 27 ≤ 1000000 by decide) (by rw [hlength, hsize]; decide)
  obtain ⟨hiff, hsub⟩ := greedy_refines hbuilt hs hc
    (show plainConfig.precedence = false from rfl) (show plainConfig.precedence = false from rfl) ht
    (hlimits true) (hlimits false)
  obtain ⟨f', hf'⟩ := exists_ok_of_pairs { plainConfig with greedy := false } hbuilt hpairs hc hm hs hnull
    rfl (by rw [hsize]; decide)
  obtain ⟨f, hf⟩ := hiff.2 ⟨f', hf'⟩
  obtain ⟨hne, -, hlisted⟩ := hsub hcyclic f f' hf hf'
  refine ⟨c, f, f', hc, hf, hf', hne, hlisted fun ts hnodup hts => ?_, ?_⟩
  · -- there are but two trees
    have htwo : ts ⊆ [true, false].map fun first =>
        Tree.withRest (.onePair first) [.rule "nothing" 5 0 []] := fun t hmem => by
      obtain ⟨e, root, harr, rfl, -⟩ := arrives_of_ok hbuilt hc ht hf'
      obtain ⟨hg, -⟩ := CompiledGrammar.parts_of_ofGrammar hc
      have hr := CompiledGrammar.ready hbuilt hc { plainConfig with greedy := false }
        ([] : List (Disambiguator Unit)) (.items 1)
      obtain ⟨hfits, hleaves⟩ := harr.fits hr ht (hts t hmem)
      rw [ParseInput.grammar, hg] at hfits
      obtain ⟨first, rfl⟩ := Tree.withRest_of_fits hfits (hleaves.trans hcontent)
      exact List.mem_map_of_mem (by cases first <;> simp)
    exact Nat.lt_of_le_of_lt (List.subperm_of_subset hnodup htwo).length_le (by decide)
  · obtain ⟨-, first, hfirst, -⟩ := exists_first hbuilt hpairs hc hm hf hcyclic rfl rfl rfl
    obtain ⟨-, rest, hrest⟩ := exists_withRest hbuilt hpairs hc hm hf' hcyclic rfl hs hnull rfl (!first)
    refine ⟨_, hrest, fun hmem => ?_⟩
    obtain ⟨rest', he⟩ := hfirst _ hmem
    exact Tree.withRest_ne _ _ _ he

/-- Where there are more trees than can be numbered, a parse with greedy lists may enumerate a tree that it
does not enumerate without. -/
theorem greedy_lists_other_tree : Grammar.crowd.Built ∧ Grammar.crowd.AvoidsStart ∧
    ¬ Grammar.crowd.Cyclic ∧ (TokenStream.items 1).EndsOnce ∧
    ∃ c f f' t, CompiledGrammar.ofGrammar .crowd .empty = .ok c ∧
      (parseTokens ⟨c, { plainConfig with greedy := true }, ([] : List (Disambiguator Unit))⟩
        (.items 1) ()).1 = .ok f ∧
      (parseTokens ⟨c, { plainConfig with greedy := false }, ([] : List (Disambiguator Unit))⟩
        (.items 1) ()).1 = .ok f' ∧ t ∈ f.trees ∧ t ∉ f'.trees := by
  have hbuilt := Grammar.crowd_built
  have hs := Grammar.crowd_avoidsStart
  have hcyclic := Grammar.crowd_not_cyclic
  have hpairs := Grammar.crowd_hasPairs
  have hnull := Grammar.crowd_nullable
  refine ⟨hbuilt, hs, hcyclic, (TokenStream.items_endsOnce 1).1, ?_⟩
  obtain ⟨c, hc, hm, hsize⟩ := CompiledGrammar.exists_crowd
  obtain ⟨f, hf⟩ := exists_ok_of_pairs { plainConfig with greedy := true } hbuilt hpairs hc hm hs hnull
    rfl (by rw [hsize]; decide)
  obtain ⟨f', hf'⟩ := exists_ok_of_pairs { plainConfig with greedy := false } hbuilt hpairs hc hm hs hnull
    rfl (by rw [hsize]; decide)
  obtain ⟨hnodup, first, hfirst, hmany⟩ := exists_first hbuilt hpairs hc hm hf hcyclic rfl rfl rfl
  obtain ⟨hfew, rest, hrest⟩ := exists_withRest hbuilt hpairs hc hm hf' hcyclic rfl hs hnull rfl (!first)
  have hother : .withRest (.onePair !first) rest ∉ f.trees := fun hmem => by
    obtain ⟨rest', he⟩ := hfirst _ hmem
    exact Tree.withRest_ne _ _ _ he
  obtain ⟨ts, hts, hlength, hblank⟩ := Tree.exists_blanks c.matcher
  have hfull := hmany ts hts hblank
  -- all trees of one pair and one of the other cannot all be numbered
  by_contra hnone
  have hsub : .withRest (.onePair !first) rest :: f.trees ⊆ f'.trees := by
    refine List.cons_subset.2 ⟨hrest, fun t hmem => ?_⟩
    by_contra hnot
    exact hnone ⟨c, f, f', t, hc, hf, hf', hmem, hnot⟩
  have hle := (List.subperm_of_subset (List.nodup_cons.2 ⟨hother, hnodup⟩) hsub).length_le
  rw [List.length_cons] at hle
  omega

end Parser

end ParseForest
