import ParseForest.Proofs.Forest.Enumerating
import ParseForest.Proofs.Forest.Stocked
import ParseForest.Proofs.Parser.Acyclic
import ParseForest.Proofs.Parser.Answer

/-!
# A forest has a tree

Where no rule derives itself, a forest that has been through the passes has a tree (`Parser.exists_tree`).
If anything has been turned down, the last pruning has taken away what stands for nothing; and if
nothing has been turned down, every node of the forest has an alternative, so there is nothing to take
away (`Engine.ForestValid.stocked`).
-/

namespace ParseForest

variable {σ : Type} {input : ParseInput σ} {nodes : Arena}

namespace ParseInput.Formed

variable (h : input.Formed nodes) (hr : input.Ready)
include h hr

/-- The fragments that are choices are those of rules. -/
theorem exists_symbol? {id : NodeId} (hid : id < input.compiled.epsilon.nodes.size)
    (hc : (Arena.node nodes id).isChoice = true) :
    ∃ A, input.compiled.epsilon.symbol? A = some id :=
  h.fragment_of_span_none hr.epsilon hc (by rw [h.fragment id hid, hr.epsilon.span_eq_none hid])

/-- The fragments have alternatives. -/
theorem stocked_fragments : nodes.Stocked (· < input.compiled.epsilon.nodes.size) := by
  refine ⟨fun id hid c hc => ?_, fun id hid hc => ?_⟩
  · rw [Arena.childrenOf, h.fragment id hid] at hc
    exact Arena.closed_epsilon hr.epsilon hc
  · obtain ⟨A, hA⟩ := h.exists_symbol? hr hid hc
    rw [h.fragment id hid] at hc
    rw [Arena.childrenOf, h.fragment id hid]
    exact hr.epsilon.alive hr.wellFormed hA hc

/-- What derives nothing has no operator. -/
theorem not_operator_fragment {id p : NodeId} (hid : id < input.compiled.epsilon.nodes.size)
    (hc : (Arena.node nodes id).isChoice = true) (hp : p ∈ Arena.childrenOf nodes id) :
    Pass.isOperatorNode input.grammar nodes p = false := by
  obtain ⟨A, hA⟩ := h.exists_symbol? hr hid hc
  rw [Arena.childrenOf, h.fragment id hid] at hp
  obtain ⟨alt, halt, hlt, hnode⟩ :=
    List.exists_right_of_forall₂ (hr.epsilon.symbol A id hA).2.2.2 hp
  obtain ⟨halt, hnull⟩ := List.mem_filter.1 halt
  have hn : input.grammar.Nullable ((input.grammar.alternative A alt).symbols.drop 0) :=
    Arena.nullable_drop hr.wellFormed (Nat.le_of_eq (beq_iff_eq.1 hnull))
  rw [Pass.isOperatorNode, h.fragment p hlt, hnode]
  change (input.grammar.alternative A alt).operator.isSome = false
  by_contra hop
  obtain ⟨op, hop⟩ := Option.isSome_iff_exists.1 (eq_true_of_ne_false hop)
  -- an operator is a terminal, and no terminal derives nothing
  obtain ⟨t, ht⟩ := hr.wellFormed.operator_terminal (List.mem_range.1 halt) hop
  exact Grammar.not_nullable_terminal
    (Grammar.nullable_iff_forall.1 hn _ (List.mem_of_getElem? ht))

omit hr in
/-- What derives a part of a right-hand side from nothing is a fragment. -/
theorem lt_of_nulled {id : NodeId} {A : RuleId} {alt dot : Nat}
    (hk : (Arena.node nodes id).kind = .nulled A alt dot) :
    id < input.compiled.epsilon.nodes.size := by
  by_contra hge
  have hm := h.made id (Nat.not_lt.1 hge) (Arena.lt_size_of_kind (by rw [hk]; simp))
  rw [Node.IsMade, hk] at hm
  exact hm

end ParseInput.Formed

namespace Engine

variable {e : Engine σ} {st : Stage} {root : NodeId} {user : σ}

/-- The nodes below which there is a way to tokens or to nothing: the fragments, what can be used, and
the alternatives of what spans tokens. -/
inductive InUse (input : ParseInput σ) (e : Engine σ) (id : NodeId) : Prop
  | fragment (h : id < input.compiled.epsilon.nodes.size)
  | usable (h : e.Usable input id) (hp : (Arena.node e.nodes id).isPacked = false)
  | alternative {owner : NodeId} {s : Span} (hc : (Arena.node e.nodes owner).isChoice = true)
      (hs : (Arena.node e.nodes owner).span = some s) (h : id ∈ Arena.childrenOf e.nodes owner)

/-- If what owns a derivation that has been turned down has another one, all nodes in use have
alternatives. -/
theorem ForestValid.stocked (hr : input.Ready) (h : ForestValid input st [] e)
    (hrejected : ∀ key ∈ e.rejected, Arena.childrenOf e.nodes key.owner ≠ []) :
    e.nodes.Stocked (e.InUse input) := by
  have hfragments := h.formed.stocked_fragments hr
  have hl := h.formed.layered hr.epsilon
  refine ⟨fun id hid c hc => ?_, fun id hid hchoice => ?_⟩
  · cases hid with
    | fragment hlt => exact .fragment (hfragments.closed id hlt c hc)
    | alternative ho hs hp => exact .usable (h.usable _ _ ho hs id hp c hc) (hl.inner _ ho id hp c hc)
    | usable hu hnot =>
      by_cases hchoice : (Arena.node e.nodes id).isChoice = true
      · cases hs : (Arena.node e.nodes id).span with
        | some s => exact .alternative hchoice hs hc
        | none =>
          obtain ⟨A, hA⟩ := h.formed.fragment_of_span_none hr.epsilon hchoice hs
          exact .fragment (hfragments.closed id (hr.epsilon.symbol A id hA).1 c hc)
      · cases hk : (Arena.node e.nodes id).kind with
        | symbol A => simp [Node.isChoice, hk] at hchoice
        | intermediate A alt dot => simp [Node.isChoice, hk] at hchoice
        | packed A alt => simp [Node.isPacked, hk] at hnot
        | terminal i =>
          rw [(h.formed.leaf hr.epsilon hk).2] at hc
          cases hc
        | epsilon =>
          rw [h.formed.children_of_epsilon hr.epsilon hk] at hc
          cases hc
        | nulled A alt dot => exact .fragment (hfragments.closed id (h.formed.lt_of_nulled hk) c hc)
  · cases hs : (Arena.node e.nodes id).span with
    | none =>
      obtain ⟨A, hA⟩ := h.formed.fragment_of_span_none hr.epsilon hchoice hs
      exact hfragments.ne_nil id (hr.epsilon.symbol A id hA).1 hchoice
    | some s =>
      have hu : e.Usable input id := by
        cases hid with
        | fragment hlt => exact absurd (h.formed.size_le_of_span hr.epsilon hs) (Nat.not_le.2 hlt)
        | usable hu _ => exact hu
        | alternative ho _ hp =>
          have hpacked := h.formed.isPacked hr.epsilon ho hp
          obtain ⟨B, alt, hk⟩ := Node.isPacked_iff.1 hpacked
          simp [Node.isChoice, hk] at hchoice
      obtain ⟨key, rfl, hk | hk⟩ := hu.marked hchoice s hs
      · rcases (h.packed_iff key).1 hk with ⟨-, A, -, p, hp, -⟩ | ⟨d, hd, -⟩
        · exact List.ne_nil_of_mem hp
        · cases hd
      · exact hrejected key hk

section

variable (hr : input.Ready) (h : Arrives input user e root)
include hr h

/-- The forest of a parse is finished, and its root is in use. -/
theorem Arrives.inUse : e.InUse input root ∧ ∃ st, ForestValid input st [] e := by
  cases h with
  | blank _ hroot =>
    exact ⟨.fragment (hr.epsilon.symbol _ root hroot).1, _, .initial hr.wellFormed hr.epsilon user⟩
  | levels _ hf hroot _ =>
    refine ⟨.usable (hf.usable_root hroot) ?_, _, hf.forest⟩
    rw [Node.isPacked, (hf.stands_root hr hroot).1]

/-- What the passes leave to the root stands for something, where no node is below itself. -/
theorem Arrives.allReadings_ne_nil (ht : input.tokens.EndsOnce) {rank : NodeId → Nat}
    (hrank : e.nodes.Ranked rank)
    (hrest : input.config.transforms = true ∨
      ∀ key ∈ e.rejected, Arena.childrenOf e.nodes key.owner ≠ [])
    (hne : Arena.childrenOf (passed input e root) root ≠ []) :
    (passed input e root).Layered ∧ (passed input e root).Ranked rank ∧
      (passed input e root).allReadings input.grammar input.tokens root ≠ [] := by
  have hformed := h.formed hr
  have hl := h.layered hr
  have hε := hformed.backed.epsilon
  have hleaf : ∀ id i, (Arena.node e.nodes id).kind = .terminal i → (input.tokens.get? i).isSome :=
    fun id i hk => Option.isSome_iff_exists.2
      ⟨_, Array.getElem?_eq_getElem (hformed.lt_length_of_terminal hk)⟩
  obtain ⟨huse, st, hforest⟩ := h.inUse hr
  -- where nothing has been turned down for good, the root stands for something without the passes
  have hall : (∀ key ∈ e.rejected, Arena.childrenOf e.nodes key.owner ≠ []) →
      e.nodes.allReadings input.grammar input.tokens root ≠ [] := fun hrejected =>
    (hforest.stocked hr hrejected).readings_ne_nil hl hrank (fun id i _ => hleaf id i) huse
      (Nat.lt_succ_of_le (hrank.le_size root))
  have hquiet : ¬ 0 < e.rejectedCount → ∀ key ∈ e.rejected, Arena.childrenOf e.nodes key.owner ≠ [] :=
    fun hzero key hk => absurd hk (hforest.quiet (by omega) key)
  rw [passed, passesOf] at hne ⊢
  split at hne
  · rename_i htransforms
    rw [if_pos htransforms]
    split at hne
    · rename_i hmany
      rw [if_pos hmany]
      refine Pass.allReadings_standard_ne_nil hl hrank hε hleaf (hformed.stocked_fragments hr)
        (fun id A alt dot hk => hformed.lt_of_nulled hk)
        (fun _ id hid hc p hp => hformed.not_operator_fragment hr hid hc hp) ?_ hne
      rw [Node.isChoice, (h.stands hr ht).1]
    · rename_i hfew
      rw [if_neg hfew]
      have hrestacks := @Pass.restacks_collapse_linkParents e.nodes input.grammar input.tokens root rank
        hrank hl hε
      rw [Pass.runAll_eq]
      refine ⟨hrestacks.layered, hrestacks.ranked, ?_⟩
      rw [Pass.structural, List.foldl_cons, List.foldl_cons, List.foldl_nil, hrestacks.readings]
      exact hall (hquiet fun hpos => hfew (by simp [hpos]))
  · rename_i hoff
    rw [if_neg hoff]
    exact ⟨hl, hrank, hall (hrest.resolve_left hoff)⟩

/-- The forest has a tree if its root has an alternative, where no rule derives itself. -/
theorem Arrives.trees_ne_nil (ht : input.tokens.EndsOnce) (hcyclic : ¬ input.grammar.Cyclic)
    (hrest : input.config.transforms = true ∨
      ∀ key ∈ e.rejected, Arena.childrenOf e.nodes key.owner ≠ [])
    (hne : Arena.childrenOf (passed input e root) root ≠ []) {f : Forest}
    (hf : f = ⟨passed input e root, root, input.tokens, input.grammar, e.stats⟩) :
    1 ≤ f.treeCount ∧ f.trees ≠ [] := by
  subst hf
  have hformed := h.formed hr
  obtain ⟨rank, hrank⟩ := hformed.exists_ranked hr.epsilon hr.wellFormed hcyclic
  obtain ⟨hl, hrank, hall⟩ := h.allReadings_ne_nil hr ht hrank hrest hne
  have hheads := (passed_sound root hformed.backed.toSound).2
  exact Forest.trees_ne_nil hrank hl
    (fun id i hk => hformed.lt_length_of_terminal ((hheads.kind_eq id).symm.trans hk))
    ((hheads.kind_eq root).trans (h.stands hr ht).1) hall

end

end Engine

namespace Parser

variable {g : Grammar} {lexer : LexerDescription} {c : CompiledGrammar} {config : ParserConfig}
  {user : List (Disambiguator σ)} {tokens : TokenStream} {s : σ}

/-- Where no rule derives itself, a forest that has been through the passes has a tree. -/
theorem exists_tree (hg : g.Built) (hcyclic : ¬ g.Cyclic)
    (hc : CompiledGrammar.ofGrammar g lexer = .ok c) (htransforms : config.transforms = true)
    (ht : tokens.EndsOnce) {f : Forest} (hf : (parseTokens ⟨c, config, user⟩ tokens s).1 = .ok f) :
    1 ≤ f.treeCount ∧ f.trees ≠ [] := by
  obtain ⟨e, root, harr, hf, hne⟩ := arrives_of_ok hg hc ht hf
  obtain ⟨rfl, -⟩ := CompiledGrammar.parts_of_ofGrammar hc
  exact harr.trees_ne_nil (CompiledGrammar.ready hg hc config user tokens) ht hcyclic
    (.inl htransforms) (hne htransforms) hf

theorem exists_tree_items : ∃ c f, CompiledGrammar.ofGrammar .list .empty = .ok c ∧
    (parseTokens ⟨c, plainConfig, ([] : List (Disambiguator Unit))⟩ (.items 2) ()).1 = .ok f ∧
    1 ≤ f.treeCount ∧ f.trees ≠ [] := by
  obtain ⟨c, hc, hm, hsize⟩ := CompiledGrammar.exists_list
  obtain ⟨ht, hcontent, -⟩ := TokenStream.items_endsOnce 2
  obtain ⟨f, hf⟩ := exists_ok Grammar.list_built Grammar.list_avoidsStart hc rfl rfl ht
    (withinLimits_items hc hsize (by decide) [] ()) (by
      rw [hm, hcontent]
      exact Grammar.list_derivesTokens 1)
  exact ⟨c, f, hc, hf, exists_tree Grammar.list_built Grammar.list_not_cyclic hc rfl ht hf⟩

end Parser

end ParseForest
