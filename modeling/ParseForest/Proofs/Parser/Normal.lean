import ParseForest.Proofs.Forest.Normal
import ParseForest.Proofs.Parser.Existence
import ParseForest.Proofs.Parser.Sharing

/-!
# Forests come in normal form

A parse asks for one of two lists of passes. Both lead to a forest in normal form (`Parser.normal_form`): if
no candidate has been turned down, every node that can be reached has its alternatives from the start, and
otherwise the last pruning leaves only choices that have some. This does not depend on the tokens, the
disambiguators, or whether a rule derives itself.
-/

namespace ParseForest

variable {σ : Type}

namespace ParseInput.Formed

variable {input : ParseInput σ} {nodes : Arena} (h : input.Formed nodes)
  (hε : input.compiled.epsilon.Laid input.grammar)
include h hε

/-- The arena of a parse is as the passes expect it. -/
theorem arranged : nodes.Arranged := by
  refine ⟨h.layered hε, h.backed.epsilon, fun id hc p hp => ?_, fun id c hc => ?_⟩
  · rcases h.alternative_cases hε hc hp with ⟨A, alt, -, hnode⟩ | ⟨s, A, alt, dot, children, -, -, hnode, -⟩
    · rw [Arena.childrenOf, hnode, EpsilonForest.packedNode]
      split
      · simp
      · rename_i hne
        simpa [Alternative.isEmpty] using hne
    · rw [Arena.childrenOf, hnode]
      exact List.cons_ne_nil _ _
  · cases hk : (Arena.node nodes id).kind with
    | symbol A => exact .inl (by rw [Node.isChoice, hk])
    | intermediate A alt dot => exact .inl (by rw [Node.isChoice, hk])
    | packed A alt => exact .inr (.inl (by rw [Node.isPacked, hk]))
    | nulled A alt dot => exact .inr (.inr ⟨A, alt, dot, rfl⟩)
    | terminal i =>
      rw [(h.leaf hε hk).2] at hc
      cases hc
    | epsilon =>
      rw [h.children_of_epsilon hε hk] at hc
      cases hc

end ParseInput.Formed

namespace Engine

variable {input : ParseInput σ} {e : Engine σ} {root : NodeId} {user : σ} (hr : input.Ready)
  (h : Arrives input user e root)
include hr h

/-- The root is a node of the first rule. -/
theorem Arrives.kind_root : (Arena.node e.nodes root).kind = .symbol input.grammar.first := by
  have hformed := h.formed hr
  cases h with
  | blank _ hroot => exact (hformed.stands_symbol hr hroot 0).1
  | levels _ hf hroot _ => exact (hf.stands_root hr hroot).1

theorem Arrives.isChoice_root : (Arena.node e.nodes root).isChoice = true := by
  rw [Node.isChoice, h.kind_root hr]

/-- If no candidate has been turned down, what can be reached has alternatives. -/
theorem Arrives.children_ne_nil (hquiet : ¬ 0 < e.rejectedCount) {id : NodeId}
    (hid : e.nodes.Reachable root id) (hc : (Arena.node e.nodes id).isChoice = true) :
    Arena.childrenOf e.nodes id ≠ [] := by
  obtain ⟨huse, st, hforest⟩ := h.inUse hr
  have hstocked := hforest.stocked hr fun key hk => absurd hk (hforest.quiet (by omega) key)
  exact hstocked.ne_nil id (hid.of_closed hstocked.closed huse) hc

/-- The passes leave a forest in normal form, if they leave the root an alternative. -/
theorem Arrives.isNormal (hon : input.config.transforms = true)
    (hne : Arena.childrenOf (passed input e root) root ≠ []) : (passed input e root).IsNormal root := by
  have hformed := h.formed hr
  have harranged := hformed.arranged hr.epsilon
  have hroot := h.isChoice_root hr
  obtain ⟨rank, hrank⟩ := hformed.exists_innerRanked hr.epsilon
  rw [passed, passesOf, if_pos hon] at hne ⊢
  split at hne
  · rename_i hmany
    rw [if_pos hmany]
    exact Pass.isNormal_standard harranged hrank (hformed.stocked_fragments hr)
      (fun id A alt dot hk => hformed.lt_of_nulled hk)
      (fun _ id hid hc p hp => hformed.not_operator_fragment hr hid hc hp) hroot hne
  · rename_i hfew
    rw [if_neg hfew]
    refine Pass.isNormal_structural harranged hrank hroot fun id hid hc =>
      h.children_ne_nil hr (fun hpos => hfew ?_) hid hc
    simp [hpos]

omit h in
/-- A forest that has been through the passes is what they leave of the arena in which a parse ends, and it
is in normal form. -/
theorem exists_arrives_isNormal {f : Forest} (hon : input.config.transforms = true)
    (hf : (run input user).1 = .ok f) : ∃ e root, Arrives input user e root ∧
      f = ⟨passed input e root, root, input.tokens, input.grammar, e.stats⟩ ∧
      (passed input e root).IsNormal root := by
  rcases run_cases hr user with ⟨e, root, harr, hrun⟩ | ⟨-, -, _, hrun, -⟩ | ⟨-, -, hrun⟩ |
    ⟨-, -, _, -, hrun⟩ <;> rw [hrun] at hf
  · rw [finish_eq] at hf
    split at hf
    · cases hf
    · rename_i hleft
      refine ⟨e, root, harr, (Except.ok.inj hf).symm, harr.isNormal hr hon fun hnil => hleft ?_⟩
      have hheads := (passed_sound root (harr.formed hr).backed.toSound).2
      rw [hheads.isChoice_eq, harr.isChoice_root hr]
      rw [Arena.childrenOf, Array.toList_eq_nil_iff] at hnil
      simp [hon, hnil]
  all_goals cases hf

end Engine

namespace Parser

variable {g : Grammar} {lexer : LexerDescription} {c : CompiledGrammar} {config : ParserConfig}
  {user : List (Disambiguator σ)} {tokens : TokenStream} {s : σ} {f : Forest}

/-- A forest that has been through the passes is in normal form: every choice that can be reached has an
alternative, every alternative has a child and none that offers no choice, and the parents of a node are
what can be reached and has it as a child, each once. -/
theorem normal_form (hg : g.Built) (hc : CompiledGrammar.ofGrammar g lexer = .ok c)
    (hon : config.transforms = true) (hf : (parseTokens ⟨c, config, user⟩ tokens s).1 = .ok f) :
    f.nodes.IsNormal f.root := by
  have hr := CompiledGrammar.ready hg hc config user tokens.ensureEof
  obtain ⟨e, root, -, rfl, hnormal⟩ := Engine.exists_arrives_isNormal hr hon hf
  exact hnormal

theorem normal_form_items : ∃ c f, CompiledGrammar.ofGrammar .list .empty = .ok c ∧
    (parseTokens ⟨c, plainConfig, ([] : List (Disambiguator Unit))⟩ (.items 2) ()).1 = .ok f ∧
    f.nodes.IsNormal f.root := by
  obtain ⟨c, hc, hm, hsize⟩ := CompiledGrammar.exists_list
  obtain ⟨ht, hcontent, -⟩ := TokenStream.items_endsOnce 2
  obtain ⟨f, hf⟩ := exists_ok Grammar.list_built Grammar.list_avoidsStart hc rfl rfl ht
    (withinLimits_items hc hsize (by decide) [] ()) (by
      rw [hm, hcontent]
      exact Grammar.list_derivesTokens 1)
  exact ⟨c, f, hc, hf, normal_form Grammar.list_built hc rfl hf⟩

end Parser

end ParseForest
