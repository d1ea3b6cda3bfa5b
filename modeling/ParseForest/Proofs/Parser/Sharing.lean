import ParseForest.Proofs.Parser.Layout
import ParseForest.Proofs.Parser.Ownership
import ParseForest.Proofs.Parser.Safety

/-!
# Nothing is built twice

In every state that a run comes to, the stack has one node per level and state, the forest one node per
rule or rest of an alternative and span, and one derivation per choice, alternative and children
(`Engine.Shared`). So the stack has no more nodes than there are levels and states, and the number of
choices is quadratic in the number of tokens (`Parser.shares`).
-/

namespace ParseForest

variable {σ : Type}

/-- What a choice can be about: a rule, or the rest of an alternative. -/
def Grammar.choiceKinds (g : Grammar) : List NodeKind :=
  (List.range g.rules.size).map .symbol ++ (allItems g).map fun i => .intermediate i.rule i.alt i.dot

/-- The choices of an arena. -/
def Arena.choices (nodes : Arena) : List NodeId :=
  (List.range nodes.size).filter fun id => (node nodes id).isChoice

/-- Nothing is in the stack or in the forest twice. What the parse makes comes after the fragments that
derive nothing. -/
structure Engine.Shared (input : ParseInput σ) (e : Engine σ) : Prop where
  /-- One stack node per level and state -/
  stack_unique : ∀ u < e.stack.nodes.size, ∀ v < e.stack.nodes.size,
    (e.stack.node u).level = (e.stack.node v).level → (e.stack.node u).state = (e.stack.node v).state → u = v
  edges_nodup : ∀ u, (e.stack.node u).edges.toList.Nodup
  /-- An edge leads to the same level or an earlier one -/
  edge_target : ∀ u, ∀ edge ∈ (e.stack.node u).edges, edge.target < e.stack.nodes.size ∧
    (e.stack.node edge.target).level ≤ (e.stack.node u).level
  choice_span : ∀ id, input.compiled.epsilon.nodes.size ≤ id → (Arena.node e.nodes id).isChoice = true →
    ∃ l r, (Arena.node e.nodes id).span = some ⟨l, r⟩ ∧ l < r
  /-- One node per rule, left and right end -/
  symbol_unique : ∀ id id' A s, (Arena.node e.nodes id).kind = .symbol A →
    (Arena.node e.nodes id').kind = .symbol A → (Arena.node e.nodes id).span = some s →
    (Arena.node e.nodes id').span = some s → id = id'
  intermediate_unique : ∀ id id' A alt dot s, (Arena.node e.nodes id).kind = .intermediate A alt dot →
    (Arena.node e.nodes id').kind = .intermediate A alt dot → (Arena.node e.nodes id).span = some s →
    (Arena.node e.nodes id').span = some s → id = id'
  terminal_unique : ∀ id id' i, (Arena.node e.nodes id).kind = .terminal i →
    (Arena.node e.nodes id').kind = .terminal i → id = id'
  /-- A packed node that the parse has made has one or two children, and one parent -/
  packed : ∀ p, input.compiled.epsilon.nodes.size ≤ p → (Arena.node e.nodes p).isPacked = true →
    ((Arena.childrenOf e.nodes p).length = 1 ∨ (Arena.childrenOf e.nodes p).length = 2) ∧
      ∃ owner, (Arena.node e.nodes owner).isChoice = true ∧ p ∈ Arena.childrenOf e.nodes owner ∧
        ∀ id, p ∈ Arena.childrenOf e.nodes id → id = owner
  children_nodup : ∀ id, (Arena.node e.nodes id).isChoice = true → (Arena.childrenOf e.nodes id).Nodup
  /-- Different derivations of a choice have different alternatives or children -/
  alternative_unique : ∀ id A A' alt, (Arena.node e.nodes id).isChoice = true →
    ∀ p ∈ Arena.childrenOf e.nodes id, ∀ p' ∈ Arena.childrenOf e.nodes id,
    (Arena.node e.nodes p).kind = .packed A alt → (Arena.node e.nodes p').kind = .packed A' alt →
    Arena.childrenOf e.nodes p = Arena.childrenOf e.nodes p' → p = p'

theorem Spells.ne_nil {g : Grammar} {m : TerminalMatcher} {tokens : TokenStream} {α : List Symbol}
    {l r : Nat} (h : Spells g m tokens α l r) (hlt : l < r) : α ≠ [] := by
  rintro rfl
  obtain ⟨w, hw, rfl, -⟩ := h
  rcases Relation.ReflTransGen.cases_head hw with he | ⟨γ, hp, -⟩
  · obtain rfl := List.map_eq_nil_iff.1 he.symm
    exact Nat.lt_irrefl _ hlt
  · generalize hs : ([] : List Symbol) = β at hp
    cases hp
    simp at hs

namespace ParseInput.Formed

variable {input : ParseInput σ} {nodes : Arena} (h : input.Formed nodes)
  (hε : input.compiled.epsilon.Laid input.grammar)
include h hε

/-- The alternatives of a choice are of one rule. -/
theorem rule_unique {id p p' : NodeId} {A A' : RuleId} {alt alt' : Nat}
    (hc : (Arena.node nodes id).isChoice = true) (hp : p ∈ Arena.childrenOf nodes id)
    (hp' : p' ∈ Arena.childrenOf nodes id) (hk : (Arena.node nodes p).kind = .packed A alt)
    (hk' : (Arena.node nodes p').kind = .packed A' alt') : A = A' := by
  have hrule : ∀ {q : NodeId} {B : RuleId} {b : Nat}, q ∈ Arena.childrenOf nodes id →
      (Arena.node nodes q).kind = .packed B b → (Arena.node nodes id).rule? = some B := by
    intro q B b hq hkq
    rcases h.alternative_cases hε hc hq with ⟨C, c, hC, hnode⟩ |
      ⟨s, C, c, dot, children, -, ⟨⟨hid, -⟩ | hid, -⟩, hnode, -⟩
    · rw [hnode] at hkq
      obtain ⟨rfl, rfl⟩ := NodeKind.packed.inj hkq
      obtain ⟨hlt, hid, -⟩ := hε.symbol C id hC
      rw [Node.rule?, h.fragment id hlt, hid]
    all_goals
      rw [hnode] at hkq
      obtain ⟨rfl, rfl⟩ := NodeKind.packed.inj hkq
      rw [Node.rule?, hid]
  exact Option.some.inj ((hrule hp hk).symm.trans (hrule hp' hk'))

/-- A choice is about a rule or the rest of an alternative. -/
theorem kind_mem_choiceKinds {id : NodeId} (hc : (Arena.node nodes id).isChoice = true) :
    (Arena.node nodes id).kind ∈ input.grammar.choiceKinds := by
  have hspelled := h.backed.spelled id
  rcases Node.isChoice_iff.1 hc with ⟨A, hk⟩ | ⟨A, alt, dot, hk⟩
  · rw [Arena.IsSpelled, hk] at hspelled
    obtain ⟨l, r, hspan⟩ : ∃ l r, (Arena.node nodes id).span = some ⟨l, r⟩ ∨
        ((Arena.node nodes id).span = none ∧ l = r) := by
      cases hs : (Arena.node nodes id).span with
      | none => exact ⟨0, 0, .inr ⟨rfl, rfl⟩⟩
      | some s => exact ⟨s.left, s.right, .inl rfl⟩
    obtain ⟨w, hw, -⟩ := hspelled l r hspan
    have hlt : A < input.grammar.rules.size := by
      rcases Grammar.derives_rule_iff.1 hw with he | ⟨a, ha, -⟩
      · cases w with
        | nil => cases he
        | cons t w => cases (List.cons.inj he).1
      · obtain ⟨alt, halt, -⟩ := Grammar.mem_alternatives_iff.1 ha
        exact Grammar.lt_size_of_alternative halt
    rw [hk, Grammar.choiceKinds, List.mem_append]
    exact .inl (List.mem_map.2 ⟨A, List.mem_range.2 hlt, rfl⟩)
  · obtain ⟨⟨l, r⟩, hs⟩ : ∃ s, (Arena.node nodes id).span = some s := by
      cases hs : (Arena.node nodes id).span with
      | some s => exact ⟨s, rfl⟩
      | none =>
        obtain ⟨B, hkB, -⟩ := h.kind_of_span_none hε hc hs
        cases hk.symm.trans hkB
    have hlr := h.lt_of_span hε hs
    rw [Arena.IsSpelled, hk] at hspelled
    have hne := (hspelled l r hs).ne_nil hlr
    have hdot : dot < (input.grammar.alternative A alt).length := by
      by_contra hge
      exact hne (List.drop_eq_nil_of_le (Nat.not_lt.1 hge))
    have halt : alt < (input.grammar.rule A).alternatives.size := by
      by_contra hge
      rw [Grammar.alternative, Array.getD_of_size_le (Nat.not_lt.1 hge)] at hdot
      exact Nat.not_lt_zero _ hdot
    rw [hk, Grammar.choiceKinds, List.mem_append]
    exact .inr (List.mem_map.2 ⟨⟨A, alt, dot⟩, Item.mem_allItems_iff.2 ⟨halt, Nat.le_of_lt hdot⟩, rfl⟩)

/-- A choice spans tokens of the input. -/
theorem le_length_of_span {id : NodeId} {s : Span} (hc : (Arena.node nodes id).isChoice = true)
    (hs : (Arena.node nodes id).span = some s) : s.right ≤ input.tokens.length := by
  have hspelled := h.backed.spelled id
  have hlr := h.lt_of_span hε hs
  rcases Node.isChoice_iff.1 hc with ⟨A, hk⟩ | ⟨A, alt, dot, hk⟩ <;> rw [Arena.IsSpelled, hk] at hspelled
  · exact (hspelled s.left s.right (.inl hs)).le_length hlr
  · exact (hspelled s.left s.right hs).le_length hlr

/-- There are no two choices of one kind and span, not even among the fragments. -/
theorem choice_unique {id id' : NodeId} (hc : (Arena.node nodes id).isChoice = true)
    (hk : (Arena.node nodes id).kind = (Arena.node nodes id').kind)
    (hs : (Arena.node nodes id).span = (Arena.node nodes id').span) : id = id' := by
  cases hspan : (Arena.node nodes id).span with
  | some s => exact h.unique id id' s hspan (hs ▸ hspan) hk
  | none =>
    obtain ⟨A, hkA, hA⟩ := h.kind_of_span_none hε hc hspan
    have hA' := h.symbol?_of_span_none hε (hk.symm.trans hkA) (hs ▸ hspan)
    exact Option.some.inj (hA.symm.trans hA')

/-- The number of choices is quadratic in the number of tokens. -/
theorem length_choices_le : nodes.choices.length ≤
    input.grammar.choiceKinds.length * (input.tokens.length + 1) ^ 2 := by
  -- no choice spans nothing, so that the span of a fragment can be taken to be the empty one at the start
  let key (id : NodeId) : NodeKind × Nat × Nat :=
    let s := (Arena.node nodes id).span.getD ⟨0, 0⟩
    ((Arena.node nodes id).kind, s.left, s.right)
  have hchoice : ∀ {id}, id ∈ nodes.choices → (Arena.node nodes id).isChoice = true := fun hid =>
    (List.mem_filter.1 hid).2
  have hnodup : (nodes.choices.map key).Nodup := by
    refine (List.nodup_map_iff_inj_on (List.nodup_range.filter _)).2 fun id hid id' hid' he => ?_
    obtain ⟨hk, hspan⟩ := Prod.mk.inj he
    refine h.choice_unique hε (hchoice hid) hk ?_
    cases hs : (Arena.node nodes id).span with
    | none =>
      cases hs' : (Arena.node nodes id').span with
      | none => rfl
      | some s' =>
        have := h.lt_of_span hε hs'
        simp [hs, hs'] at hspan
        omega
    | some s =>
      have := h.lt_of_span hε hs
      cases hs' : (Arena.node nodes id').span with
      | none =>
        simp [hs, hs'] at hspan
        omega
      | some s' =>
        simp [hs, hs'] at hspan
        exact congrArg some (congrArg₂ Span.mk hspan.1 hspan.2)
  have hsub : nodes.choices.map key ⊆ input.grammar.choiceKinds ×ˢ
      (List.range (input.tokens.length + 1) ×ˢ List.range (input.tokens.length + 1)) := by
    intro x hx
    obtain ⟨id, hid, rfl⟩ := List.mem_map.1 hx
    refine List.pair_mem_product.2 ⟨h.kind_mem_choiceKinds hε (hchoice hid), List.pair_mem_product.2 ?_⟩
    simp only [List.mem_range]
    cases hs : (Arena.node nodes id).span with
    | none => simp
    | some s =>
      have hle := h.le_length_of_span hε (hchoice hid) hs
      have hlt := h.lt_of_span hε hs
      simp only [Option.getD_some]
      omega
  have hle := (List.subperm_of_subset hnodup hsub).length_le
  simpa [List.length_product, Nat.pow_two] using hle

end ParseInput.Formed

namespace Engine

variable {input : ParseInput σ} {user : σ} {start : StackId} {e : Engine σ}

/-- Between two steps the forest is valid, at some stage of the parse. -/
theorem Between.forest {ph : Phase} (h : Between input start ph e) :
    ∃ st ds, ForestValid input st ds e := by
  cases ph with
  | begin l => exact ⟨_, _, h.2.forest⟩
  | queue l nodes => exact ⟨_, _, h.1.toForestValid⟩
  | reduce l => exact ⟨_, _, (Labours.toValid h).toForestValid⟩
  | settle l ds =>
    obtain ⟨w, hf⟩ := Judges.forest h
    exact ⟨_, _, hf⟩
  | shift l label xs => exact ⟨_, _, Moves.forest h⟩
  | stop =>
    obtain ⟨w, hf⟩ := Judges.forest h
    exact ⟨_, _, hf⟩

/-- In every state that a run comes to, nothing is there twice. -/
theorem Reaches.shared (hr : input.Ready) {ph : Phase} (h : Reaches input user start ph e) :
    e.Shared input := by
  have hb := h.between hr
  obtain ⟨hstack, -⟩ := hb.valid
  obtain ⟨st, ds, hforest⟩ := hb.forest
  have hf := hforest.formed
  have hε := hr.epsilon
  have hparented := (h.parented hr).nodes
  have hdistinct := hf.distinct hε hforest.nodup
  refine {
    stack_unique := fun u hu v hv hl hs => hstack.indexed.unique u hu v hv hs hl
    edges_nodup := hstack.indexed.nodup_edges
    edge_target := fun u edge he => ⟨hstack.indexed.target_lt u edge he, hstack.level_target_le hf he⟩
    choice_span := fun id hmade hc => ?_
    symbol_unique := fun id id' A s hk hk' hs hs' => hf.unique id id' s hs hs' (hk.trans hk'.symm)
    intermediate_unique := fun id id' A alt dot s hk hk' hs hs' =>
      hf.unique id id' s hs hs' (hk.trans hk'.symm)
    terminal_unique := fun id id' i hk hk' =>
      hf.unique id id' _ (hf.leaf hε hk).1 (hf.leaf hε hk').1 (hk.trans hk'.symm)
    packed := fun p hmade hp => ?_
    children_nodup := fun id hc => List.Nodup.of_map _ (hdistinct.nodup id hc)
    alternative_unique := fun id A A' alt hc p hp p' hp' hk hk' hchildren => ?_ }
  · cases hs : (Arena.node e.nodes id).span with
    | some s => exact ⟨s.left, s.right, rfl, hf.lt_of_span hε hs⟩
    | none =>
      obtain ⟨A, hA⟩ := hf.fragment_of_span_none hε hc hs
      exact absurd (hε.symbol A id hA).1 (Nat.not_lt.2 hmade)
  · obtain ⟨owner, ⟨hc, hmem⟩, honly⟩ := hparented.owner p hmade hp
    refine ⟨?_, owner, hc, hmem, fun id hid => honly id ⟨hf.isChoice_of_isPacked hε hp hid, hid⟩⟩
    -- its owner is no fragment, as the children of fragments are fragments
    rcases hf.alternative_cases hε hc hmem with ⟨A, alt, hA, -⟩ | ⟨s, A, alt, dot, children, -, -, hnode, -⟩
    · have hlt := (hε.symbol A owner hA).1
      rw [Arena.childrenOf, hf.fragment owner hlt] at hmem
      exact absurd (Arena.closed_epsilon hε hmem) (Nat.not_lt.2 hmade)
    · rw [Arena.childrenOf, hnode]
      cases children with
      | mk first second => cases second <;> simp [Arena.alternativeNode, Children.toList]
  · obtain rfl := hf.rule_unique hε hc hp hp' hk hk'
    refine List.inj_on_of_nodup_map (hdistinct.nodup id hc) hp hp' ?_
    rw [hk, hk', hchildren]

end Engine

namespace Parser

variable {g : Grammar} {lexer : LexerDescription} {c : CompiledGrammar}

/-- In every state that a parse comes to, nothing is in the stack or in the forest twice. So there is at
most one stack node per level and state, and the number of choices is at most quadratic in the number of
tokens, with a factor that depends on the grammar alone. -/
theorem shares (hg : g.Built) (hc : CompiledGrammar.ofGrammar g lexer = .ok c)
    (config : ParserConfig) (user : List (Disambiguator σ)) (tokens : TokenStream) (s : σ)
    {start : StackId} {ph : Phase} {e : Engine σ}
    (h : Engine.Reaches ⟨c, config, user, tokens.ensureEof⟩ s start ph e) :
    e.Shared ⟨c, config, user, tokens.ensureEof⟩ ∧
    e.stack.nodes.size ≤ (tokens.ensureEof.length + 1) * c.automaton.states.size ∧
    e.nodes.choices.length ≤ g.choiceKinds.length * (tokens.ensureEof.length + 1) ^ 2 := by
  have hr := CompiledGrammar.ready hg hc config user tokens.ensureEof
  obtain ⟨rfl, -⟩ := CompiledGrammar.parts_of_ofGrammar hc
  have hb := h.between hr
  obtain ⟨hstack, -⟩ := hb.valid
  obtain ⟨st, ds, hforest⟩ := hb.forest
  refine ⟨h.shared hr, ?_, hforest.formed.length_choices_le hr.epsilon⟩
  have hsize := hstack.indexed.size_le hstack.state_lt
  rwa [hstack.levels_size] at hsize

/-- After the parse of three items nothing is there twice, in a stack with an edge for the root, and in a
forest in which the parse has made a root that stands for two trees. -/
theorem shares_items : ∃ c start e root, CompiledGrammar.ofGrammar .list .empty = .ok c ∧
    Engine.Reaches ⟨c, plainConfig, ([] : List (Disambiguator Unit)), (TokenStream.items 3).ensureEof⟩ ()
      start .stop e ∧
    (∃ u, ⟨start, root⟩ ∈ (e.stack.node u).edges) ∧ c.epsilon.nodes.size ≤ root ∧
    (∀ fromLeft, e.nodes.Reads .list (.items 3) root (.threeItems fromLeft)) ∧
    e.Shared ⟨c, plainConfig, ([] : List (Disambiguator Unit)), (TokenStream.items 3).ensureEof⟩ ∧
    e.stack.nodes.size ≤ 5 * 6 ∧ e.nodes.choices.length ≤ Grammar.list.choiceKinds.length * 5 ^ 2 := by
  obtain ⟨c, f, start, e, root, hc, -, -, hreach, harr, -, hedge, hspan, hreads⟩ :=
    exists_parse_items (n := 3) (by decide) (by decide)
  obtain ⟨c', hc', -, hsize⟩ := CompiledGrammar.exists_list
  obtain rfl := Except.ok.inj (hc'.symm.trans hc)
  obtain ⟨ht, -, hlen⟩ := TokenStream.items_endsOnce 3
  have hr := CompiledGrammar.ready Grammar.list_built hc plainConfig ([] : List (Disambiguator Unit))
    (.items 3)
  rw [← ht.ensureEof_eq] at hreach
  obtain ⟨hshared, hstack, hchoices⟩ := shares Grammar.list_built hc plainConfig [] (.items 3) () hreach
  rw [ht.ensureEof_eq, hlen] at hstack hchoices
  rw [hsize] at hstack
  exact ⟨c', start, e, root, hc, hreach, hedge, (harr.formed hr).size_le_of_span hr.epsilon hspan,
    fun fromLeft => (hreads _).2 (Tree.isItems_threeItems fromLeft), hshared, hstack, hchoices⟩

end Parser

end ParseForest
