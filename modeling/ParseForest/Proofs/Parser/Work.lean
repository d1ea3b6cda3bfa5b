import ParseForest.Proofs.Automaton.Actions
import ParseForest.Proofs.Parser.Forest
import ParseForest.Proofs.Parser.Stack

/-!
# Valid work

What is queued at a level makes sense: a walk stands at a stack node whose state has the item that
is left to be walked, and its tail stands for the symbols after it up to the current level
(`Pending.Valid`). Edges of the stack are labelled by what their transition recognises. From this it
follows that the engine can only fail where `ParseInput.MayFail` allows it.
-/

namespace ParseForest

variable {σ : Type}

/-- What the parts of a compiled grammar guarantee. -/
structure ParseInput.Ready (input : ParseInput σ) : Prop where
  wellFormed : input.grammar.WellFormed
  automaton : input.compiled.automaton.Of input.grammar
  epsilon : input.compiled.epsilon.Laid input.grammar
  exact : input.grammar.AvoidsStart → input.compiled.automaton.IsExact input.grammar

/-- The symbols that a reduction leaves out have a fragment. -/
theorem ParseInput.Ready.exists_tail {input : ParseInput σ} (hr : input.Ready) {rule : RuleId}
    {alt n : Nat} (halt : alt < (input.grammar.rule rule).alternatives.size) (hn : 0 < n)
    (hlt : n < (input.grammar.alternative rule alt).length)
    (hnull : input.grammar.Nullable ((input.grammar.alternative rule alt).symbols.drop n)) :
    ∃ part, input.compiled.epsilon.tail? rule alt n = some part := by
  have hle := (hr.wellFormed.nullableFrom_le_iff rule _ (Grammar.alternative_mem halt) n).2 hnull
  exact Option.isSome_iff_exists.1 ((hr.epsilon.tail?_isSome rule alt n).2 ⟨halt, hn, hlt, hle⟩)

/-- The errors that can end a level early: that of a limit which leaves no room for as many stack
nodes as there can be. -/
def ParseInput.MayFail (input : ParseInput σ) : ParseError → Prop
  | .stackLimit limit => limit = input.config.maxStackNodes ∧
      (limit < Engine.nodeBound input ∨ GraphStack.idLimit < Engine.nodeBound input)
  | _ => False

/-- The item is in the state of the stack node. -/
def GraphStack.HasItem (input : ParseInput σ) (stack : GraphStack) (node : StackId) (i : Item) :
    Prop :=
  node < stack.nodes.size ∧ i ∈ (input.compiled.automaton.state (stack.node node).state).items

namespace Engine

section

variable (input : ParseInput σ) (e : Engine σ)

/-- The label of an edge can be used, and stands for the symbol of a transition between the states
of its ends. -/
def IsLabelled (source : StackId) (edge : StackEdge) : Prop :=
  e.Usable input edge.label ∧
    ∃ x, (input.compiled.automaton.state (e.stack.node edge.target).state).transition? x =
        some (e.stack.node source).state ∧
      e.nodes.Stands input.compiled.matcher input.tokens x (e.stack.node edge.target).level
        (e.stack.node source).level edge.label

/-- The state of a stack node is reached by symbols that the tokens before it spell. -/
def Reached (node : StackId) : Prop :=
  ∃ α, input.compiled.automaton.walk? Automaton.start α = some (e.stack.node node).state ∧
    Spells input.grammar input.compiled.matcher input.tokens α 0 (e.stack.node node).level

/-- A stack node of the current level can take the token, and goes to the state. -/
def CanShift (x : StackId × StateId) : Prop :=
  x.1 < e.stack.nodes.size ∧ (e.stack.node x.1).level = e.level ∧
    ∃ t, (input.compiled.automaton.state (e.stack.node x.1).state).shift? t = some x.2 ∧
      input.tokens.Satisfies input.compiled.matcher e.level t

end

end Engine

/-- The work makes sense at the current level. -/
def Pending.Valid (input : ParseInput σ) (e : Engine σ) : Pending → Prop
  | .zero node rule => (∃ alt, e.stack.HasItem input node ⟨rule, alt, 0⟩) ∧
      (e.stack.node node).level = e.level ∧
      rule ≠ input.grammar.start ∧ input.grammar.Nullable [.rule rule]
  | .walk w => 0 < w.remaining ∧ e.stack.HasItem input w.node ⟨w.rule, w.alt, w.remaining⟩ ∧
      (e.stack.node w.node).level < e.level ∧
      input.IsTail e.nodes w.rule w.alt w.remaining (e.stack.node w.node).level e.level w.tail ∧
      e.Usable input w.tail ∧ w.rule ≠ input.grammar.start
  | .complete node rule alt children => e.stack.HasItem input node ⟨rule, alt, 0⟩ ∧
      (e.stack.node node).level < e.level ∧
      input.Holds e.nodes rule alt 0 (e.stack.node node).level e.level children ∧
      (∀ c ∈ children.toList, e.Usable input c) ∧ rule ≠ input.grammar.start

namespace Engine

/-- The stack makes sense. -/
structure StackValid (input : ParseInput σ) (e : Engine σ) : Prop where
  indexed : e.stack.Indexed
  levels_size : e.stack.levels.size = input.tokens.length + 1
  limit_eq : e.stack.limit = input.config.maxStackNodes
  state_lt : ∀ id < e.stack.nodes.size,
    (e.stack.node id).state < input.compiled.automaton.states.size
  labelled : ∀ id, ∀ edge ∈ (e.stack.node id).edges, e.IsLabelled input id edge
  reached : ∀ id < e.stack.nodes.size, e.Reached input id

/-- The stack and the work make sense. -/
structure WorkValid (input : ParseInput σ) (e : Engine σ) : Prop extends StackValid input e where
  pending : ∀ p ∈ e.pending, p.Valid input e
  walks : ∀ w ∈ e.walks, (Pending.walk w).Valid input e
  zeros : ∀ x ∈ e.zeros, (Pending.zero x.1 x.2).Valid input e
  shifts : ∀ x ∈ e.shifts, e.CanShift input x
  lookaheads : e.lookaheads = lookaheadsAt input e.level
  level_le : e.level ≤ input.tokens.length

/-- The forest, the stack and the work make sense. -/
structure Valid (input : ParseInput σ) (e : Engine σ) : Prop extends
  ForestValid input ⟨e.level, 0⟩ e.deferred e, WorkValid input e

/-- The forest and the stack have grown at a level, and it is still the same level of the input. -/
structure GrowsAt (l : Nat) (e e' : Engine σ) : Prop extends Later ⟨l, 0⟩ e e' where
  stack : e.stack.GrowsAt l e'.stack
  level_eq : e'.level = e.level
  lookaheads_eq : e'.lookaheads = e.lookaheads

variable {input : ParseInput σ} {e e' e'' : Engine σ} {l : Nat}

theorem GrowsAt.refl (l : Nat) (e : Engine σ) : e.GrowsAt l e :=
  ⟨.refl _ e, .refl _ _, rfl, rfl⟩

theorem GrowsAt.trans (h : e.GrowsAt l e') (h' : e'.GrowsAt l e'') : e.GrowsAt l e'' :=
  ⟨h.toLater.trans h'.toLater, h.stack.trans h'.stack, h'.level_eq.trans h.level_eq,
    h'.lookaheads_eq.trans h.lookaheads_eq⟩

theorem Builds.growsAt (h : Builds input ⟨l, 0⟩ e e') : e.GrowsAt l e' :=
  ⟨h.toLater, by rw [h.stack]; exact .refl _ _, h.level, h.lookaheads⟩

/-- A terminal among the lookaheads is one that the token satisfies. -/
theorem satisfies_of_mem_lookaheadsAt {l : Nat} {t : TerminalId}
    (h : Lookahead.terminal t ∈ lookaheadsAt input l) :
    input.tokens.Satisfies input.compiled.matcher l t := by
  rw [lookaheadsAt] at h
  split at h
  · rename_i tok htok
    obtain ⟨t', ht', he⟩ := List.mem_map.1 h
    obtain rfl := Lookahead.terminal.inj he
    exact ⟨tok, htok, ht'⟩
  · simp at h

theorem mem_lookaheadsAt_iff {l : Nat} {t : TerminalId} :
    Lookahead.terminal t ∈ lookaheadsAt input l ↔
      input.tokens.Satisfies input.compiled.matcher l t := by
  refine ⟨satisfies_of_mem_lookaheadsAt, fun ⟨tok, htok, ht⟩ => ?_⟩
  rw [lookaheadsAt, htok]
  exact List.mem_map_of_mem ht

end Engine

/-- The stack makes sense whatever the rest of the engine. -/
theorem Engine.StackValid.congr {input : ParseInput σ} {e e' : Engine σ} (h : e.StackValid input)
    (hs : e'.stack = e.stack) (hn : e'.nodes = e.nodes) (hp : e'.packed = e.packed)
    (hr : e'.rejected = e.rejected) : e'.StackValid input := by
  refine ⟨hs ▸ h.indexed, hs ▸ h.levels_size, hs ▸ h.limit_eq, hs ▸ h.state_lt,
    fun id edge he => ?_, ?_⟩
  · rw [hs] at he
    obtain ⟨hu, hx⟩ := h.labelled id edge he
    refine ⟨hu.congr hn hp hr, ?_⟩
    rw [hs, hn]
    exact hx
  · simp only [Engine.Reached, hs]
    exact h.reached

/-! ## Growing -/

section Grows

variable {input : ParseInput σ} {e e' : Engine σ} {l : Nat}

theorem GraphStack.HasItem.grows {s s' : GraphStack} {node : StackId} {i : Item}
    (h : s.HasItem input node i) (hs : s.GrowsAt l s') : s'.HasItem input node i :=
  ⟨Nat.lt_of_lt_of_le h.1 hs.size_le, by rw [hs.state_eq node h.1]; exact h.2⟩

section

variable (hr : input.Ready) (hf : input.Formed e.nodes) (hg : e.GrowsAt l e')
include hr hf hg

theorem Engine.Usable.growsAt {id : NodeId} (h : e.Usable input id) : e'.Usable input id :=
  h.later hr.epsilon hf hg.toLater

theorem Engine.IsLabelled.grows {source : StackId} {edge : StackEdge}
    (h : e.IsLabelled input source edge) (hsource : source < e.stack.nodes.size)
    (htarget : edge.target < e.stack.nodes.size) : e'.IsLabelled input source edge := by
  obtain ⟨hu, x, hx, hst⟩ := h
  rw [Engine.IsLabelled, hg.stack.state_eq _ htarget, hg.stack.state_eq _ hsource,
    hg.stack.level_eq _ htarget, hg.stack.level_eq _ hsource]
  exact ⟨hu.growsAt hr hf hg, x, hx, hst.grows hg.nodes.toGrows⟩

omit hr hf in
theorem Engine.Reached.grows {node : StackId} (h : e.Reached input node)
    (hnode : node < e.stack.nodes.size) : e'.Reached input node := by
  rw [Engine.Reached, hg.stack.state_eq _ hnode, hg.stack.level_eq _ hnode]
  exact h

omit hr hf in
theorem Engine.CanShift.grows {x : StackId × StateId} (h : e.CanShift input x) :
    e'.CanShift input x := by
  obtain ⟨hlt, hl, ht⟩ := h
  refine ⟨Nat.lt_of_lt_of_le hlt hg.stack.size_le, ?_, ?_⟩
  · rw [hg.stack.level_eq x.1 hlt, hg.level_eq, hl]
  · rw [hg.stack.state_eq x.1 hlt, hg.level_eq]
    exact ht

theorem Pending.Valid.grows {p : Pending} (h : p.Valid input e) : p.Valid input e' := by
  cases p with
  | zero node rule =>
    obtain ⟨⟨alt, hi⟩, hl, hs⟩ := h
    refine ⟨⟨alt, hi.grows hg.stack⟩, ?_, hs⟩
    rw [hg.stack.level_eq node hi.1, hg.level_eq, hl]
  | walk w =>
    obtain ⟨hpos, hi, hlt, ht, hu, hs⟩ := h
    rw [Pending.Valid, hg.stack.level_eq _ hi.1, hg.level_eq]
    exact ⟨hpos, hi.grows hg.stack, hlt, ht.grows hg.nodes.toGrows, hu.growsAt hr hf hg, hs⟩
  | complete node rule alt children =>
    obtain ⟨hi, hlt, hh, hu, hs⟩ := h
    rw [Pending.Valid, hg.stack.level_eq _ hi.1, hg.level_eq]
    exact ⟨hi.grows hg.stack, hlt, hh.grows hg.nodes.toGrows,
      fun c hc => (hu c hc).growsAt hr hf hg, hs⟩

/-- The forest and the stack have grown. -/
theorem Engine.StackValid.grows (h : e.StackValid input) (hi : e'.stack.Indexed)
    (hstate : ∀ id < e'.stack.nodes.size, id < e.stack.nodes.size ∨
      ((e'.stack.node id).state < input.compiled.automaton.states.size ∧ e'.Reached input id))
    (hlab : ∀ id, ∀ edge ∈ (e'.stack.node id).edges, edge ∈ (e.stack.node id).edges ∨
      e'.IsLabelled input id edge) : e'.StackValid input where
  indexed := hi
  levels_size := hg.stack.levels_size.trans h.levels_size
  limit_eq := hg.stack.limit_eq.trans h.limit_eq
  state_lt id hid := by
    rcases hstate id hid with hold | ⟨hlt, -⟩
    · rw [hg.stack.state_eq id hold]
      exact h.state_lt id hold
    · exact hlt
  labelled id edge hedge := by
    rcases hlab id edge hedge with hold | hnew
    · exact (h.labelled id edge hold).grows hr hf hg (GraphStack.lt_size_of_mem_edges hold)
        (h.indexed.target_lt id edge hold)
    · exact hnew
  reached id hid := by
    rcases hstate id hid with hold | ⟨-, hr⟩
    · exact (h.reached id hold).grows hg hold
    · exact hr

/-- The forest and the stack have grown, and the work is the same. -/
theorem Engine.WorkValid.grows (h : e.WorkValid input) (hstack : e'.StackValid input)
    (hp : e'.pending = e.pending) (hw : e'.walks = e.walks) (hz : e'.zeros = e.zeros)
    (hs : e'.shifts = e.shifts) : e'.WorkValid input where
  toStackValid := hstack
  pending p hp' := (h.pending p (hp ▸ hp')).grows hr hf hg
  walks w hw' := (h.walks w (hw ▸ hw')).grows hr hf hg
  zeros x hx := (h.zeros x (hz ▸ hx)).grows hr hf hg
  shifts x hx := (h.shifts x (hs ▸ hx)).grows hg
  lookaheads := by
    rw [hg.lookaheads_eq, hg.level_eq]
    exact h.lookaheads
  level_le := by
    rw [hg.level_eq]
    exact h.level_le

/-- The forest has grown, and the stack is the same. -/
theorem Engine.StackValid.sameStack (h : e.StackValid input) (hs : e'.stack = e.stack) :
    e'.StackValid input := by
  refine h.grows hr hf hg ?_ ?_ ?_ <;> rw [hs]
  · exact h.indexed
  · exact fun id hid => .inl hid
  · exact fun id edge he => .inl he

/-- The forest has grown, and the stack and the work are the same. -/
theorem Engine.WorkValid.sameWork (h : e.WorkValid input) (hs : Engine.SameWork e e') :
    e'.WorkValid input :=
  h.grows hr hf hg (h.toStackValid.sameStack hr hf hg hs.stack) hs.pending hs.walks hs.zeros hs.shifts

end

theorem Engine.Valid.builds (hr : input.Ready) (h : e.Valid input)
    (hb : Engine.Builds input ⟨e.level, 0⟩ e e') : e'.Valid input :=
  ⟨by rw [hb.level]; exact hb.valid,
    h.toWorkValid.sameWork hr h.formed hb.growsAt hb.toSameWork⟩

end Grows

/-! ## Levels of stack nodes -/

namespace Engine

variable {input : ParseInput σ} {e : Engine σ}

/-- An edge leads to a node of the same level or an earlier one. -/
theorem StackValid.level_target_le (hf : input.Formed e.nodes) (h : e.StackValid input) {u : StackId}
    {edge : StackEdge} (he : edge ∈ (e.stack.node u).edges) :
    (e.stack.node edge.target).level ≤ (e.stack.node u).level := by
  obtain ⟨-, x, -, hst⟩ := h.labelled u edge he
  exact (hf.backed.spells_of_stands hst).le

/-- Where there is no room for a stack node, the limit leaves none for all that there can be. -/
theorem StackValid.mayFail (h : e.StackValid input) {l : Nat} {q : StateId} (hf : e.stack.Full l q)
    (hq : q < input.compiled.automaton.states.size) :
    input.MayFail (.stackLimit e.stack.limit) := by
  have hlt := hf.size_lt h.state_lt hq
  rw [h.levels_size] at hlt
  exact ⟨h.limit_eq, hf.limit_le.imp (Nat.lt_of_le_of_lt · hlt) (Nat.lt_of_le_of_lt · hlt)⟩

/-- The levels of the stack include the current one. -/
theorem WorkValid.level_lt (h : e.WorkValid input) : e.level < e.stack.levels.size := by
  rw [h.levels_size]
  exact Nat.lt_succ_of_le h.level_le

end Engine

/-! ## Uniqueness -/

section Unique

variable {input : ParseInput σ} {nodes : Arena}

/-- The fragment of a rule stands for it. -/
theorem ParseInput.Formed.stands_symbol (h : input.Formed nodes) (hr : input.Ready) {rule : RuleId}
    {id : NodeId} (hid : input.compiled.epsilon.symbol? rule = some id) (l : Nat) :
    nodes.Stands input.compiled.matcher input.tokens (.rule rule) l l id := by
  obtain ⟨hlt, hk, hspan, -⟩ := hr.epsilon.symbol rule id hid
  exact ⟨(h.base.kind_eq id hlt).trans hk, .inr ⟨(h.base.span_eq id hlt).trans hspan, rfl⟩⟩

/-- What stands for a symbol over given tokens is unique. -/
theorem ParseInput.Formed.stands_unique (h : input.Formed nodes) (hr : input.Ready) {x : Symbol}
    {l r : Nat} {id id' : NodeId} (hs : nodes.Stands input.compiled.matcher input.tokens x l r id)
    (hs' : nodes.Stands input.compiled.matcher input.tokens x l r id') : id = id' := by
  cases x with
  | terminal t =>
    exact h.unique id id' _ (h.leaf hr.epsilon hs.1).1 (h.leaf hr.epsilon hs'.1).1
      (hs.1.trans hs'.1.symm)
  | rule A =>
    obtain ⟨hk, hspan⟩ := hs
    obtain ⟨hk', hspan'⟩ := hs'
    rcases hspan with hspan | ⟨hspan, rfl⟩ <;> rcases hspan' with hspan' | ⟨hspan', he⟩
    · exact h.unique id id' _ hspan hspan' (hk.trans hk'.symm)
    · exact absurd he (Nat.ne_of_lt (h.lt_of_span hr.epsilon hspan))
    · exact absurd (h.lt_of_span hr.epsilon hspan') (Nat.lt_irrefl _)
    · have hsymbol := h.symbol?_of_span_none hr.epsilon hk hspan
      exact Option.some.inj (hsymbol.symm.trans (h.symbol?_of_span_none hr.epsilon hk' hspan'))

/-- What stands for the rest of an alternative over given tokens is unique. -/
theorem ParseInput.Formed.isTail_unique (h : input.Formed nodes) (hr : input.Ready) {A : RuleId}
    {alt dot l r : Nat} {id id' : NodeId} (ht : input.IsTail nodes A alt dot l r id)
    (ht' : input.IsTail nodes A alt dot l r id') : id = id' := by
  cases ht with
  | nulled hid he =>
    cases ht' with
    | nulled hid' _ => exact Option.some.inj (hid.symm.trans hid')
    | last _ _ _ hlt => exact absurd he (Nat.ne_of_lt hlt)
    | intermediate _ _ hlt _ _ => exact absurd he (Nat.ne_of_lt hlt)
  | last hx hlast hs hlt =>
    cases ht' with
    | nulled _ he => exact absurd he (Nat.ne_of_lt hlt)
    | last hx' _ hs' _ =>
      obtain rfl := Option.some.inj (hx.symm.trans hx')
      exact h.stands_unique hr hs hs'
    | intermediate _ _ _ hmore _ => exact absurd hlast (Nat.ne_of_lt hmore)
  | intermediate hk hspan hlt hmore _ =>
    cases ht' with
    | nulled _ he => exact absurd he (Nat.ne_of_lt hlt)
    | last _ hlast _ _ => exact absurd hlast (Nat.ne_of_lt hmore)
    | intermediate hk' hspan' _ _ _ => exact h.unique id id' _ hspan hspan' (hk.trans hk'.symm)

end Unique

namespace Engine

variable {input : ParseInput σ} {e : Engine σ}

/-- There is at most one edge between two stack nodes. -/
theorem StackValid.edge_unique (hr : input.Ready) (h : e.StackValid input)
    (hf : input.Formed e.nodes) {u : StackId} {edge edge' : StackEdge}
    (he : edge ∈ (e.stack.node u).edges) (he' : edge' ∈ (e.stack.node u).edges)
    (ht : edge.target = edge'.target) : edge = edge' := by
  obtain ⟨-, x, hx, hs⟩ := h.labelled u edge he
  obtain ⟨-, y, hy, hs'⟩ := h.labelled u edge' he'
  obtain rfl := hr.automaton.isLR0.access hx hy
  obtain ⟨target, label⟩ := edge
  obtain ⟨target', label'⟩ := edge'
  obtain rfl : target = target' := ht
  obtain rfl : label = label' := hf.stands_unique hr hs hs'
  rfl

end Engine

end ParseForest
