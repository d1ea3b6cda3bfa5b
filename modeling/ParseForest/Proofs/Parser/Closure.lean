import ParseForest.Proofs.Parser.Work

/-!
# What is queued is done

Every reduction that a level calls for is done before the level ends. That is an invariant of the
work on the level (`Engine.Closed`): what has ever been queued is either still pending or done
(`Engine.Done`), and all that the stack nodes of the level and their edges call for has been queued.
A piece of work keeps it if it does what it stands for, and queues what the new nodes and edges call
for (`Closed.step`).

An edge whose ends are of the same level calls for nothing: a reduction that begins with it would
begin with a symbol that derives nothing, and there is a shorter one in its place.
-/

namespace ParseForest

variable {σ : Type}

/-- What stands for the symbols that a reduction leaves out: the fragment that derives them, unless
there are none. -/
def ParseInput.IsLeftOut (input : ParseInput σ) (rule : RuleId) (alt length : Nat)
    (rest : Option NodeId) : Prop :=
  ((input.grammar.alternative rule alt).length ≤ length ∧ rest = none) ∨
    (length < (input.grammar.alternative rule alt).length ∧
      ∃ id, rest = some id ∧ input.compiled.epsilon.tail? rule alt length = some id)

/-- The tail stands for what its label and the rest stand for, one after the other. -/
def Arena.Joins (nodes : Arena) (rule : RuleId) (alt : Nat) (label : NodeId)
    (rest : Option NodeId) (tail : NodeId) : Prop :=
  (rest = none ∧ tail = label) ∨
    ∃ part dot, rest = some part ∧ (node nodes tail).kind = .intermediate rule alt dot ∧
      nodes.HasAlternative tail rule alt ⟨label, some part⟩

theorem Arena.Joins.grows {nodes nodes' : Arena} {rule : RuleId} {alt : Nat} {label tail : NodeId}
    {rest : Option NodeId} (h : nodes.Joins rule alt label rest tail) (hg : nodes.Grows nodes') :
    nodes'.Joins rule alt label rest tail :=
  h.imp_right fun ⟨part, dot, hp, hk, ha⟩ => ⟨part, dot, hp,
    (hg.kind_eq _ (Arena.lt_size_of_kind (by rw [hk]; simp))).trans hk, ha.grows hg⟩

namespace Engine

section

variable (input : ParseInput σ) (e : Engine σ)

/-- The symbol of a rule has been put on top of a stack node at a level. -/
def HasGoto (l : Nat) (u : StackId) (rule : RuleId) (label : NodeId) : Prop :=
  ∃ v, (e.stack.node v).level = l ∧ ⟨u, label⟩ ∈ (e.stack.node v).edges ∧
    input.compiled.automaton.goto? (e.stack.node u).state rule = some (e.stack.node v).state

/-- The derivation has been offered to its symbol node at a level, and the symbol is on the stack
unless the derivation was turned down at once; where judging is lenient, even then. -/
def Completed (l : Nat) (u : StackId) (rule : RuleId) (alt : Nat) (children : Children) : Prop :=
  ∃ id, (Arena.node e.nodes id).kind = .symbol rule ∧
    (Arena.node e.nodes id).span = some ⟨(e.stack.node u).level, l⟩ ∧ e.Marked ⟨id, alt, children⟩ ∧
    (e.HasGoto input l u rule id ∨ (¬ input.Lenient ∧ ⟨id, alt, children⟩ ∈ e.rejected ∧
      input.TurnedDown e.nodes ⟨l, 0⟩ ⟨id, alt, children⟩))

/-- A reduction has been taken over an edge: it is complete, or it goes on as a walk. -/
def Continued (ps : List Pending) (edge : StackEdge) (rule : RuleId) (alt : Nat) :
    Nat → Option NodeId → Prop
  | 0, rest => .complete edge.target rule alt ⟨edge.label, rest⟩ ∈ ps ∨
      e.Completed input e.level edge.target rule alt ⟨edge.label, rest⟩
  | dot + 1, rest => ∃ tail, e.nodes.Joins rule alt edge.label rest tail ∧
      ⟨edge.target, rule, alt, dot + 1, tail⟩ ∈ e.walks

/-- The work has been done, apart from what is still pending. -/
def Done (ps : List Pending) : Pending → Prop
  | .zero u rule => ∃ label, input.compiled.epsilon.symbol? rule = some label ∧
      e.HasGoto input e.level u rule label
  | .walk w => ∀ edge ∈ (e.stack.node w.node).edges,
      e.Continued input ps edge w.rule w.alt (w.remaining - 1) (some w.tail)
  | .complete u rule alt children => e.Completed input e.level u rule alt children

/-- The shift or empty reduction is queued. -/
def Queued (u : StackId) : Action → Prop
  | .shift target => (u, target) ∈ e.shifts
  | .reduce rule _ 0 => (u, rule) ∈ e.zeros
  | _ => True

/-- The shifts and the empty reductions of a stack node are queued. -/
def NodeQueued (u : StackId) : Prop :=
  ∀ a ∈ e.actions input (e.stack.node u).state, e.Queued u a

/-- The reductions that begin with an edge are queued or done. -/
def EdgeQueued (ps : List Pending) (u : StackId) (edge : StackEdge) : Prop :=
  ∀ rule alt n, .reduce rule alt (n + 1) ∈ e.actions input (e.stack.node u).state →
    ∃ rest, input.IsLeftOut rule alt (n + 1) rest ∧ e.Continued input ps edge rule alt n rest

/-- All that the level calls for is queued or done, and all that is queued is pending or done. -/
structure Closed (ps : List Pending) : Prop where
  zeros : ∀ x ∈ e.zeros, .zero x.1 x.2 ∈ ps ∨ e.Done input ps (.zero x.1 x.2)
  walks : ∀ w ∈ e.walks, .walk w ∈ ps ∨ e.Done input ps (.walk w)
  nodes : ∀ u < e.stack.nodes.size, (e.stack.node u).level = e.level → e.NodeQueued input u
  edges : ∀ u, (e.stack.node u).level = e.level → ∀ edge ∈ (e.stack.node u).edges,
    (e.stack.node edge.target).level < e.level → e.EdgeQueued input ps u edge

end

/-- Work has been queued or done at a level. -/
structure Extends (input : ParseInput σ) (e e' : Engine σ) : Prop extends GrowsAt e.level e e' where
  valid : e'.Valid input
  pending : ∀ p ∈ e.pending, p ∈ e'.pending
  walks : ∀ w ∈ e.walks, w ∈ e'.walks
  zeros : ∀ x ∈ e.zeros, x ∈ e'.zeros
  shifts : ∀ x ∈ e.shifts, x ∈ e'.shifts
  new_walk : ∀ w ∈ e'.walks, w ∈ e.walks ∨ .walk w ∈ e'.pending
  new_zero : ∀ x ∈ e'.zeros, x ∈ e.zeros ∨ .zero x.1 x.2 ∈ e'.pending

/-- What the new stack nodes and edges call for is queued or done. -/
structure Serves (input : ParseInput σ) (e e' : Engine σ) : Prop where
  new_node : ∀ u < e'.stack.nodes.size, u < e.stack.nodes.size ∨ e'.NodeQueued input u
  new_edge : ∀ u, ∀ edge ∈ (e'.stack.node u).edges, edge ∈ (e.stack.node u).edges ∨
    ((e'.stack.node edge.target).level < e'.level → e'.EdgeQueued input e'.pending u edge)

variable {input : ParseInput σ} {e e' e'' : Engine σ} {ps ps' : List Pending} {l m : Nat}

theorem Extends.refl (h : e.Valid input) : Extends input e e :=
  ⟨.refl _ e, h, fun _ => id, fun _ => id, fun _ => id, fun _ => id, fun _ => .inl, fun _ => .inl⟩

theorem Extends.trans (h : Extends input e e') (h' : Extends input e' e'') : Extends input e e'' where
  toGrowsAt := h.toGrowsAt.trans (h.level_eq ▸ h'.toGrowsAt)
  valid := h'.valid
  pending p hp := h'.pending p (h.pending p hp)
  walks w hw := h'.walks w (h.walks w hw)
  zeros x hx := h'.zeros x (h.zeros x hx)
  shifts x hx := h'.shifts x (h.shifts x hx)
  new_walk w hw := (h'.new_walk w hw).elim
    (fun hw => (h.new_walk w hw).imp_right (h'.pending _)) .inr
  new_zero x hx := (h'.new_zero x hx).elim
    (fun hx => (h.new_zero x hx).imp_right (h'.pending _)) .inr

theorem Builds.extends (hr : input.Ready) (h : e.Valid input) (hb : Builds input ⟨e.level, 0⟩ e e') :
    Extends input e e' := by
  refine ⟨hb.growsAt, h.builds hr hb, ?_, ?_, ?_, ?_, ?_, ?_⟩
  · exact fun p hp => hb.pending.symm ▸ hp
  · exact fun w hw => hb.walks.symm ▸ hw
  · exact fun x hx => hb.zeros.symm ▸ hx
  · exact fun x hx => hb.shifts.symm ▸ hx
  · exact fun w hw => .inl (hb.walks ▸ hw)
  · exact fun x hx => .inl (hb.zeros ▸ hx)

/-! ## What stays so -/

theorem HasGoto.grows (hi : e.stack.Indexed) (hg : e.stack.GrowsAt m e'.stack) {u : StackId}
    {rule : RuleId} {label : NodeId} (h : e.HasGoto input l u rule label) :
    e'.HasGoto input l u rule label := by
  obtain ⟨v, hl, he, hq⟩ := h
  have hv := GraphStack.lt_size_of_mem_edges he
  refine ⟨v, (hg.level_eq v hv).trans hl, hg.mem_edges v _ he, ?_⟩
  rw [hg.state_eq v hv, hg.state_eq u (hi.target_lt v _ he)]
  exact hq

theorem Completed.grows (hi : e.stack.Indexed) (hf : input.Formed e.nodes) (hg : e.GrowsAt m e')
    (hlm : l ≤ m) {u : StackId} (hu : u < e.stack.nodes.size) {rule : RuleId} {alt : Nat} {children : Children}
    (h : e.Completed input l u rule alt children) : e'.Completed input l u rule alt children := by
  obtain ⟨id, hk, hs, hmarked, h⟩ := h
  have hid : id < e.nodes.size := Arena.lt_size_of_kind (by rw [hk]; simp)
  refine ⟨id, (hg.nodes.kind_eq id hid).trans hk, ?_, hg.toLater.marked hmarked,
    h.imp (·.grows hi hg.stack) (And.imp_right (And.imp (hg.rejected _) fun hdown =>
      hdown.grows hf (hg.nodes.mono (Stage.before_of_level_le hlm)) (.refl _)))⟩
  rw [hg.stack.level_eq u hu]
  exact (hg.nodes.span_eq id hid).trans hs

theorem Continued.grows (hv : e.Valid input) (hg : e.GrowsAt e.level e')
    (hps : ∀ p ∈ ps, p ∈ ps' ∨ e'.Done input ps' p) (hw : ∀ w ∈ e.walks, w ∈ e'.walks)
    {edge : StackEdge} (ht : edge.target < e.stack.nodes.size) {rule : RuleId} {alt n : Nat}
    {rest : Option NodeId} (h : e.Continued input ps edge rule alt n rest) :
    e'.Continued input ps' edge rule alt n rest := by
  cases n with
  | zero =>
    rcases h with hp | hc
    · exact hps _ hp
    · refine .inr ?_
      rw [hg.level_eq]
      exact hc.grows hv.indexed hv.formed hg (Nat.le_refl _) ht
  | succ n =>
    obtain ⟨tail, hj, hmem⟩ := h
    exact ⟨tail, hj.grows hg.nodes.toGrows, hw _ hmem⟩

theorem EdgeQueued.grows (hv : e.Valid input) (hg : e.GrowsAt e.level e')
    (hps : ∀ p ∈ ps, p ∈ ps' ∨ e'.Done input ps' p) (hw : ∀ w ∈ e.walks, w ∈ e'.walks)
    {u : StackId} {edge : StackEdge} (he : edge ∈ (e.stack.node u).edges)
    (h : e.EdgeQueued input ps u edge) : e'.EdgeQueued input ps' u edge := by
  intro rule alt n ha
  rw [actions, hg.lookaheads_eq, hg.stack.state_eq u (GraphStack.lt_size_of_mem_edges he)] at ha
  obtain ⟨rest, hrest, hc⟩ := h rule alt n ha
  exact ⟨rest, hrest, hc.grows hv hg hps hw (hv.indexed.target_lt u edge he)⟩

theorem NodeQueued.grows (hg : e.GrowsAt m e') (hz : ∀ x ∈ e.zeros, x ∈ e'.zeros)
    (hs : ∀ x ∈ e.shifts, x ∈ e'.shifts) {u : StackId} (hu : u < e.stack.nodes.size)
    (h : e.NodeQueued input u) : e'.NodeQueued input u := by
  intro a ha
  rw [actions, hg.lookaheads_eq, hg.stack.state_eq u hu] at ha
  have hq := h a ha
  rcases a with target | ⟨rule, alt, _ | n⟩ | _
  · exact hs _ hq
  · exact hz _ hq
  · trivial
  · trivial

theorem serves_of_stack_eq (hs : e'.stack = e.stack) : Serves input e e' :=
  ⟨fun _ hu => .inl (hs ▸ hu), fun _ _ he => .inl (hs ▸ he)⟩

theorem Serves.trans (hv : e'.Valid input) (h : Serves input e e') (h' : Serves input e' e'')
    (hx : Extends input e' e'') : Serves input e e'' where
  new_node u hu := by
    rcases h'.new_node u hu with hu' | hq
    · exact (h.new_node u hu').imp_right (·.grows hx.toGrowsAt hx.zeros hx.shifts hu')
    · exact .inr hq
  new_edge u edge he := by
    rcases h'.new_edge u edge he with he' | hq
    · refine (h.new_edge u edge he').imp_right fun hq hl => ?_
      rw [hx.stack.level_eq _ (hv.indexed.target_lt u edge he'), hx.level_eq] at hl
      exact (hq hl).grows hv hx.toGrowsAt (fun p hp => .inl (hx.pending p hp)) hx.walks he'
    · exact .inr hq

/-- A piece of work is taken up and done, and nothing new is left unqueued. -/
theorem Closed.step (hv : e.Valid input) {p : Pending} (h : e.Closed input (p :: e.pending))
    (hx : Extends input e e') (hs : Serves input e e') (hp : e'.Done input e'.pending p) :
    e'.Closed input e'.pending := by
  have hi := hv.indexed
  have hps : ∀ q ∈ p :: e.pending, q ∈ e'.pending ∨ e'.Done input e'.pending q := by
    intro q hq
    rcases List.mem_cons.1 hq with rfl | hq
    · exact .inr hp
    · exact .inl (hx.pending q hq)
  refine ⟨fun x hmem => ?_, fun w hmem => ?_, fun u hu hl => ?_, fun u hl edge he ht => ?_⟩
  · rcases hx.new_zero x hmem with hold | hnew
    · rcases h.zeros x hold with hq | ⟨label, hlabel, hgoto⟩
      · exact hps _ hq
      · refine .inr ⟨label, hlabel, ?_⟩
        rw [hx.level_eq]
        exact hgoto.grows hi hx.stack
    · exact .inl hnew
  · rcases hx.new_walk w hmem with hold | hnew
    · rcases h.walks w hold with hq | hdone
      · exact hps _ hq
      · refine .inr fun edge he => ?_
        -- the stack nodes of walks are of earlier levels, where nothing changes
        obtain ⟨-, hitem, hlt, -⟩ := hv.toWorkValid.walks w hold
        rw [hx.stack.node_eq _ hitem.1 (Nat.ne_of_lt hlt)] at he
        exact (hdone edge he).grows hv hx.toGrowsAt hps hx.walks (hi.target_lt _ edge he)
    · exact .inl hnew
  · rcases hs.new_node u hu with hold | hnew
    · rw [hx.stack.level_eq u hold, hx.level_eq] at hl
      exact (h.nodes u hold hl).grows hx.toGrowsAt hx.zeros hx.shifts hold
    · exact hnew
  · rcases hs.new_edge u edge he with hold | hnew
    · rw [hx.stack.level_eq u (GraphStack.lt_size_of_mem_edges hold), hx.level_eq] at hl
      rw [hx.stack.level_eq _ (hi.target_lt u edge hold), hx.level_eq] at ht
      exact (h.edges u hl edge hold ht).grows hv hx.toGrowsAt hps hx.walks hold
    · exact hnew ht

end Engine

end ParseForest
