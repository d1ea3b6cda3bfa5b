import ParseForest.Proofs.Parser.Reduce

/-!
# Levels

A parse goes from level to level. Before a level (`Engine.Awaits`) the earlier ones are reduced and
their shifts have been made; after it (`Engine.Finished`) the level itself is reduced too, everything
that waited has been judged, and the stacks that can take the token are known. A run ends in a state
after its last level, or it fails for a reason (`Engine.Fails`).
-/

namespace ParseForest

variable {σ : Type}

namespace Engine

section

variable (input : ParseInput σ) (start : StackId) (l : Nat) (e : Engine σ)

/-- The stacks that can take the token of a level have been moved to the next one. -/
def Shifted : Prop :=
  ∀ u < e.stack.nodes.size, (e.stack.node u).level = l → ∀ t q,
    input.tokens.Satisfies input.compiled.matcher l t →
    (input.compiled.automaton.state (e.stack.node u).state).shift? t = some q →
    ∃ v label, (e.stack.node v).level = l + 1 ∧ (e.stack.node v).state = q ∧
      ⟨u, label⟩ ∈ (e.stack.node v).edges ∧ (Arena.node e.nodes label).kind = .terminal l

/-- The stack begins with the first state and goes up to a level; nothing is pending. -/
structure UpTo : Prop where
  start_lt : start < e.stack.nodes.size
  start_level : (e.stack.node start).level = 0
  start_state : (e.stack.node start).state = Automaton.start
  level_le : ∀ u < e.stack.nodes.size, (e.stack.node u).level ≤ l
  inhabited : ∀ m ≤ l, ∃ u < e.stack.nodes.size, (e.stack.node u).level = m
  deferred : e.deferred = []
  pending : e.pending = []
  shifted : ∀ m < l, Shifted input m e

/-- The state before a level. -/
structure Awaits : Prop extends UpTo input start l e where
  forest : ForestValid input ⟨l, 0⟩ [] e
  stack : e.StackValid input
  shifts : e.shifts = #[]
  /-- The level has been begun by shifts only -/
  target_lt : ∀ u, (e.stack.node u).level = l → ∀ edge ∈ (e.stack.node u).edges,
    (e.stack.node edge.target).level < l
  only_start : l = 0 → ∀ u < e.stack.nodes.size, u = start
  reduced : ∀ m < l, LevelReduced input m e

/-- The state after a level. -/
structure Finished : Prop extends UpTo input start l e where
  forest : ForestValid input ⟨l + 1, 0⟩ [] e
  work : e.WorkValid input
  level_eq : e.level = l
  reduced : ∀ m ≤ l, LevelReduced input m e
  shiftable : ∀ u < e.stack.nodes.size, (e.stack.node u).level = l → ∀ t q,
    input.tokens.Satisfies input.compiled.matcher l t →
    (input.compiled.automaton.state (e.stack.node u).state).shift? t = some q → (u, q) ∈ e.shifts

end

variable {input : ParseInput σ} {start : StackId} {e e' : Engine σ} {l m : Nat}

theorem Shifted.grows (h : Shifted input l e) (hg : e.GrowsAt m e')
    (hnew : ∀ u < e'.stack.nodes.size, (e'.stack.node u).level = l → u < e.stack.nodes.size) :
    Shifted input l e' := by
  intro u hu hl t q ht hq
  have hu' := hnew u hu hl
  rw [hg.stack.level_eq u hu'] at hl
  rw [hg.stack.state_eq u hu'] at hq
  obtain ⟨v, label, hv, hs, he, hk⟩ := h u hu' hl t q ht hq
  have hvlt := GraphStack.lt_size_of_mem_edges he
  exact ⟨v, label, (hg.stack.level_eq v hvlt).trans hv, (hg.stack.state_eq v hvlt).trans hs,
    hg.stack.mem_edges v _ he, (hg.nodes.kind_eq _ (Arena.lt_size_of_kind (by rw [hk]; simp))).trans hk⟩

/-- The stack has grown at the level or a later one. -/
theorem UpTo.grows (h : UpTo input start l e) (hlm : l ≤ m) (hg : e.GrowsAt m e')
    (hd : e'.deferred = []) (hp : e'.pending = [])
    (hnew : ∀ k ≤ m, l < k → ∃ u < e'.stack.nodes.size, (e'.stack.node u).level = k)
    (hshift : ∀ k < m, l ≤ k → Shifted input k e') : UpTo input start m e' where
  start_lt := Nat.lt_of_lt_of_le h.start_lt hg.stack.size_le
  start_level := (hg.stack.level_eq _ h.start_lt).trans h.start_level
  start_state := (hg.stack.state_eq _ h.start_lt).trans h.start_state
  level_le u hu := by
    rcases Nat.lt_or_ge u e.stack.nodes.size with hlt | hge
    · rw [hg.stack.level_eq u hlt]
      exact Nat.le_trans (h.level_le u hlt) hlm
    · exact Nat.le_of_eq (hg.stack.level_new u hge hu)
  inhabited k hk := by
    rcases Nat.lt_or_ge l k with hlt | hge
    · exact hnew k hk hlt
    · obtain ⟨u, hu, hl⟩ := h.inhabited k hge
      exact ⟨u, Nat.lt_of_lt_of_le hu hg.stack.size_le, (hg.stack.level_eq u hu).trans hl⟩
  deferred := hd
  pending := hp
  shifted k hk := by
    rcases Nat.lt_or_ge k l with hlt | hge
    · refine (h.shifted k hlt).grows hg fun u hu hl => ?_
      by_contra hge
      have := hg.stack.level_new u (Nat.not_lt.1 hge) hu
      omega
    · exact hshift k hk hge

/-! ## One level -/

/-- All that a stack node of the level calls for is queued. -/
theorem Valid.queueShifted (hr : input.Ready) (h : e.Valid input) {u : StackId}
    (hu : u < e.stack.nodes.size) (hl : (e.stack.node u).level = e.level)
    (ht : ∀ edge ∈ (e.stack.node u).edges, (e.stack.node edge.target).level < e.level) :
    Ends (queueShifted input u) (fun _ e' =>
      Queues input (itemBound input * nodeBound input) e e' ∧ e'.NodeQueued input u ∧
      ∀ edge ∈ (e.stack.node u).edges, e'.EdgeQueued input e'.pending u edge) input.MayFail e := by
  simp only [Engine.queueShifted, ends_bind, ends_get]
  refine (h.queueNode hr hu hl).imp fun _ e₁ h₁ => ?_
  obtain ⟨hq₁, hn₁⟩ := h₁
  let edges := (e.stack.node u).edges
  have hedges : (e₁.stack.node u).edges = edges := by rw [hq₁.stack_eq]
  have hsize : edges.size ≤ nodeBound input :=
    Nat.le_trans (h.indexed.size_edges_le fun a ha b hb => h.edge_unique hr h.formed ha hb) h.size_le_nodeBound
  rw [hedges]
  refine (Ends.forM (I := fun rest e' =>
    Queues input (itemBound input * (edges.size - rest.length)) e e' ∧ e'.NodeQueued input u ∧
    ∀ edge ∈ edges, edge ∈ rest ∨ e'.EdgeQueued input e'.pending u edge) edges.toList
    ⟨by simpa using hq₁, hn₁, fun edge he => .inl (by simpa)⟩
    fun edge rest e₂ hsuf h₂ => ?_).imp fun _ e' h' =>
      ⟨h'.1.mono (Nat.mul_le_mul_left _ (by simpa using hsize)), h'.2.1, fun edge he =>
        (h'.2.2 edge he).resolve_left (by simp)⟩
  obtain ⟨hq, hn, hdone⟩ := h₂
  have hlen := hsuf.length_le
  have he := Array.mem_toList_iff.1 (hsuf.subset (.head _))
  refine (hq.valid.queueEdge hr (by rw [hq.stack_eq]; exact he) (by rw [hq.stack_eq, hl, hq.level_eq])
    (by rw [hq.stack_eq, hq.level_eq]; exact ht edge he)).imp fun _ e₃ h₃ => ?_
  obtain ⟨hq₃, hqueued⟩ := h₃
  refine ⟨(hq.trans hq₃).mono ?_, hn.grows hq₃.toGrowsAt hq₃.zeros hq₃.shifts (hq.stack_eq ▸ hu),
    fun edge' he' => ?_⟩
  · simp only [List.length_cons, Array.length_toList] at hlen ⊢
    rw [← Nat.mul_succ]
    exact Nat.mul_le_mul_left _ (by omega)
  · rcases hdone edge' he' with hmem | hdone
    · rcases List.mem_cons.1 hmem with rfl | hmem
      · exact .inr hqueued
      · exact .inl hmem
    · exact .inr (hdone.grows hq.valid hq₃.toGrowsAt
        (fun p hp => .inl (hq₃.pending p hp)) hq₃.walks (by rw [hq.stack_eq]; exact he'))

/-- All that the stack nodes of the level call for is queued. -/
def LevelQueued (input : ParseInput σ) (e e' : Engine σ) : Prop :=
  ∀ u < e.stack.nodes.size, (e.stack.node u).level = e.level → e'.NodeQueued input u ∧
    ∀ edge ∈ (e.stack.node u).edges, e'.EdgeQueued input e'.pending u edge

/-- A level has no more stack nodes than the bound says. -/
theorem Valid.size_level_le (h : e.Valid input) (l : Nat) :
    (e.stack.level l).size ≤ nodeBound input := by
  have hsub : (e.stack.level l).toList ⊆ List.range e.stack.nodes.size := fun u hu =>
    List.mem_range.2 ((h.indexed.mem_level_iff l u).1 (Array.mem_toList_iff.1 hu)).1
  have := (List.subperm_of_subset (h.indexed.nodup_level l) hsub).length_le
  exact Nat.le_trans (by simpa using this) h.size_le_nodeBound

/-- What the shifts of the last level have led to is queued. -/
theorem Valid.queueLevel (hr : input.Ready) (h : e.Valid input)
    (ht : ∀ u, (e.stack.node u).level = e.level → ∀ edge ∈ (e.stack.node u).edges,
      (e.stack.node edge.target).level < e.level) :
    Ends ((e.stack.level e.level).toList.forM (Engine.queueShifted input))
      (fun _ e' => Queues input (itemBound input * (nodeBound input * nodeBound input)) e e' ∧
        LevelQueued input e e') input.MayFail e := by
  let nodes := e.stack.level e.level
  have hmem : ∀ u, u ∈ nodes ↔ u < e.stack.nodes.size ∧ (e.stack.node u).level = e.level := fun u =>
    h.indexed.mem_level_iff e.level u
  have hsize : nodes.size ≤ nodeBound input := h.size_level_le e.level
  refine (Ends.forM (I := fun rest e' =>
    Queues input (itemBound input * nodeBound input * (nodes.size - rest.length)) e e' ∧
    ∀ u ∈ nodes, u ∈ rest ∨ (e'.NodeQueued input u ∧
      ∀ edge ∈ (e.stack.node u).edges, e'.EdgeQueued input e'.pending u edge)) nodes.toList
    ⟨by simpa using Queues.refl h, fun u hu => .inl (by simpa)⟩
    fun u rest e₁ hsuf ⟨hq, hdone⟩ => ?_).imp fun _ e' ⟨hq, hdone⟩ => ⟨hq.mono ?_, fun u hu hl =>
      (hdone u ((hmem u).2 ⟨hu, hl⟩)).resolve_left (by simp)⟩
  · have hlen := hsuf.length_le
    obtain ⟨hu, hl⟩ := (hmem u).1 (Array.mem_toList_iff.1 (hsuf.subset (.head _)))
    refine (hq.valid.queueShifted hr (hq.stack_eq ▸ hu) (by rw [hq.stack_eq, hq.level_eq, hl])
      (by rw [hq.stack_eq, hq.level_eq]; exact ht u hl)).imp fun _ e₂ ⟨hq₂, hn, he⟩ =>
      ⟨(hq.trans hq₂).mono ?_, fun u' hu' => ?_⟩
    · simp only [List.length_cons, Array.length_toList] at hlen ⊢
      rw [← Nat.mul_succ]
      exact Nat.mul_le_mul_left _ (by omega)
    · rw [hq.stack_eq] at he
      rcases hdone u' hu' with hmem' | ⟨hn', he'⟩
      · rcases List.mem_cons.1 hmem' with rfl | hmem'
        · exact .inr ⟨hn, he⟩
        · exact .inl hmem'
      · refine .inr ⟨hn'.grows hq₂.toGrowsAt hq₂.zeros hq₂.shifts
          (hq.stack_eq ▸ ((hmem u').1 hu').1), fun edge hedge => ?_⟩
        exact (he' edge hedge).grows hq.valid hq₂.toGrowsAt
          (fun p hp => .inl (hq₂.pending p hp)) hq₂.walks (by rw [hq.stack_eq]; exact hedge)
  · rw [Nat.mul_assoc]
    exact Nat.mul_le_mul_left _ (Nat.mul_le_mul_left _ (by simpa using hsize))

/-- A level is begun, when nothing is pending or waits. -/
theorem StackValid.begin (h : e.StackValid input) (hf : ForestValid input ⟨l, 0⟩ [] e)
    (hd : e.deferred = []) (hp : e.pending = []) (hs : e.shifts = #[])
    (hl : l ≤ input.tokens.length) : Valid input { e with
      level := l, walks := ∅, zeros := ∅, lookaheads := lookaheadsAt input l } := by
  refine ⟨?_, ⟨h.congr rfl rfl rfl rfl, ?_, by simp, by simp, ?_, rfl, hl⟩⟩
  · simp only [hd]
    exact hf.congr rfl rfl rfl rfl rfl rfl rfl hd.symm rfl
  · simp only [hp]
    simp
  · simp only [hs]
    simp

/-- When all that the level calls for is queued, it is closed. -/
theorem Queues.closed {k : Nat} (hz : e.zeros = ∅) (hw : e.walks = ∅) (hq : Queues input k e e')
    (h : LevelQueued input e e') : e'.Closed input e'.pending := by
  rw [LevelQueued, ← hq.stack_eq, ← hq.level_eq] at h
  refine ⟨fun x hx => ?_, fun w hw' => ?_, fun u hu hl => (h u hu hl).1, fun u hl edge he _ =>
    (h u (GraphStack.lt_size_of_mem_edges he) hl).2 edge he⟩
  · exact .inl ((hq.new_zero x hx).resolve_left (by simp [hz]))
  · exact .inl ((hq.new_walk w hw').resolve_left (by simp [hw]))

/-- The work of a level is done, and what waits is judged. -/
theorem Queues.finish (hr : input.Ready) (h : UpTo input start e.level e) (hv : e.Valid input)
    (hz : e.zeros = ∅) (hw : e.walks = ∅) (hreduced : ∀ m < e.level, LevelReduced input m e)
    (hq : Queues input (itemBound input * (nodeBound input * nodeBound input)) e e')
    (hall : LevelQueued input e e') :
    Ends (reduceAll input) (fun _ e₁ => Ends (Engine.settle input)
      (fun _ e₂ => Finished input start e.level e₂) input.MayFail e₁) input.MayFail e' := by
  have hfuel : e'.load input + allowance input ≤ workLimit input + e'.spent input := by
    have hspends := hq.spends
    have hload : e.load input = 0 := by rw [load, h.pending]; rfl
    rw [workLimit_eq]
    simp only [Spends] at hspends
    omega
  refine (hq.valid.reduceWith hr (workLimit input) hfuel).imp ?_
  rintro _ e₁ ⟨hv₁, hp₁, hg', hclosed⟩
  have hc₁ := hclosed (hq.closed hz hw hall)
  have hg₁ : e.GrowsAt e.level e₁ := hq.toGrowsAt.trans (hq.level_eq ▸ hg')
  have hreduced₁ : ∀ m ≤ e.level, LevelReduced input m e₁ := by
    intro m hm
    rcases Nat.lt_or_eq_of_le hm with hlt | rfl
    · refine (hreduced m hlt).grows hv.formed hv.toStackValid hg₁ hm (fun u hu hl => ?_)
        fun u hu hl => hg₁.stack.node_eq u hu (Nat.ne_of_lt (Nat.lt_of_le_of_lt hl hlt))
      by_contra hge
      have := hg₁.stack.level_new u (Nat.not_lt.1 hge) hu
      omega
    · rw [← hg₁.level_eq]
      exact hc₁.levelReduced hv₁
  refine (hv₁.toForestValid.settle hr.wellFormed hr.epsilon).imp ?_
  rintro _ e₂ ⟨hf₂, hl₂, hs₂, hd₂⟩
  have hg₂ : e₁.GrowsAt e.level e₂ :=
    ⟨hg₁.level_eq ▸ hl₂, by rw [hs₂.stack]; exact .refl _ _, hs₂.level, hs₂.lookaheads⟩
  have hg := hg₁.trans hg₂
  refine ⟨h.grows (Nat.le_refl _) hg hd₂ (hs₂.pending.trans hp₁)
      (fun k hk hk' => absurd hk' (Nat.not_lt.2 hk)) fun k hk hk' => absurd hk (Nat.not_lt.2 hk'),
    hg₁.level_eq ▸ hf₂, hv₁.toWorkValid.sameWork hr hv₁.formed hg₂ hs₂, hg.level_eq, fun m hm => ?_,
    fun u hu hl t q ht hq' => ?_⟩
  · exact (hreduced₁ m hm).grows hv₁.formed hv₁.toStackValid hg₂ hm (fun u hu _ => hs₂.stack ▸ hu)
      fun u _ _ => by rw [hs₂.stack]
  · rw [hs₂.stack] at hu hl hq'
    rw [hs₂.shifts]
    have ha : .shift q ∈ e₁.actions input (e₁.stack.node u).state := by
      refine mem_actions_iff.2 ⟨.terminal t, ?_, State.shift_mem_actions_iff.2 ⟨t, rfl, hq'⟩⟩
      rw [hv₁.lookaheads, hg₁.level_eq]
      exact mem_lookaheadsAt_iff.2 ht
    exact hc₁.nodes u hu (hl.trans hg₁.level_eq.symm) _ ha

/-- One level. -/
theorem Awaits.runLevel (hr : input.Ready) (h : Awaits input start l e)
    (hl : l ≤ input.tokens.length) :
    Ends (runLevel input start l) (fun _ e' => Finished input start l e') input.MayFail e := by
  have hv := h.stack.begin h.forest h.deferred h.pending h.shifts hl
  simp only [Engine.runLevel, beginLevel, ends_bind, ends_modify]
  obtain ⟨e₁, he₁⟩ : ∃ e₁ : Engine σ, e₁ =
    { e with level := l, walks := ∅, zeros := ∅, lookaheads := lookaheadsAt input l } := ⟨_, rfl⟩
  rw [← he₁] at hv ⊢
  have hlevel : l = e₁.level := by rw [he₁]
  have hstack : e₁.stack = e.stack := by rw [he₁]
  have hu₁ : UpTo input start l e₁ := by
    rw [he₁]
    exact ⟨h.start_lt, h.start_level, h.start_state, h.level_le, h.inhabited, h.deferred, h.pending,
      h.shifted⟩
  have hreduced : ∀ m < l, LevelReduced input m e₁ := by
    rw [he₁]
    exact fun m hm => ⟨(h.reduced m hm).zeros, (h.reduced m hm).paths⟩
  have ht := h.target_lt
  have honly := h.only_start
  rw [← hstack] at ht honly
  subst hlevel
  have hrest : ∀ {e'}, Queues input (itemBound input * (nodeBound input * nodeBound input)) e₁ e' →
      LevelQueued input e₁ e' → _ := fun hq hall =>
    hq.finish hr hu₁ hv (by rw [he₁]) (by rw [he₁]) hreduced hall
  split
  · rename_i h0
    simp only [ends_bind]
    refine (hv.queueNode hr hu₁.start_lt (hu₁.start_level.trans h0.symm)).imp fun _ e₂ h₂ => ?_
    obtain ⟨hq, hn⟩ := h₂
    refine hrest (hq.mono (Nat.zero_le _)) fun u hu hul => ?_
    obtain rfl := honly h0 u hu
    refine ⟨hn, fun edge he => ?_⟩
    have := ht u hul edge he
    omega
  · simp only [ends_bind, ends_get]
    exact (hv.queueLevel hr ht).imp fun _ e₂ h₂ => hrest h₂.1 h₂.2

/-! ## Shifts -/

/-- The node of a token can be used. -/
theorem usable_terminal {id : NodeId} {i : Nat} (hk : (Arena.node e.nodes id).kind = .terminal i)
    (hi : i < input.tokens.length) : e.Usable input id := by
  refine ⟨Arena.lt_size_of_kind (by rw [hk]; simp), fun hc => ?_, fun _ =>
    ⟨_, .tree (.token hk (Array.getElem?_eq_getElem hi)) .nil⟩⟩
  rw [Node.isChoice, hk] at hc
  cases hc

/-- The node of the token is made, and the shifts are taken. -/
theorem WorkValid.takeShifts (hr : input.Ready) (h : e.WorkValid input)
    (hf : ForestValid input ⟨l + 1, 0⟩ [] e) (hd : e.deferred = []) (hp : e.pending = [])
    (hl : l < input.tokens.length) :
    Ends (terminalNode l) (fun label e₁ => e₁.shifts = e.shifts ∧
      (Arena.node e₁.nodes label).kind = .terminal l ∧ ∀ e₂, e₂ = { e₁ with shifts := #[] } →
        e.GrowsAt (l + 1) e₂ ∧ e₂.WorkValid input ∧ ForestValid input ⟨l + 1, 0⟩ [] e₂ ∧
        e₂.stack = e.stack ∧ e₂.deferred = [] ∧ e₂.pending = []) input.MayFail e := by
  have hf' : ForestValid input ⟨l + 1, 0⟩ e.deferred e := by
    rw [hd]
    exact hf
  refine (hf'.terminalNode hr.epsilon hl (Stage.not_passed _ _)).imp ?_
  rintro label e₁ ⟨hb, hk, hd₁⟩
  have hg₁ : e.GrowsAt (l + 1) e₁ := hb.growsAt
  have hw₁ := h.sameWork hr hf.formed hg₁ hb.toSameWork
  have hf₁ : ForestValid input ⟨l + 1, 0⟩ [] e₁ := by
    rw [← hd₁.trans hd]
    exact hb.valid
  refine ⟨hb.shifts, hk, ?_⟩
  rintro e₂ he₂
  have hg₂ : e₁.GrowsAt (l + 1) e₂ := by
    rw [he₂]
    exact ⟨⟨.refl _ _, fun _ => .inl, fun _ => id⟩, .refl _ _, rfl, rfl⟩
  refine ⟨hg₁.trans hg₂, ?_, ?_, ?_, ?_, ?_⟩
  · have hwalk := fun w hw => (hw₁.walks w hw).grows hr hf₁.formed hg₂
    have hzero := fun x hx => (hw₁.zeros x hx).grows hr hf₁.formed hg₂
    rw [he₂] at hwalk hzero ⊢
    exact ⟨hw₁.toStackValid.congr rfl rfl rfl rfl, by simp [hb.pending.trans hp], hwalk, hzero,
      by simp, hw₁.lookaheads, hw₁.level_le⟩
  · rw [he₂]
    exact hf₁.congr rfl rfl rfl rfl rfl rfl rfl rfl rfl
  · rw [he₂]
    exact hb.stack
  · rw [he₂]
    exact hd₁.trans hd
  · rw [he₂]
    exact hb.pending.trans hp

/-- A stack that can take the token is moved to the next level. -/
theorem WorkValid.shiftOne (hr : input.Ready) (h : e.WorkValid input) (hf : input.Formed e.nodes)
    {x : StackId × StateId} (hx : e.CanShift input x) (hl : e.level < input.tokens.length)
    {label : NodeId} (hk : (Arena.node e.nodes label).kind = .terminal e.level) :
    Ends (internStack (e.level + 1) x.2) (fun r e₁ => Ends (addEdge r.1 ⟨x.1, label⟩)
      (fun isNew e₂ => GraphStack.Links (e.level + 1) x.2 ⟨x.1, label⟩ e.stack e₂.stack r.1 r.2 isNew ∧
        e₂ = { e with stack := e₂.stack } ∧ e.GrowsAt (e.level + 1) e₂ ∧ e₂.WorkValid input)
      input.MayFail e₁) input.MayFail e := by
  obtain ⟨hu, hul, t, hq, ht⟩ := hx
  refine h.link hr hf ?_ (show StackEdge.target ⟨x.1, label⟩ < _ from hu) (x := .terminal t) hq ?_
    (usable_terminal hk hl)
  · rw [h.levels_size]
    exact Nat.succ_lt_succ hl
  · rw [show StackEdge.target ⟨x.1, label⟩ = x.1 from rfl, hul]
    exact ⟨hk, rfl, ht⟩

/-- Shifts have been taken, all but the last ones: the stacks have been moved to the next level, and nothing
else has changed. -/
structure ShiftedBut (input : ParseInput σ) (label : NodeId) (xs rest : List (StackId × StateId))
    (e e' : Engine σ) : Prop where
  frame : e' = { e with stack := e'.stack }
  grows : e.GrowsAt (e.level + 1) e'
  work : e'.WorkValid input
  moved : ∀ x ∈ xs, x ∈ rest ∨ ∃ v, (e'.stack.node v).level = e.level + 1 ∧
    (e'.stack.node v).state = x.2 ∧ ⟨x.1, label⟩ ∈ (e'.stack.node v).edges
  target_lt : ∀ v, (e'.stack.node v).level = e.level + 1 → ∀ edge ∈ (e'.stack.node v).edges,
    edge.target < e.stack.nodes.size

/-- One more shift is taken. -/
theorem ShiftedBut.step (hr : input.Ready) {label : NodeId} {xs rest : List (StackId × StateId)}
    {x : StackId × StateId} (h : ShiftedBut input label xs (x :: rest) e e') (hf : input.Formed e.nodes)
    (hx : e.CanShift input x) (hl : e.level < input.tokens.length)
    (hk : (Arena.node e.nodes label).kind = .terminal e.level) :
    Ends (internStack (e.level + 1) x.2) (fun r e₁ => Ends (addEdge r.1 ⟨x.1, label⟩)
      (fun _ e₂ => ShiftedBut input label xs rest e e₂) input.MayFail e₁) input.MayFail e' := by
  have hnodes : e'.nodes = e.nodes := by rw [h.frame]
  have hlevel : e'.level = e.level := h.grows.level_eq
  rw [← hlevel]
  refine (h.work.shiftOne hr (hnodes ▸ hf) (Engine.CanShift.grows h.grows hx) (hlevel ▸ hl)
    (hnodes ▸ hlevel ▸ hk)).imp fun r e₁ hadd => hadd.imp ?_
  rintro isNew e₂ ⟨hlink, he₂, hg₂, hw₂⟩
  rw [hlevel] at hlink hg₂
  refine ⟨?_, h.grows.trans hg₂, hw₂, fun y hy => ?_, fun v hv edge he => ?_⟩
  · rw [he₂, h.frame]
  · rcases h.moved y hy with hmem | ⟨v, hv, hs, he⟩
    · rcases List.mem_cons.1 hmem with rfl | hmem
      · exact .inr ⟨r.1, hlink.level_eq, hlink.state_eq, hlink.mem_edges⟩
      · exact .inl hmem
    · have hvlt := GraphStack.lt_size_of_mem_edges he
      exact .inr ⟨v, (hg₂.stack.level_eq v hvlt).trans hv, (hg₂.stack.state_eq v hvlt).trans hs,
        hg₂.stack.mem_edges v _ he⟩
  · rcases hlink.edge_cases v edge he with hold | ⟨-, -, rfl⟩
    · have hvlt := GraphStack.lt_size_of_mem_edges hold
      exact h.target_lt v ((hg₂.stack.level_eq v hvlt).symm.trans hv) edge hold
    · exact hx.1

/-- When all shifts have been taken, the next level is awaited. -/
theorem Finished.awaits (h : Finished input start l e) (hsome : e.shifts ≠ #[]) {label : NodeId}
    (hg₁ : e.GrowsAt (l + 1) e₁) (hf₁ : ForestValid input ⟨l + 1, 0⟩ [] e₁)
    (hstack : e₁.stack = e.stack) (hdeferred : e₁.deferred = []) (hpending : e₁.pending = [])
    (hshifts : e₁.shifts = #[]) (hk : (Arena.node e₁.nodes label).kind = .terminal l)
    (hs : ShiftedBut input label e.shifts.toList [] e₁ e') : Awaits input start (l + 1) e' := by
  have hlevel : e₁.level = l := hg₁.level_eq.trans h.level_eq
  have hg : e.GrowsAt (l + 1) e' := hg₁.trans (hlevel ▸ hs.grows)
  have hmoved : ∀ x ∈ e.shifts, ∃ v, (e'.stack.node v).level = l + 1 ∧
      (e'.stack.node v).state = x.2 ∧ ⟨x.1, label⟩ ∈ (e'.stack.node v).edges := by
    intro x hx
    rw [← hlevel]
    exact (hs.moved x (Array.mem_toList_iff.2 hx)).resolve_left List.not_mem_nil
  have htarget : ∀ v, (e'.stack.node v).level = l + 1 → ∀ edge ∈ (e'.stack.node v).edges,
      edge.target < e.stack.nodes.size := by
    rw [← hlevel, ← hstack]
    exact hs.target_lt
  have hold : ∀ u < e'.stack.nodes.size, (e'.stack.node u).level ≤ l → u < e.stack.nodes.size := by
    intro u hu hul
    by_contra hge
    have := hg.stack.level_new u (Nat.not_lt.1 hge) hu
    omega
  have hframe := hs.frame
  refine ⟨h.grows (Nat.le_succ l) hg ?_ ?_ (fun m hm hlm => ?_) fun m hm hlm => ?_, ?_,
    hs.work.toStackValid, ?_, fun v hv edge he => ?_, fun h0 => absurd h0 (Nat.succ_ne_zero l),
    fun m hm => ?_⟩
  · rw [hframe]
    exact hdeferred
  · rw [hframe]
    exact hpending
  · obtain rfl := Nat.le_antisymm hm hlm
    obtain ⟨x, hx⟩ := Array.exists_mem_of_ne_empty _ hsome
    obtain ⟨v, hv, -, he⟩ := hmoved x hx
    exact ⟨v, GraphStack.lt_size_of_mem_edges he, hv⟩
  · obtain rfl := Nat.le_antisymm hlm (Nat.le_of_lt_succ hm)
    intro u hu hul t q ht hq
    have hu' := hold u hu (Nat.le_of_eq hul)
    rw [hg.stack.level_eq u hu'] at hul
    rw [hg.stack.state_eq u hu'] at hq
    obtain ⟨v, hv, hstate, he⟩ := hmoved _ (h.shiftable u hu' hul t q ht hq)
    exact ⟨v, label, hv, hstate, he, by rw [hframe]; exact hk⟩
  · rw [hframe]
    exact hf₁.congr rfl rfl rfl rfl rfl rfl rfl rfl rfl
  · rw [hframe]
    exact hshifts
  · rw [hg.stack.level_eq _ (htarget v hv edge he)]
    exact Nat.lt_succ_of_le (h.level_le _ (htarget v hv edge he))
  · exact (h.reduced m (Nat.le_of_lt_succ hm)).grows h.forest.formed h.work.toStackValid hg
      (Nat.le_of_lt hm)
      (fun u hu hul => hold u hu (Nat.le_trans hul (Nat.le_of_lt_succ hm))) fun u hu hul =>
        hg.stack.node_eq u hu (Nat.ne_of_lt (Nat.lt_of_le_of_lt hul hm))

/-- Every stack that can take the token is moved to the next level, if there is one. -/
theorem Finished.shift (hr : input.Ready) (h : Finished input start l e)
    (hl : l < input.tokens.length) (hsome : e.shifts ≠ #[]) :
    Ends shift (fun _ e' => Awaits input start (l + 1) e') input.MayFail e := by
  simp only [Engine.shift, ends_bind, ends_get, ends_modify, h.level_eq]
  refine (h.work.takeShifts hr h.forest h.deferred h.pending hl).imp ?_
  rintro label e₁ ⟨hshifts, hk, htaken⟩
  obtain ⟨e₂, he₂⟩ : ∃ e₂ : Engine σ, e₂ = { e₁ with shifts := #[] } := ⟨_, rfl⟩
  obtain ⟨hg₂, hw₂, hf₂, hstack, hd₂, hp₂⟩ := htaken e₂ he₂
  rw [← he₂, hshifts]
  have hk₂ : (Arena.node e₂.nodes label).kind = .terminal l := by rw [he₂]; exact hk
  have hlevel : e₂.level = l := hg₂.level_eq.trans h.level_eq
  have hcan : ∀ x ∈ e.shifts, e₂.CanShift input x := fun x hx => by
    rw [CanShift, hstack, hg₂.level_eq]
    exact h.work.shifts x hx
  have hnone : ShiftedBut input label e.shifts.toList e.shifts.toList e₂ e₂ :=
    ⟨rfl, .refl _ _, hw₂, fun _ hx => .inl hx, fun v _ edge he => hw₂.indexed.target_lt v edge he⟩
  refine (Ends.forM (I := fun rest e' => ShiftedBut input label e.shifts.toList rest e₂ e') _ hnone
    fun x rest e₃ hsuf hI => ?_).imp fun _ e' hI => ?_
  · have hx := hcan x (Array.mem_toList_iff.1 (hsuf.subset (.head _)))
    simp only [ends_bind, ends_discard]
    rw [← hlevel] at hl hk₂ ⊢
    exact hI.step hr hf₂.formed hx hl hk₂
  · exact h.awaits hsome hg₂ hf₂ hstack hd₂ hp₂ (by rw [he₂]) hk₂ hI

/-! ## Runs -/

/-- Why a run ends without an answer: early, at a token that no stack can take, or after the last level
because nothing is accepted or everything has been turned down. -/
inductive Fails (input : ParseInput σ) : ParseError → Prop
  | early {err : ParseError} (h : input.MayFail err) : Fails input err
  | stuck {start : StackId} {l : Nat} {e : Engine σ} (h : Finished input start l e)
      (hl : l < input.tokens.length) (hs : e.shifts = #[]) : Fails input (e.failure input l)
  | unaccepted {start : StackId} {e : Engine σ} (h : Finished input start input.tokens.length e)
      (hroot : e.acceptedRoot? input start = none) :
      Fails input (e.failure input (input.tokens.length - 1))
  | empty {start : StackId} {e : Engine σ} {root : NodeId}
      (h : Finished input start input.tokens.length e)
      (hroot : e.acceptedRoot? input start = some root) (hnil : Arena.childrenOf e.nodes root = []) :
      Fails input .emptyForest

/-- The levels, one after the other. -/
theorem Awaits.runLevels (hr : input.Ready) (more : Nat) (h : Awaits input start l e)
    (hl : l + more = input.tokens.length) :
    Ends (runLevels input start more l)
      (fun _ e' => Finished input start input.tokens.length e') (Fails input) e := by
  induction more generalizing l e with
  | zero =>
    rw [← show l = input.tokens.length from hl]
    exact (h.runLevel hr (Nat.le_of_eq hl)).mono (fun _ _ hf => hf) fun _ => .early
  | succ more ih =>
    simp only [Engine.runLevels, ends_bind, ends_get]
    refine (h.runLevel hr (by omega)).mono (fun _ e₁ hf => ?_) fun _ => .early
    split
    · rename_i hs
      exact .stuck hf (by omega) (Array.isEmpty_iff.1 hs)
    · rename_i hs
      simp only [ends_bind]
      exact (hf.shift hr (by omega) fun hnil => hs (Array.isEmpty_iff.2 hnil)).mono
        (fun _ e₂ ha => ih ha (by omega)) fun _ => .early

/-- The stack begins with one node. -/
theorem awaits_initial (hr : input.Ready) (user : σ) :
    Ends (internStack 0 Automaton.start) (fun r e => Awaits input r.1 0 e) input.MayFail
      (initial input user) := by
  have hi := GraphStack.indexed_empty (input.tokens.length + 1) input.config.maxStackNodes
  have hl : 0 < (GraphStack.empty (input.tokens.length + 1) input.config.maxStackNodes).levels.size := by
    simp [GraphStack.empty]
  simp only [Engine.internStack, ends_bind, ends_get]
  rcases hi.intern hl Automaton.start with ⟨herr, hfull⟩ |
    ⟨id, created, s, hok, hi', hg, hlt, hst, hlev, hcase⟩
  · simp only [Engine.initial, herr, ends_throw]
    have hlt := hfull.size_lt (fun id hid => absurd hid (Nat.not_lt_zero id))
      hr.automaton.isLR0.pos
    rw [show (GraphStack.empty (input.tokens.length + 1) input.config.maxStackNodes).levels.size =
      input.tokens.length + 1 by simp [GraphStack.empty]] at hlt
    exact ⟨rfl, hfull.limit_le.imp (Nat.lt_of_le_of_lt · hlt) (Nat.lt_of_le_of_lt · hlt)⟩
  · have hadd : s = ((GraphStack.empty (input.tokens.length + 1) input.config.maxStackNodes).add 0
        Automaton.start).2 ∧ id = 0 := by
      rcases hcase with ⟨-, rfl⟩ | ⟨-, rfl, rfl⟩
      · exact absurd hlt (Nat.not_lt_zero id)
      · exact ⟨rfl, rfl⟩
    obtain ⟨rfl, rfl⟩ := hadd
    have honly : ∀ u < ((GraphStack.empty (input.tokens.length + 1) input.config.maxStackNodes).add 0
        Automaton.start).2.nodes.size, u = 0 := fun u hu => by
      simpa [GraphStack.size_add, GraphStack.empty] using hu
    have hedges : ∀ u, (((GraphStack.empty (input.tokens.length + 1)
        input.config.maxStackNodes).add 0 Automaton.start).2.node u).edges = #[] := fun u => by
      rw [GraphStack.edges_add, GraphStack.node_of_size_le (Nat.zero_le u)]
      rfl
    simp only [Engine.initial, hok, ends_bind, ends_modify, ends_pure]
    have hforest : ForestValid input ⟨0, 0⟩ [] (initial input user) :=
      ForestValid.initial hr.wellFormed hr.epsilon user
    refine ⟨⟨hlt, hlev, hst, fun u hu => ?_, fun m hm => ⟨_, hlt, hlev.trans (Nat.le_zero.1 hm).symm⟩,
        rfl, rfl, fun m hm => absurd hm (Nat.not_lt_zero m)⟩,
      hforest.congr rfl rfl rfl rfl rfl rfl rfl rfl rfl,
      ⟨hi', ?_, rfl, fun u hu => ?_, fun u edge he => ?_, fun u hu => ?_⟩, rfl,
      fun u _ edge he => ?_,
      fun _ => honly, fun m hm => absurd hm (Nat.not_lt_zero m)⟩
    · rw [honly u hu, hlev]
    · rw [hg.levels_size]
      simp [GraphStack.empty]
    · rw [honly u hu, hst]
      exact hr.automaton.isLR0.pos
    · rw [hedges u] at he
      simp at he
    · rw [honly u hu, Reached, hst, hlev]
      exact ⟨[], rfl, spells_nil 0⟩
    · rw [hedges u] at he
      simp at he

/-- A parse ends with the root of a forest that has an alternative, or fails for a reason. -/
theorem parseTokens_ends (hr : input.Ready) (user : σ) :
    Ends (parseTokens input) (fun root e => ∃ start, Finished input start input.tokens.length e ∧
      e.acceptedRoot? input start = some root ∧ Arena.childrenOf e.nodes root ≠ [])
      (Fails input) (initial input user) := by
  simp only [Engine.parseTokens, ends_bind, ends_get]
  refine (awaits_initial hr user).mono (fun r e₁ ha => ?_) fun _ => .early
  refine (ha.runLevels hr input.tokens.length (Nat.zero_add _)).imp fun _ e hf => ?_
  cases hroot : e.acceptedRoot? input r.1 with
  | none => exact .unaccepted hf hroot
  | some root =>
    dsimp only
    split
    · rename_i hempty
      refine .empty hf hroot ?_
      rw [Arena.childrenOf, Array.isEmpty_iff.1 hempty]
    · rename_i hempty
      exact ⟨r.1, hf, hroot, fun hnil => hempty
        (Array.isEmpty_iff.2 (Array.toList_eq_nil_iff.1 hnil))⟩

end Engine

end ParseForest
