import ParseForest.Proofs.Parser.Closure

/-!
# Queueing

One lemma per operation that queues work: begun in a valid state it ends in a valid state with the
same stack, in which what it should queue is queued, or fails as it may (`Engine.Queues`).

Each also says what it costs. The limit on the work of a level is a sum of three parts: one for empty
reductions, one for walks and one for edges. What has been used up of it (`Engine.spent`) only
grows, and what is pending (`Engine.load`) is paid out of it (`Engine.Spends`).
-/

namespace ParseForest

variable {σ : Type}

/-- What a piece of work costs. A walk may go over an edge to every stack node. -/
def Pending.weight (nodes : Nat) : Pending → Nat
  | .walk _ => nodes + 1
  | _ => 1

namespace Engine

section

variable (input : ParseInput σ)

/-- What the pending work costs. -/
def load (e : Engine σ) : Nat := (e.pending.map (Pending.weight (nodeBound input))).sum

/-- What has been used up of the limit on the work of a level. -/
def spent (e : Engine σ) : Nat :=
  e.zeros.size + (nodeBound input + 1) * e.walks.size + itemBound input * e.stack.edgeTotal

/-- The work that has been added costs no more than what has been used up of the limit, and `k`. -/
def Spends (k : Nat) (e e' : Engine σ) : Prop :=
  e'.load input + e.spent input ≤ e.load input + e'.spent input + k

/-- Work has been queued that costs `k`, and the stack is the same. -/
structure Queues (k : Nat) (e e' : Engine σ) : Prop extends Extends input e e' where
  stack_eq : e'.stack = e.stack
  spends : Spends input k e e'

end

variable {input : ParseInput σ} {e e' e'' : Engine σ} {E : ParseError → Prop} {k k' : Nat}

theorem Spends.trans (h : Spends input k e e') (h' : Spends input k' e' e'') :
    Spends input (k + k') e e'' := by
  simp only [Spends] at *
  omega

theorem Queues.refl (h : e.Valid input) : Queues input 0 e e := ⟨.refl h, rfl, Nat.le_refl _⟩

theorem Queues.trans (h : Queues input k e e') (h' : Queues input k' e' e'') :
    Queues input (k + k') e e'' :=
  ⟨h.toExtends.trans h'.toExtends, h'.stack_eq.trans h.stack_eq, h.spends.trans h'.spends⟩

theorem Queues.mono (h : Queues input k e e') (hk : k ≤ k') : Queues input k' e e' :=
  ⟨h.toExtends, h.stack_eq, Nat.le_trans h.spends (Nat.add_le_add_left hk _)⟩

theorem mem_actions_iff {q : StateId} {a : Action} : a ∈ e.actions input q ↔
    ∃ l ∈ e.lookaheads, a ∈ (input.compiled.automaton.state q).actions l := by
  rw [actions, List.mem_eraseDups, List.mem_flatMap]

/-- Only the stack and the lookaheads tell what a stack node can do. -/
theorem GrowsAt.actions_eq {l : Nat} (h : e.GrowsAt l e') {u : StackId}
    (hu : u < e.stack.nodes.size) :
    e'.actions input (e'.stack.node u).state = e.actions input (e.stack.node u).state := by
  rw [actions, actions, h.lookaheads_eq, h.stack.state_eq u hu]

/-- Other work is queued. -/
theorem Valid.queue (hr : input.Ready) (h : e.Valid input) {pending : List Pending}
    {walks : Std.HashSet Walk} {zeros : Std.HashSet (StackId × RuleId)}
    {shifts : Array (StackId × StateId)} (hp : ∀ p ∈ pending, p.Valid input e)
    (hw : ∀ w ∈ walks, (Pending.walk w).Valid input e)
    (hz : ∀ x ∈ zeros, (Pending.zero x.1 x.2).Valid input e)
    (hs : ∀ x ∈ shifts, e.CanShift input x) :
    e.GrowsAt e.level { e with pending, walks, zeros, shifts } ∧
      Valid input { e with pending, walks, zeros, shifts } := by
  have hg : e.GrowsAt e.level { e with pending, walks, zeros, shifts } :=
    ⟨⟨.refl _ _, fun _ => .inl, fun _ => id⟩, .refl _ _, rfl, rfl⟩
  have hf := h.formed
  refine ⟨hg, h.toForestValid.congr rfl rfl rfl rfl rfl rfl rfl rfl rfl,
    h.toStackValid.sameStack hr hf hg rfl, fun p hp' => (hp p hp').grows hr hf hg,
    fun w hw' => (hw w hw').grows hr hf hg, fun x hx => (hz x hx).grows hr hf hg, hs, h.lookaheads, h.level_le⟩

/-- A completion is queued. -/
theorem Valid.pushComplete (hr : input.Ready) (h : e.Valid input) {u : StackId} {rule : RuleId}
    {alt : Nat} {children : Children} (hp : (Pending.complete u rule alt children).Valid input e) :
    Ends (push (.complete u rule alt children)) (fun _ e' => Queues input 1 e e' ∧
      .complete u rule alt children ∈ e'.pending) E e := by
  obtain ⟨hg, hv⟩ := h.queue hr (List.forall_mem_cons.2 ⟨hp, h.toWorkValid.pending⟩) h.walks h.zeros
    h.shifts
  refine ⟨⟨⟨hg, hv, fun p hp => .tail _ hp, fun _ => id, fun _ => id, fun _ => id, fun _ => .inl,
    fun _ => .inl⟩, rfl, ?_⟩, .head _⟩
  simp only [Spends, load, spent, List.map_cons, List.sum_cons, Pending.weight]
  omega

/-- A walk is queued, unless it has been. -/
theorem Valid.pushWalk (hr : input.Ready) (h : e.Valid input) {w : Walk}
    (hw : (Pending.walk w).Valid input e) :
    Ends (pushWalk w) (fun _ e' => Queues input 0 e e' ∧ w ∈ e'.walks) E e := by
  simp only [Engine.pushWalk, ends_bind, ends_get]
  by_cases hmem : w ∈ e.walks
  · simp only [Std.HashSet.contains_iff_mem.2 hmem, Bool.not_true, Bool.false_eq_true, if_false]
    exact ⟨.refl h, hmem⟩
  · have hcontains : e.walks.contains w = false := by
      simpa [Std.HashSet.contains_iff_mem] using hmem
    simp only [hcontains, Bool.not_false, if_true, Engine.push, ends_bind, ends_modify]
    have hinsert := @mem_insert_iff _ _ _ _ e.walks w
    have hwalks : ∀ w' ∈ e.walks.insert w, (Pending.walk w').Valid input e := by
      intro w' hw'
      rcases (hinsert w').1 hw' with hw' | rfl
      · exact h.toWorkValid.walks w' hw'
      · exact hw
    obtain ⟨hg, hv⟩ := h.queue hr (List.forall_mem_cons.2 ⟨hw, h.toWorkValid.pending⟩) hwalks h.zeros
      h.shifts
    refine ⟨⟨⟨hg, hv, fun p hp => .tail _ hp, fun w' hw' => (hinsert w').2 (.inl hw'), fun _ => id,
      fun _ => id, fun w' hw' => ((hinsert w').1 hw').imp_right ?_, fun _ => .inl⟩, rfl, ?_⟩,
      (hinsert w).2 (.inr rfl)⟩
    · rintro rfl
      exact .head _
    · simp only [Spends, load, spent, List.map_cons, List.sum_cons, Pending.weight,
        Std.HashSet.size_insert, hmem, if_false, Nat.mul_add]
      omega

/-- An item that is reduced before a lookahead of the level. -/
theorem Valid.item_of_action (hr : input.Ready) (h : e.Valid input) {u : StackId}
    (hu : u < e.stack.nodes.size) {rule : RuleId} {alt n : Nat}
    (ha : .reduce rule alt n ∈ e.actions input (e.stack.node u).state) :
    e.stack.HasItem input u ⟨rule, alt, n⟩ ∧ ⟨rule, alt, n⟩ ∈ allItems input.grammar ∧
      rule ≠ input.grammar.start ∧
        input.grammar.Nullable ((input.grammar.alternative rule alt).symbols.drop n) := by
  obtain ⟨l, -, ha⟩ := mem_actions_iff.1 ha
  have hi := (hr.automaton.item_of_reduce _ l rule alt n ha).1
  obtain ⟨hne, -, hnull⟩ := hr.automaton.rest_of_reduce _ l rule alt n ha
  exact ⟨⟨hu, hi⟩, hr.automaton.isLR0.mem_allItems _ (h.state_lt u hu) _ hi, hne, hnull⟩

/-- A shift or an empty reduction of a stack node of the level is queued. -/
theorem Valid.queueAction (hr : input.Ready) (h : e.Valid input) {u : StackId}
    (hu : u < e.stack.nodes.size) (hl : (e.stack.node u).level = e.level) {a : Action}
    (ha : a ∈ e.actions input (e.stack.node u).state) :
    Queues input 0 e (queueAction u a e) ∧ (queueAction u a e).Queued u a := by
  have hnothing : ∀ {a}, e.Queued u a → Queues input 0 e e ∧ e.Queued u a := fun hq => ⟨.refl h, hq⟩
  rcases a with target | ⟨rule, alt, _ | n⟩ | _
  · obtain ⟨l, hmem, hshift⟩ := mem_actions_iff.1 ha
    rw [Engine.queueAction]
    split
    · rename_i hc
      exact hnothing (Array.contains_iff_mem.1 hc)
    · obtain ⟨t, rfl, ht⟩ := State.shift_mem_actions_iff.1 hshift
      have hshifts : ∀ x ∈ e.shifts.push (u, target), e.CanShift input x := by
        intro x hx
        rcases Array.mem_push.1 hx with hx | rfl
        · exact h.shifts x hx
        · exact ⟨hu, hl, t, ht, satisfies_of_mem_lookaheadsAt (h.lookaheads ▸ hmem)⟩
      obtain ⟨hg, hv⟩ := h.queue hr h.toWorkValid.pending h.walks h.zeros hshifts
      exact ⟨⟨⟨hg, hv, fun _ => id, fun _ => id, fun _ => id,
        fun x hx => Array.mem_push_of_mem _ hx, fun _ => .inl, fun _ => .inl⟩, rfl, Nat.le_refl _⟩,
        Array.mem_push_self⟩
  · obtain ⟨hi, hall, hs⟩ := h.item_of_action hr hu ha
    have hzero : (Pending.zero u rule).Valid input e :=
      ⟨⟨alt, hi⟩, hl, hs.1, Grammar.nullable_rule_iff.2
        ⟨_, Grammar.alternative_mem (Item.mem_allItems_iff.1 hall).1, hs.2⟩⟩
    rw [Engine.queueAction]
    split
    · rename_i hc
      exact hnothing (Std.HashSet.contains_iff_mem.1 hc)
    · rename_i hc
      have hmem : (u, rule) ∉ e.zeros := fun hmem => hc (Std.HashSet.contains_iff_mem.2 hmem)
      have hinsert := @mem_insert_iff _ _ _ _ e.zeros (u, rule)
      have hzeros : ∀ x ∈ e.zeros.insert (u, rule), (Pending.zero x.1 x.2).Valid input e := by
        intro x hx
        rcases (hinsert x).1 hx with hx | rfl
        · exact h.zeros x hx
        · exact hzero
      obtain ⟨hg, hv⟩ := h.queue hr (List.forall_mem_cons.2 ⟨hzero, h.toWorkValid.pending⟩) h.walks
        hzeros h.shifts
      refine ⟨⟨⟨hg, hv, fun p hp => .tail _ hp, fun _ => id, fun x hx => (hinsert x).2 (.inl hx),
        fun _ => id, fun _ => .inl, fun x hx => ((hinsert x).1 hx).imp_right ?_⟩, rfl, ?_⟩,
        (hinsert _).2 (.inr rfl)⟩
      · rintro rfl
        exact .head _
      · simp only [Spends, load, spent, List.map_cons, List.sum_cons, Pending.weight,
          Std.HashSet.size_insert, hmem, if_false]
        omega
  · exact hnothing trivial
  · exact hnothing trivial

/-- What is queued stays queued. -/
theorem Queued.extends (h : Extends input e e') {u : StackId} {a : Action} (hq : e.Queued u a) :
    e'.Queued u a := by
  rcases a with target | ⟨rule, alt, _ | n⟩ | _
  · exact h.shifts _ hq
  · exact h.zeros _ hq
  · trivial
  · trivial

/-- The shifts and empty reductions of a stack node of the level are queued. -/
theorem Valid.queueNode (hr : input.Ready) (h : e.Valid input) {u : StackId}
    (hu : u < e.stack.nodes.size) (hl : (e.stack.node u).level = e.level) :
    Ends (queueNode input u) (fun _ e' => Queues input 0 e e' ∧ e'.NodeQueued input u) E e := by
  simp only [Engine.queueNode, nodeActions, ends_bind, ends_get, ends_pure]
  refine (Ends.forM (I := fun rest e' => Queues input 0 e e' ∧
    ∀ a ∈ e.actions input (e.stack.node u).state, a ∈ rest ∨ e'.Queued u a) _
    ⟨.refl h, fun a ha => .inl ha⟩ fun a rest e₁ hsuf h₁ => ?_).imp fun _ e' h' =>
      ⟨h'.1, fun a ha => ?_⟩
  · obtain ⟨hq, hdone⟩ := h₁
    simp only [ends_modify]
    have ha : a ∈ e₁.actions input (e₁.stack.node u).state := by
      rw [hq.actions_eq hu]
      exact hsuf.subset (.head _)
    have hstep := hq.valid.queueAction hr (hq.stack_eq ▸ hu) (by rw [hq.stack_eq, hq.level_eq, hl]) ha
    refine ⟨hq.trans hstep.1, fun b hb => ?_⟩
    rcases hdone b hb with hmem | hb
    · rcases List.mem_cons.1 hmem with rfl | hmem
      · exact .inr hstep.2
      · exact .inl hmem
    · exact .inr (hb.extends hstep.1.toExtends)
  · rw [h'.1.actions_eq hu] at ha
    exact (h'.2 a ha).resolve_left (by simp)

/-! ## Reductions -/

/-- The fragments can be used. -/
theorem ForestValid.usable_fragment (hr : input.Ready) {st : Stage} {ds : List Deferred}
    (h : ForestValid input st ds e) {id : NodeId}
    (hid : id < input.compiled.epsilon.nodes.size)
    (hp : input.compiled.epsilon.nodes.Productive input.grammar input.tokens id) :
    e.Usable input id := by
  refine ⟨Nat.lt_of_lt_of_le hid h.formed.size_le, fun _ s hs => ?_, fun _ =>
    (input.formed_fragments hr.wellFormed hr.epsilon).productive_grows hr.epsilon hp hid h.formed.base⟩
  rw [h.formed.fragment id hid, hr.epsilon.span_eq_none hid] at hs
  cases hs

theorem ForestValid.usable_symbol? (hr : input.Ready) {st : Stage} {ds : List Deferred}
    (h : ForestValid input st ds e) {rule : RuleId} {id : NodeId}
    (hid : input.compiled.epsilon.symbol? rule = some id) : e.Usable input id :=
  h.usable_fragment hr (hr.epsilon.symbol rule id hid).1
    (hr.epsilon.productive_symbol input.compiled.matcher hr.wellFormed hid)

theorem ForestValid.usable_tail? (hr : input.Ready) {st : Stage} {ds : List Deferred}
    (h : ForestValid input st ds e) {rule : RuleId} {alt dot : Nat}
    {id : NodeId} (hid : input.compiled.epsilon.tail? rule alt dot = some id) : e.Usable input id :=
  h.usable_fragment hr (hr.epsilon.tail rule alt dot id hid).1
    (hr.epsilon.productive_tail input.compiled.matcher hr.wellFormed hid)

/-- The symbols that a reduction leaves out have a fragment, if there are any. -/
theorem nulledTail_spec (hr : input.Ready) {rule : RuleId} {alt n : Nat}
    (halt : alt < (input.grammar.rule rule).alternatives.size) (hn : 0 < n)
    (hnull : input.grammar.Nullable ((input.grammar.alternative rule alt).symbols.drop n)) :
    Ends (nulledTail input rule alt n) (fun rest e' => e' = e ∧ input.IsLeftOut rule alt n rest)
      input.MayFail e := by
  rw [Engine.nulledTail]
  split
  · rename_i hle
    exact ⟨rfl, .inl ⟨hle, rfl⟩⟩
  · rename_i hlt
    cases hid : input.compiled.epsilon.tail? rule alt n with
    | some id => exact ⟨rfl, .inr ⟨Nat.not_le.1 hlt, id, rfl, hid⟩⟩
    | none =>
      obtain ⟨part, hpart⟩ := hr.exists_tail halt hn (Nat.not_le.1 hlt) hnull
      rw [hid] at hpart
      cases hpart

/-- An edge over which an alternative may be reduced: what its label stands for, and what is left to
be walked from its target. -/
theorem StackValid.step_back (hr : input.Ready) (h : e.StackValid input) {u : StackId} {edge : StackEdge}
    (he : edge ∈ (e.stack.node u).edges) {rule : RuleId} {alt dot : Nat}
    (hi : e.stack.HasItem input u ⟨rule, alt, dot + 1⟩) :
    e.Usable input edge.label ∧ e.stack.HasItem input edge.target ⟨rule, alt, dot⟩ ∧
      ∃ x, (input.grammar.alternative rule alt).symbols[dot]? = some x ∧
        e.nodes.Stands input.compiled.matcher input.tokens x (e.stack.node edge.target).level
          (e.stack.node u).level edge.label := by
  obtain ⟨hu, x, hx, hstands⟩ := h.labelled u edge he
  obtain ⟨hi', hsym⟩ := hr.automaton.isLR0.step_back_eq hx hi.2
  exact ⟨hu, ⟨h.indexed.target_lt u edge he, hi'⟩, x, hsym, hstands⟩

/-- The reduction of an alternative that begins with an edge is queued. -/
theorem Valid.queueReduction (hr : input.Ready) (h : e.Valid input) {u : StackId}
    {edge : StackEdge} (he : edge ∈ (e.stack.node u).edges) (hl : (e.stack.node u).level = e.level)
    (ht : (e.stack.node edge.target).level < e.level) {rule : RuleId} {alt n : Nat}
    (ha : .reduce rule alt (n + 1) ∈ e.actions input (e.stack.node u).state) :
    Ends (queueReduction input edge rule alt (n + 1)) (fun _ e' => Queues input 1 e e' ∧
      ∃ rest, input.IsLeftOut rule alt (n + 1) rest ∧
        e'.Continued input e'.pending edge rule alt n rest) input.MayFail e := by
  obtain ⟨hi, hall, hs⟩ := h.item_of_action hr (GraphStack.lt_size_of_mem_edges he) ha
  obtain ⟨halt, hn⟩ := Item.mem_allItems_iff.1 hall
  obtain ⟨hu, hi', x, hx, hstands⟩ := h.step_back hr he hi
  rw [hl] at hstands
  simp only [Engine.queueReduction, ends_bind]
  refine (nulledTail_spec hr halt (Nat.succ_pos n) hs.2).imp ?_
  rintro rest e₁ ⟨rfl, hrest⟩
  split
  · rename_i h0
    obtain rfl : n = 0 := by simpa using h0
    have hv : (Pending.complete edge.target rule alt ⟨edge.label, rest⟩).Valid input e₁ := by
      refine ⟨hi', ht, ?_, fun c hc => ?_, hs.1⟩
      · rcases hrest with ⟨hle, rfl⟩ | ⟨-, id, rfl, hid⟩
        · exact .only hx (Nat.le_antisymm hn hle) hstands
        · exact .cons hx hstands (.nulled hid rfl)
      · rcases List.mem_cons.1 hc with rfl | hc
        · exact hu
        · rcases hrest with ⟨-, rfl⟩ | ⟨-, id, rfl, hid⟩
          · cases hc
          · obtain rfl := List.mem_singleton.1 hc
            exact h.usable_tail? hr hid
    exact (h.pushComplete hr hv).imp fun _ e' hq => ⟨hq.1, rest, hrest, .inl hq.2⟩
  · rename_i h0
    obtain ⟨n, rfl⟩ := Nat.exists_eq_succ_of_ne_zero fun hn : n = 0 => h0 (by rw [hn])
    rw [Nat.add_sub_cancel]
    rcases hrest with ⟨hle, rfl⟩ | ⟨hlt, part, rfl, hid⟩
    · simp only [ends_bind, ends_pure]
      refine (h.pushWalk hr ⟨Nat.succ_pos n, hi', ht,
        .last hx (Nat.le_antisymm hn hle) hstands ht, hu, hs.1⟩).imp
        fun _ _ hq => ⟨hq.1.mono (Nat.zero_le 1), none, .inl ⟨hle, rfl⟩, _, .inl ⟨rfl, rfl⟩, hq.2⟩
    · simp only [ends_bind, levelOf, ends_get, ends_pure]
      refine (h.intermediate hr.epsilon ht (Stage.not_passed _ _) (.cons hx hstands (.nulled hid rfl)) hu
        (h.usable_tail? hr hid)).imp ?_
      rintro id e₂ ⟨hb, htail, hu', hk', ha'⟩
      have hx₂ := hb.extends hr h
      have hv : (Pending.walk ⟨edge.target, rule, alt, n + 1, id⟩).Valid input e₂ := by
        have hi₂ := hi'.grows hx₂.stack
        rw [hb.stack] at hi₂
        rw [Pending.Valid, hb.stack, hb.level]
        exact ⟨Nat.succ_pos n, hi₂, ht, htail, hu', hs.1⟩
      have hspends : Spends input 0 e₁ e₂ := by
        simp only [Spends, load, spent, hb.pending, hb.zeros, hb.walks, hb.stack]
        omega
      refine (hx₂.valid.pushWalk hr hv).imp fun _ e' hq =>
        ⟨((⟨hx₂, hb.stack, hspends⟩ : Queues input 0 e₁ e₂).trans hq.1).mono (Nat.zero_le 1),
          some part, .inr ⟨hlt, part, rfl, hid⟩, id, Arena.Joins.grows
            (.inr ⟨part, _, rfl, hk', ha'⟩) hq.1.nodes.toGrows, hq.2⟩

/-- What an action costs when the reductions that begin with an edge are queued. -/
def edgeCost : Action → Nat
  | .reduce _ _ (_ + 1) => 1
  | _ => 0

/-- A state has no more reductions than there are items. -/
theorem Valid.edgeCost_le (hr : input.Ready) (h : e.Valid input) {u : StackId}
    (hu : u < e.stack.nodes.size) :
    ((e.actions input (e.stack.node u).state).map edgeCost).sum ≤ itemBound input := by
  let item : Action → Option Item
    | .reduce rule alt (n + 1) => some ⟨rule, alt, n + 1⟩
    | _ => none
  have hcost : ∀ as : List Action, (as.map edgeCost).sum = (as.filterMap item).length := by
    intro as
    induction as with
    | nil => rfl
    | cons a as ih =>
      rw [List.map_cons, List.sum_cons, ih]
      rcases a with target | ⟨rule, alt, _ | n⟩ | _ <;> simp [edgeCost, item, Nat.add_comm]
  have hitem : ∀ {a i}, item a = some i → a = .reduce i.rule i.alt i.dot := by
    intro a i ha
    rcases a with target | ⟨rule, alt, _ | n⟩ | _ <;> simp only [item, reduceCtorEq] at ha
    obtain rfl := Option.some.inj ha
    rfl
  rw [hcost, itemBound]
  refine (List.subperm_of_subset ((List.nodup_eraseDups _).filterMap fun a a' i hi hi' => ?_)
    fun i hi => ?_).length_le
  · rw [hitem (Option.mem_def.1 hi), hitem (Option.mem_def.1 hi')]
  · obtain ⟨a, ha, hi⟩ := List.mem_filterMap.1 hi
    obtain rfl := hitem hi
    exact (h.item_of_action hr hu ha).2.1

/-- The reductions that begin with an edge to an earlier level are queued. -/
theorem Valid.queueEdge (hr : input.Ready) (h : e.Valid input) {u : StackId} {edge : StackEdge}
    (he : edge ∈ (e.stack.node u).edges) (hl : (e.stack.node u).level = e.level)
    (ht : (e.stack.node edge.target).level < e.level) :
    Ends (queueEdge input u edge) (fun _ e' => Queues input (itemBound input) e e' ∧
      e'.EdgeQueued input e'.pending u edge) input.MayFail e := by
  have hu := GraphStack.lt_size_of_mem_edges he
  have htarget := h.indexed.target_lt u edge he
  simp only [Engine.queueEdge, nodeActions, ends_bind, ends_get, ends_pure]
  let all := e.actions input (e.stack.node u).state
  let cost : List Action → Nat := fun as => (as.map edgeCost).sum
  refine (Ends.forM (I := fun rest e' => (∃ k, Queues input k e e' ∧ k + cost rest ≤ cost all) ∧
    ∀ rule alt n, .reduce rule alt (n + 1) ∈ all → .reduce rule alt (n + 1) ∈ rest ∨
      ∃ part, input.IsLeftOut rule alt (n + 1) part ∧
        e'.Continued input e'.pending edge rule alt n part) _
    ⟨⟨0, .refl h, Nat.le_of_eq (Nat.zero_add _)⟩, fun _ _ _ => .inl⟩
    fun a rest e₁ hsuf h₁ => ?_).imp ?_
  · obtain ⟨⟨k, hq, hk⟩, hdone⟩ := h₁
    have hk : k + (edgeCost a + cost rest) ≤ cost all := by simpa [cost] using hk
    have hother : ∀ {a'}, edgeCost a' = 0 → ∀ rule alt n, Action.reduce rule alt (n + 1) ≠ a' := by
      rintro a' h0 rule alt n rfl
      cases h0
    have hskip : edgeCost a = 0 → ((∃ k, Queues input k e e₁ ∧ k + cost rest ≤ cost all) ∧
        ∀ rule alt n, .reduce rule alt (n + 1) ∈ all → .reduce rule alt (n + 1) ∈ rest ∨
          ∃ part, input.IsLeftOut rule alt (n + 1) part ∧
            e₁.Continued input e₁.pending edge rule alt n part) := fun h0 =>
      ⟨⟨k, hq, by omega⟩, fun rule alt n hmem => (hdone rule alt n hmem).imp_left fun hmem =>
        (List.mem_cons.1 hmem).resolve_left (hother h0 rule alt n)⟩
    rcases a with target | ⟨rule, alt, _ | n⟩ | _
    · exact hskip rfl
    · exact hskip rfl
    · have ha : .reduce rule alt (n + 1) ∈ e₁.actions input (e₁.stack.node u).state := by
        rw [hq.actions_eq hu]
        exact hsuf.subset (.head _)
      refine (hq.valid.queueReduction hr (by rw [hq.stack_eq]; exact he)
        (by rw [hq.stack_eq, hq.level_eq, hl]) (by rw [hq.stack_eq, hq.level_eq]; exact ht) ha).imp
        fun _ e₂ h₂ => ?_
      obtain ⟨hq₂, part, hpart, hc⟩ := h₂
      refine ⟨⟨k + 1, hq.trans hq₂, ?_⟩, fun rule' alt' n' hmem => ?_⟩
      · simp only [edgeCost] at hk
        omega
      · rcases hdone rule' alt' n' hmem with hmem | ⟨part', hpart', hc'⟩
        · rcases List.mem_cons.1 hmem with heq | hmem
          · obtain ⟨rfl, rfl, hn⟩ := Action.reduce.inj heq
            obtain rfl := Nat.succ.inj hn
            exact .inr ⟨part, hpart, hc⟩
          · exact .inl hmem
        · exact .inr ⟨part', hpart', hc'.grows hq.valid hq₂.toGrowsAt
            (fun p hp => .inl (hq₂.pending p hp)) hq₂.walks (hq.stack_eq ▸ htarget)⟩
    · exact hskip rfl
  · rintro _ e' ⟨⟨k, hq, hk⟩, hdone⟩
    refine ⟨hq.mono (Nat.le_trans (by simpa [cost] using hk) (h.edgeCost_le hr hu)), ?_⟩
    intro rule alt n ha
    rw [hq.actions_eq hu] at ha
    exact (hdone rule alt n ha).resolve_left (by simp)

end Engine

end ParseForest
