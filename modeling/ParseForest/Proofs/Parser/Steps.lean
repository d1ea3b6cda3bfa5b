import ParseForest.Proofs.Parser.Queue

/-!
# Pieces of work

A piece of work keeps the engine valid, queues what the new stack nodes and edges call for, and is
done afterwards (`Valid.work`); or it fails as it may. What it costs is less than what it weighed
(`Engine.Works`).
-/

namespace ParseForest

variable {σ : Type}

namespace Engine

variable {input : ParseInput σ} {e e' e'' : Engine σ} {E : ParseError → Prop} {k : Nat}

/-! ## The stack -/

/-- What an edge from a state of a level stands for is spelled up to that level. -/
theorem Reached.step {u : StackId} (h : e.Reached input u)
    (hf : input.Formed e.nodes) {x : Symbol} {l : Nat} {label : NodeId} {q : StateId}
    (hq : (input.compiled.automaton.state (e.stack.node u).state).transition? x = some q)
    (hs : e.nodes.Stands input.compiled.matcher input.tokens x (e.stack.node u).level l label) :
    ∃ α, input.compiled.automaton.walk? Automaton.start α = some q ∧
      Spells input.grammar input.compiled.matcher input.tokens α 0 l := by
  obtain ⟨α, hw, hα⟩ := h
  refine ⟨α ++ [x], walkFrom_append_eq_some.2 ⟨_, hw, ?_⟩, hα.append (hf.backed.spells_of_stands hs)⟩
  rw [walkFrom_singleton]
  exact hq

/-- The stack node that a transition leads to is found or made at a level, and gets an edge. -/
theorem WorkValid.link (hr : input.Ready) (h : e.WorkValid input) (hf : input.Formed e.nodes) {l : Nat}
    (hl : l < e.stack.levels.size) {edge : StackEdge} {x : Symbol} {q : StateId}
    (ht : edge.target < e.stack.nodes.size)
    (hq : (input.compiled.automaton.state (e.stack.node edge.target).state).transition? x = some q)
    (hs : e.nodes.Stands input.compiled.matcher input.tokens x (e.stack.node edge.target).level l
      edge.label) (hu : e.Usable input edge.label) :
    Ends (internStack l q) (fun r e₁ => Ends (addEdge r.1 edge) (fun isNew e₂ =>
      GraphStack.Links l q edge e.stack e₂.stack r.1 r.2 isNew ∧ e₂ = { e with stack := e₂.stack } ∧
      e.GrowsAt l e₂ ∧ e₂.WorkValid input) input.MayFail e₁) input.MayFail e := by
  have hkeep : ∀ {id created isNew s}, GraphStack.Links l q edge e.stack s id created isNew →
      e.GrowsAt l { e with stack := s } ∧ WorkValid input { e with stack := s } := by
    intro id created isNew s hlink
    have hg : e.GrowsAt l { e with stack := s } :=
      ⟨⟨.refl _ _, fun _ => .inl, fun _ hk => hk⟩, hlink.growsAt, rfl, rfl⟩
    refine ⟨hg, h.grows hr hf hg (h.toStackValid.grows hr hf hg hlink.indexed
      (fun id' hid => ?_) fun id' edge' he => ?_) rfl rfl rfl rfl⟩
    · refine (hlink.node_cases id' hid).imp_right ?_
      rintro ⟨-, rfl⟩
      refine ⟨?_, ?_⟩
      · rw [hlink.state_eq]
        exact hr.automaton.isLR0.target_lt hq
      · rw [Reached, hlink.state_eq, hlink.level_eq]
        exact (h.reached _ ht).step hf hq hs
    · refine (hlink.edge_cases id' edge' he).imp_right ?_
      rintro ⟨-, rfl, rfl⟩
      refine ⟨hu.growsAt hr hf hg, x, ?_, ?_⟩
      · rw [hlink.growsAt.state_eq _ ht, hlink.state_eq]
        exact hq
      · rw [hlink.growsAt.level_eq _ ht, hlink.level_eq]
        exact hs
  simp only [Engine.internStack, Engine.addEdge, ends_bind, ends_get]
  rcases h.indexed.link hl q ht with ⟨herr, hfull⟩ | ⟨id, created, s₁, hok, ⟨hhas, hlink⟩ | ⟨hhas, hlink⟩⟩
  · simp only [herr, ends_throw]
    exact h.mayFail hfull (hr.automaton.isLR0.target_lt hq)
  · simp only [hok, ends_bind, ends_modify, ends_pure, ends_modifyGet, hhas, if_true]
    exact ⟨hlink, trivial, hkeep hlink⟩
  · simp only [hok, ends_bind, ends_modify, ends_pure, ends_modifyGet, hhas, Bool.false_eq_true,
      if_false]
    exact ⟨hlink, trivial, hkeep hlink⟩

/-- A rule of which an alternative is begun in the state of a stack node has a goto there. -/
theorem StackValid.exists_goto (hr : input.Ready) (h : e.StackValid input) {u : StackId}
    {rule : RuleId} {alt : Nat} (hi : e.stack.HasItem input u ⟨rule, alt, 0⟩)
    (hs : rule ≠ input.grammar.start) :
    ∃ q, input.compiled.automaton.goto? (e.stack.node u).state rule = some q := by
  have hlt := h.state_lt u hi.1
  rcases hr.automaton.isLR0.start_cases hlt hi.2 with ⟨-, he⟩ | ⟨j, hj, hx⟩
  · exact absurd he hs
  · exact hr.automaton.isLR0.total _ hlt j hj _ hx

theorem Valid.gotoState (hr : input.Ready) (h : e.Valid input) {u : StackId} {rule : RuleId}
    {alt : Nat} (hi : e.stack.HasItem input u ⟨rule, alt, 0⟩) (hs : rule ≠ input.grammar.start) :
    Ends (gotoState input u rule) (fun q e' => e' = e ∧
      input.compiled.automaton.goto? (e.stack.node u).state rule = some q) input.MayFail e := by
  obtain ⟨q, hq⟩ := h.exists_goto hr hi hs
  simp only [Engine.gotoState, ends_bind, ends_get, hq, ends_pure]
  exact ⟨trivial, trivial⟩

/-! ## Reducing -/

/-- Work has been done that costs `k`: what the new stack nodes and edges call for is queued. -/
structure Works (input : ParseInput σ) (k : Nat) (e e' : Engine σ) : Prop
    extends Extends input e e', Serves input e e' where
  spends : Spends input k e e'

theorem Queues.works (h : Queues input k e e') : Works input k e e' :=
  ⟨h.toExtends, serves_of_stack_eq h.stack_eq, h.spends⟩

theorem Builds.queues (hr : input.Ready) (h : e.Valid input) (hb : Builds input ⟨e.level, 0⟩ e e') :
    Queues input 0 e e' := by
  refine ⟨hb.extends hr h, hb.stack, ?_⟩
  simp only [Spends, load, spent, hb.pending, hb.zeros, hb.walks, hb.stack]
  omega

theorem Works.trans {k' : Nat} (h : Works input k e e') (h' : Works input k' e' e'') :
    Works input (k + k') e e'' :=
  ⟨h.toExtends.trans h'.toExtends,
    h.toServes.trans h.valid h'.toServes h'.toExtends, h.spends.trans h'.spends⟩

/-- A symbol is put on top of a stack node of the current level. -/
structure Puts (input : ParseInput σ) (u : StackId) (rule : RuleId) (label : NodeId) (e e' : Engine σ)
    (id : StackId) (created isNew : Bool) : Prop extends Extends input e e' where
  lt_size : u < e.stack.nodes.size
  links : ∃ q, GraphStack.Links e.level q ⟨u, label⟩ e.stack e'.stack id created isNew
  hasGoto : e'.HasGoto input e'.level u rule label
  /-- A new edge makes room for the reductions that begin with it -/
  spends : e'.load input + e.spent input + itemBound input * isNew.toNat ≤
    e.load input + e'.spent input

theorem Valid.put (hr : input.Ready) (h : e.Valid input) {u : StackId} {rule : RuleId}
    {label : NodeId} {q : StateId} (hu : u < e.stack.nodes.size)
    (hq : input.compiled.automaton.goto? (e.stack.node u).state rule = some q)
    (hs : e.nodes.Stands input.compiled.matcher input.tokens (.rule rule) (e.stack.node u).level
      e.level label) (hlabel : e.Usable input label) :
    Ends (Engine.internStack e.level q) (fun r e₁ => Ends (Engine.addEdge r.1 ⟨u, label⟩)
      (fun isNew e₂ => Puts input u rule label e e₂ r.1 r.2 isNew) input.MayFail e₁)
      input.MayFail e := by
  refine (h.toWorkValid.link hr h.formed h.level_lt (show StackEdge.target ⟨u, label⟩ < _ from hu)
    (x := .rule rule) hq hs hlabel).imp fun r e₁ hadd => hadd.imp ?_
  rintro isNew e₂ ⟨hlink, he, hg, hw⟩
  have hv : e₂.Valid input := by
    refine ⟨?_, hw⟩
    rw [he]
    exact h.toForestValid.congr rfl rfl rfl rfl rfl rfl rfl rfl rfl
  refine ⟨⟨hg, hv, ?_, ?_, ?_, ?_, ?_, ?_⟩, hu, ⟨q, hlink⟩, ⟨r.1, ?_, hlink.mem_edges, ?_⟩, ?_⟩
  · exact fun p hp => by rw [he]; exact hp
  · exact fun w hw => by rw [he]; exact hw
  · exact fun x hx => by rw [he]; exact hx
  · exact fun x hx => by rw [he]; exact hx
  · exact fun w hw => .inl (by rw [he] at hw; exact hw)
  · exact fun x hx => .inl (by rw [he] at hx; exact hx)
  · rw [hlink.level_eq, hg.level_eq]
  · rw [hlink.growsAt.state_eq u hu, hlink.state_eq]
    exact hq
  · have hload : e₂.load input = e.load input := by rw [he]; rfl
    have hspent : e₂.spent input = e.zeros.size + (nodeBound input + 1) * e.walks.size +
        itemBound input * (e.stack.edgeTotal + isNew.toNat) := by
      rw [← hlink.edgeTotal_eq, he]
      rfl
    rw [hload, hspent, spent, Nat.mul_add]
    omega

/-- What the new stack node and its edge call for is queued. -/
theorem Puts.works {u : StackId} {rule : RuleId} {label : NodeId} {id : StackId}
    {created isNew : Bool} (h : Puts input u rule label e e' id created isNew)
    (hq : Queues input k e' e'') (hk : k ≤ itemBound input * isNew.toNat)
    (hn : created = true → e''.NodeQueued input id)
    (he : isNew = true → (e.stack.node u).level < e.level →
      e''.EdgeQueued input e''.pending id ⟨u, label⟩) :
    Works input 0 e e'' ∧ e''.HasGoto input e''.level u rule label := by
  obtain ⟨q, hl⟩ := h.links
  have hx := h.toExtends.trans hq.toExtends
  refine ⟨⟨hx, ⟨fun v hv => ?_, fun v edge hedge => ?_⟩, ?_⟩, ?_⟩
  · rw [hq.stack_eq] at hv
    refine (hl.node_cases v hv).imp_right ?_
    rintro ⟨hc, rfl⟩
    exact hn hc
  · rw [hq.stack_eq] at hedge
    refine (hl.edge_cases v edge hedge).imp_right ?_
    rintro ⟨hnew, rfl, rfl⟩ ht
    rw [hx.stack.level_eq u h.lt_size, hx.level_eq] at ht
    exact he hnew ht
  · have := h.spends
    have := hq.spends
    simp only [Spends] at *
    omega
  · rw [hq.level_eq]
    exact h.hasGoto.grows h.valid.indexed hq.stack

/-- A symbol is put on a stack node, and what that calls for is queued. Over an edge within the level
nothing is reduced. -/
theorem Valid.putEmpty (hr : input.Ready) (h : e.Valid input) {u : StackId} {rule : RuleId}
    {label : NodeId} {q : StateId} (hu : u < e.stack.nodes.size)
    (hl : (e.stack.node u).level = e.level)
    (hq : input.compiled.automaton.goto? (e.stack.node u).state rule = some q)
    (hs : e.nodes.Stands input.compiled.matcher input.tokens (.rule rule) (e.stack.node u).level
      e.level label) (hlabel : e.Usable input label) :
    Ends (Engine.internStack e.level q) (fun r e₁ => Ends (Engine.addEdge r.1 ⟨u, label⟩)
      (fun isNew e₂ => Ends (if isNew = true then if r.2 = true then Engine.queueNode input r.1 else
          pure () else pure ()) (fun _ e' => Works input 0 e e' ∧
        e'.HasGoto input e'.level u rule label) input.MayFail e₂) input.MayFail e₁)
      input.MayFail e := by
  refine (h.put hr hu hq hs hlabel).imp fun r e₁ hadd => hadd.imp fun isNew e₂ hput => ?_
  obtain ⟨q', hlinks⟩ := hput.links
  have hno : (e.stack.node u).level < e.level → e₂.EdgeQueued input e₂.pending r.1 ⟨u, label⟩ :=
    fun hlt => absurd hlt (Nat.not_lt.2 (Nat.le_of_eq hl.symm))
  split
  · split
    · refine (hput.valid.queueNode hr hlinks.lt_size (hlinks.level_eq.trans hput.level_eq.symm)).imp
        fun _ e₃ ⟨hq₃, hn⟩ => hput.works hq₃ (Nat.zero_le _) (fun _ => hn) fun _ hlt =>
          absurd hlt (Nat.not_lt.2 (Nat.le_of_eq hl.symm))
    · rename_i hc
      exact hput.works (.refl hput.valid) (Nat.zero_le _) (fun hc' => absurd hc' hc) fun _ => hno
  · rename_i hnew
    exact hput.works (.refl hput.valid) (Nat.zero_le _)
      (fun hc => absurd (hlinks.isNew_of_created hc) hnew) fun _ => hno

/-- So it is over an edge from an earlier level, and reductions may begin with the edge. -/
theorem Valid.putSymbol (hr : input.Ready) (h : e.Valid input) {u : StackId} {rule : RuleId}
    {label : NodeId} {q : StateId} (hu : u < e.stack.nodes.size)
    (hlt : (e.stack.node u).level < e.level)
    (hq : input.compiled.automaton.goto? (e.stack.node u).state rule = some q)
    (hs : e.nodes.Stands input.compiled.matcher input.tokens (.rule rule) (e.stack.node u).level
      e.level label) (hlabel : e.Usable input label) :
    Ends (Engine.internStack e.level q) (fun r e₁ => Ends (Engine.addEdge r.1 ⟨u, label⟩)
      (fun isNew e₂ => Ends (if isNew = true then do
          if r.2 = true then Engine.queueNode input r.1
          Engine.queueEdge input r.1 ⟨u, label⟩
        else pure ()) (fun _ e' => Works input 0 e e' ∧ e'.HasGoto input e'.level u rule label)
        input.MayFail e₂) input.MayFail e₁) input.MayFail e := by
  refine (h.put hr hu hq hs hlabel).imp fun r e₁ hadd => hadd.imp fun isNew e₂ hput => ?_
  obtain ⟨q', hlinks⟩ := hput.links
  have hedge : ∀ {e₃}, Queues input 0 e₂ e₃ → (r.2 = true → e₃.NodeQueued input r.1) →
      isNew = true → Ends (Engine.queueEdge input r.1 ⟨u, label⟩) (fun _ e' => Works input 0 e e' ∧
        e'.HasGoto input e'.level u rule label) input.MayFail e₃ := by
    intro e₃ hq₃ hn hnew
    have hlevel : e₃.level = e.level := hq₃.level_eq.trans hput.level_eq
    refine (hq₃.valid.queueEdge hr (by rw [hq₃.stack_eq]; exact hlinks.mem_edges)
      (by rw [hq₃.stack_eq, hlinks.level_eq, hlevel]) ?_).imp ?_
    · rw [hq₃.stack_eq, hput.stack.level_eq u hu, hlevel]
      exact hlt
    · rintro - e₄ ⟨hq₄, hqueued⟩
      exact hput.works (hq₃.trans hq₄) (by rw [hnew, Bool.toNat_true]; omega)
        (fun hc => (hn hc).grows hq₄.toGrowsAt hq₄.zeros hq₄.shifts
          (by rw [hq₃.stack_eq]; exact hlinks.lt_size)) fun _ _ => hqueued
  split
  · rename_i hnew
    split
    · simp only [ends_bind]
      refine (hput.valid.queueNode hr hlinks.lt_size (hlinks.level_eq.trans hput.level_eq.symm)).imp ?_
      rintro - e₃ ⟨hq₃, hn⟩
      exact hedge hq₃ (fun _ => hn) hnew
    · rename_i hc
      exact hedge (.refl hput.valid) (fun hc' => absurd hc' hc) hnew
  · rename_i hnew
    exact hput.works (.refl hput.valid) (Nat.zero_le _)
      (fun hc => absurd (hlinks.isNew_of_created hc) hnew) fun h' => absurd h' hnew

/-- A rule is reduced to nothing. -/
theorem Valid.reduceEmpty (hr : input.Ready) (h : e.Valid input) {u : StackId} {rule : RuleId}
    (hp : (Pending.zero u rule).Valid input e) :
    Ends (reduceEmpty input u rule) (fun _ e' => Works input 0 e e' ∧
      e'.Done input e'.pending (.zero u rule)) input.MayFail e := by
  obtain ⟨⟨alt, hi⟩, hl, hs⟩ := hp
  rw [Engine.reduceEmpty]
  cases hid : input.compiled.epsilon.symbol? rule with
  | none =>
    have hsome := hr.epsilon.symbol?_isSome rule
    rw [hid, (hr.wellFormed.isNullable_iff rule).2 hs.2] at hsome
    cases hsome
  | some label =>
    simp only [ends_bind, ends_get]
    refine (h.gotoState hr hi hs.1).imp ?_
    rintro q e₁ ⟨rfl, hq⟩
    refine (h.putEmpty hr hi.1 hl hq (by rw [hl]; exact h.formed.stands_symbol hr hid _)
      (h.usable_symbol? hr hid)).imp fun r e₂ hadd => hadd.imp fun isNew e₃ hput => ?_
    exact hput.imp fun _ e' h' => ⟨h'.1, label, hid, h'.2⟩

/-- The node of a completed rule is found or made, and what has been collected is a derivation of it. -/
theorem Valid.symbolNode (hr : input.Ready) (h : e.Valid input) {u : StackId} {rule : RuleId} {alt : Nat}
    {children : Children} (hp : (Pending.complete u rule alt children).Valid input e) :
    Ends (symbolNode rule (e.stack.node u).level) (fun symbol e' => Builds input ⟨e.level, 0⟩ e e' ∧
      Deferred.Valid input e'.nodes
        ⟨symbol, rule, alt, ⟨(e.stack.node u).level, e'.level⟩, children⟩) E e := by
  obtain ⟨hi, hlt, hh, -, -⟩ := hp
  have hall := hr.automaton.isLR0.mem_allItems _ (h.state_lt u hi.1) _ hi.2
  have halt := (Item.mem_allItems_iff.1 hall).1
  refine (h.toForestValid.symbolNode hr.epsilon hlt (Stage.not_passed _ _) (h.formed.backed.spells_rule halt
    (Arena.Holds.covers hr.epsilon h.formed.base hh))).imp ?_
  rintro symbol e₁ ⟨hb, hk, hspan⟩
  rw [hb.level]
  exact ⟨hb, hk, hspan, halt, hh.grows hb.nodes.toGrows⟩

/-- A derivation is offered to its symbol, and the symbol is put on the stack. -/
theorem Valid.complete (hr : input.Ready) (h : e.Valid input) {u : StackId} {rule : RuleId}
    {alt : Nat} {children : Children} (hp : (Pending.complete u rule alt children).Valid input e) :
    Ends (complete input u rule alt children) (fun _ e' => Works input 0 e e' ∧
      e'.Done input e'.pending (.complete u rule alt children)) input.MayFail e := by
  have howner := h.symbolNode (E := input.MayFail) hr hp
  obtain ⟨hi, hlt, -, hu, hs⟩ := hp
  simp only [Engine.complete, levelOf, ends_bind, ends_get, ends_pure]
  refine howner.imp ?_
  rintro symbol e₁ ⟨hb₁, hd⟩
  have hk := hd.kind_eq
  have hspan := hd.span_eq
  rw [hb₁.level] at hspan
  have hv₁ : ForestValid input ⟨e₁.level, 0⟩ e₁.deferred e₁ := by
    rw [hb₁.level]
    exact hb₁.valid
  refine (hv₁.addAlternative hr.wellFormed hr.epsilon hd rfl
    fun c hc => (hu c hc).later hr.epsilon h.formed hb₁.toLater).imp ?_
  rintro _ e₂ ⟨hb₂, hmarked⟩
  rw [hb₁.level] at hb₂
  have hq₂ : Queues input 0 e e₂ := (hb₁.trans hb₂).queues hr h
  have hsymbol : symbol < e₁.nodes.size := Arena.lt_size_of_kind (by rw [hk]; simp)
  have hk₂ := (hb₂.nodes.kind_eq symbol hsymbol).trans hk
  have hspan₂ := (hb₂.nodes.span_eq symbol hsymbol).trans hspan
  have hdone : ∀ {e'}, Works input 0 e₂ e' → (e'.HasGoto input e'.level u rule symbol ∨
      (¬ input.Lenient ∧ ⟨symbol, alt, children⟩ ∈ e'.rejected ∧
        input.TurnedDown e'.nodes ⟨e'.level, 0⟩ ⟨symbol, alt, children⟩)) → Works input 0 e e' ∧
        e'.Done input e'.pending (.complete u rule alt children) := by
    intro e' hw hkey
    have hw' := hq₂.works.trans hw
    have hsymbol' := Nat.lt_of_lt_of_le hsymbol hb₂.nodes.size_le
    refine ⟨hw', symbol, (hw.nodes.kind_eq symbol hsymbol').trans hk₂, ?_,
      hw.toLater.marked hmarked, hkey⟩
    rw [hw'.stack.level_eq u hi.1, hw'.level_eq]
    exact (hw.nodes.span_eq symbol hsymbol').trans hspan₂
  split
  · rename_i hempty
    obtain ⟨hnil, hwait⟩ := Bool.and_eq_true_iff.1 hempty
    have hnil' : Arena.childrenOf e₂.nodes symbol = [] := by
      rw [Arena.childrenOf, Array.isEmpty_iff.1 hnil]
    have hrej := hmarked.resolve_left fun hp => by
      rcases hb₂.valid.offered (d := ⟨symbol, rule, alt, _, children⟩) hp with hne | hw
      · exact hne hnil'
      · simp [Std.HashSet.contains_iff_mem.2 hw] at hwait
    refine hdone (Queues.refl hq₂.valid).works (.inr ⟨fun hlenient => ?_, hrej, ?_⟩)
    · obtain ⟨d, hd, -, hknown⟩ := hb₂.valid.dropped _ hrej
      obtain ⟨rfl, -, -⟩ := PackedKey.mk.inj hd
      exact hknown hlenient.policy rfl hnil'
    · rw [hq₂.level_eq]
      exact hb₂.valid.dropped _ hrej
  · rename_i hempty
    have hoffer : Arena.childrenOf e₂.nodes symbol ≠ [] ∨ symbol ∈ e₂.waiting := by
      rw [Classical.or_iff_not_imp_left]
      intro hnil
      rw [not_not] at hnil
      by_contra hwait
      refine hempty (Bool.and_eq_true_iff.2 ⟨?_, ?_⟩)
      · exact Array.isEmpty_iff.2 (Array.toList_eq_nil_iff.1 hnil)
      · rw [Bool.not_eq_true', Bool.eq_false_iff]
        exact fun hc => hwait (Std.HashSet.contains_iff_mem.1 hc)
    have hi₂ := hi.grows hq₂.stack
    have hl₂ := hq₂.stack.level_eq u hi.1
    simp only [ends_bind]
    refine (hq₂.valid.gotoState hr hi₂ hs).imp ?_
    rintro q e₃ ⟨rfl, hq⟩
    refine (hq₂.valid.putSymbol hr hi₂.1 (by rw [hl₂, hq₂.level_eq]; exact hlt) hq
      ⟨hk₂, .inl (by rw [hl₂, hq₂.level_eq]; exact hspan₂)⟩
      (hb₂.valid.usable_symbol hr.epsilon (by rw [Node.isChoice, hk₂]) hspan₂ hoffer)).imp
      fun r e₄ hadd => hadd.imp fun isNew e₅ hput => hput.imp ?_
    rintro - e₆ ⟨hw, hgoto⟩
    exact hdone hw (.inl hgoto)

/-- A walk is taken over one edge. -/
theorem Valid.walkEdge (hr : input.Ready) (h : e.Valid input) {w : Walk} {edge : StackEdge}
    (hw : (Pending.walk w).Valid input e) (he : edge ∈ (e.stack.node w.node).edges) :
    Ends (walkEdge w edge) (fun _ e' => Queues input 1 e e' ∧
      e'.Continued input e'.pending edge w.rule w.alt (w.remaining - 1) (some w.tail)) E e := by
  obtain ⟨node, rule, alt, n, tail⟩ := w
  obtain ⟨hpos, hi, hlt, htail, hu', hs⟩ := hw
  obtain ⟨n, rfl⟩ := Nat.exists_eq_succ_of_ne_zero (Nat.ne_of_gt hpos)
  obtain ⟨hu, hi', x, hx, hstands⟩ := h.step_back hr he hi
  have hlt' := Nat.lt_of_le_of_lt (h.level_target_le h.formed he) hlt
  simp only [Engine.walkEdge]
  split
  · rename_i h0
    obtain rfl : n = 0 := by simpa using h0
    refine (h.pushComplete hr ⟨hi', hlt', .cons hx hstands htail, fun c hc => ?_, hs⟩).imp
      fun _ e' hq => ⟨hq.1, .inl hq.2⟩
    rcases List.mem_cons.1 hc with rfl | hc
    · exact hu
    · obtain rfl := List.mem_singleton.1 hc
      exact hu'
  · rename_i h0
    obtain ⟨n, rfl⟩ := Nat.exists_eq_succ_of_ne_zero fun hn : n = 0 => h0 (by rw [hn])
    simp only [ends_bind, levelOf, ends_get, ends_pure, Nat.succ_eq_add_one, Nat.add_sub_cancel]
    refine (h.intermediate hr.epsilon hlt' (Stage.not_passed _ _) (.cons hx hstands htail) hu hu').imp ?_
    rintro id e₂ ⟨hb, htail₂, hu₂, hk, ha⟩
    have hq₂ := hb.queues hr h
    have hv : (Pending.walk ⟨edge.target, rule, alt, n + 1, id⟩).Valid input e₂ := by
      have hi₂ := hi'.grows hq₂.stack
      rw [hb.stack] at hi₂
      rw [Pending.Valid, hb.stack, hb.level]
      exact ⟨Nat.succ_pos n, hi₂, hlt', htail₂, hu₂, hs⟩
    exact (hq₂.valid.pushWalk hr hv).imp fun _ e' hq => ⟨(hq₂.trans hq.1).mono (Nat.zero_le 1), id,
      Arena.Joins.grows (.inr ⟨tail, _, rfl, hk, ha⟩) hq.1.nodes.toGrows, hq.2⟩

/-- There are no more stack nodes than the bound says. -/
theorem Valid.size_le_nodeBound (h : e.Valid input) : e.stack.nodes.size ≤ nodeBound input := by
  have := h.indexed.size_le h.state_lt
  rwa [h.levels_size] at this

/-- A piece of work that has been taken up is done. -/
theorem Valid.work (hr : input.Ready) (h : e.Valid input) {p : Pending} (hp : p.Valid input e) :
    Ends (work input p) (fun _ e' => ∃ k, Works input k e e' ∧ k < p.weight (nodeBound input) ∧
      e'.Done input e'.pending p) input.MayFail e := by
  have hcount : Queues input 0 e { e with reductionCount := e.reductionCount + 1 } :=
    Builds.queues hr h ⟨⟨rfl, rfl, rfl, rfl, rfl, rfl, rfl⟩, ⟨.refl _ _, fun _ => .inl, fun _ => id⟩,
      h.toForestValid.congr rfl rfl rfl rfl rfl rfl rfl rfl rfl⟩
  have hp' := hp.grows hr h.formed hcount.toGrowsAt
  cases p with
  | zero u rule =>
    simp only [Engine.work, countReduction, ends_bind, ends_modify]
    exact (hcount.valid.reduceEmpty hr hp').imp fun _ _ hw =>
      ⟨0, hcount.works.trans hw.1, Nat.zero_lt_one, hw.2⟩
  | complete u rule alt children =>
    simp only [Engine.work, countReduction, ends_bind, ends_modify]
    exact (hcount.valid.complete hr hp').imp fun _ _ hw =>
      ⟨0, hcount.works.trans hw.1, Nat.zero_lt_one, hw.2⟩
  | walk w =>
    simp only [Engine.work, ends_bind, ends_get]
    let edges := (e.stack.node w.node).edges
    refine (Ends.forM (I := fun rest e' => Queues input (edges.size - rest.length) e e' ∧
      ∀ edge ∈ edges, edge ∈ rest ∨ e'.Continued input e'.pending edge w.rule w.alt (w.remaining - 1)
        (some w.tail)) edges.toList ⟨by simpa using Queues.refl h, fun edge he => .inl (by simpa)⟩
      fun edge rest e₁ hsuf h₁ => ?_).imp fun _ e' h' => ?_
    · obtain ⟨hq, hdone⟩ := h₁
      have hlen := hsuf.length_le
      have he := Array.mem_toList_iff.1 (hsuf.subset (.head _))
      refine (hq.valid.walkEdge hr (hp.grows hr h.formed hq.toGrowsAt)
        (by rw [hq.stack_eq]; exact he)).imp fun _ e₂ h₂ => ?_
      obtain ⟨hq₂, hc⟩ := h₂
      refine ⟨(hq.trans hq₂).mono ?_, ?_⟩
      · simp only [List.length_cons, Array.length_toList] at hlen ⊢
        omega
      · intro edge' he'
        rcases hdone edge' he' with hmem | hc'
        · rcases List.mem_cons.1 hmem with rfl | hmem
          · exact .inr hc
          · exact .inl hmem
        · refine .inr (hc'.grows hq.valid hq₂.toGrowsAt
            (fun p hp => .inl (hq₂.pending p hp)) hq₂.walks ?_)
          rw [hq.stack_eq]
          exact h.indexed.target_lt _ edge' he'
    · obtain ⟨hq, hdone⟩ := h'
      refine ⟨edges.size, by simpa using hq.works, Nat.lt_succ_of_le ?_, fun edge he => ?_⟩
      · exact Nat.le_trans (h.indexed.size_edges_le fun a ha b hb => h.edge_unique hr h.formed ha hb)
          h.size_le_nodeBound
      · rw [hq.stack_eq] at he
        exact (hdone edge he).resolve_left (by simp)

end Engine

end ParseForest
