import ParseForest.Proofs.Parser.Steps
import Mathlib.Tactic.Ring

/-!
# The work of a level

The limit on the work of a level is never what ends it: every piece of work is paid for, either by
what is used up of the limit (`Valid.spent_le`) or by the edges with which the level begins. So all
work is done when `reduceWith` ends (`Valid.reduceWith`), and then every reduction has been made along
every path of the stack (`Closed.walked`, `Closed.reduced`).
-/

namespace ParseForest

variable {σ : Type}

/-! ## The limit -/

theorem HashSet.size_le_of_subset {α : Type} [BEq α] [LawfulBEq α] [Hashable α]
    {s : Std.HashSet α} {β : Type} {f : α → β} (hf : ∀ a ∈ s, ∀ b ∈ s, f a = f b → a = b)
    {l : List β} (hs : ∀ a ∈ s, f a ∈ l) : s.size ≤ l.length := by
  have hnodup : s.toList.Nodup := Std.HashSet.distinct_toList.imp fun h => by simpa using h
  have hmap : (s.toList.map f).Nodup := (List.nodup_map_iff_inj_on hnodup).2 fun a ha b hb =>
    hf a (Std.HashSet.mem_toList.1 ha) b (Std.HashSet.mem_toList.1 hb)
  have hsub : s.toList.map f ⊆ l := by
    intro b hb
    obtain ⟨a, ha, rfl⟩ := List.mem_map.1 hb
    exact hs a (Std.HashSet.mem_toList.1 ha)
  simpa using (List.subperm_of_subset hmap hsub).length_le

/-- A rule that has an alternative is in the table. -/
theorem Grammar.lt_size_of_alternative {g : Grammar} {rule : RuleId} {alt : Nat}
    (h : alt < (g.rule rule).alternatives.size) : rule < g.rules.size := by
  by_contra hge
  rw [Grammar.rule, Array.getD_of_size_le (Nat.not_lt.1 hge)] at h
  exact Nat.not_lt_zero _ h

namespace Engine

variable {input : ParseInput σ} {e e' : Engine σ} {l m : Nat}

/-- The part of the limit that pays for empty reductions, walks and new edges. -/
def allowance (input : ParseInput σ) : Nat :=
  nodeBound input * input.grammar.rules.size +
    (nodeBound input + 1) * (nodeBound input * itemBound input) +
    itemBound input * (nodeBound input * nodeBound input)

theorem workLimit_eq (input : ParseInput σ) : workLimit input =
    allowance input + itemBound input * (nodeBound input * nodeBound input) := by
  simp only [workLimit, allowance]
  ring

/-- No more can be used up than there is: an empty reduction belongs to a stack node and a rule, a
walk to a stack node and an item, and an edge to two stack nodes. -/
theorem Valid.spent_le (hr : input.Ready) (h : e.Valid input) :
    e.spent input ≤ allowance input := by
  have hsize := h.size_le_nodeBound
  have hnode : ∀ {u}, u < e.stack.nodes.size → u ∈ List.range (nodeBound input) := fun hu =>
    List.mem_range.2 (Nat.lt_of_lt_of_le hu hsize)
  have hzeros : e.zeros.size ≤ nodeBound input * input.grammar.rules.size := by
    have := HashSet.size_le_of_subset (s := e.zeros) (f := id) (fun _ _ _ _ => id)
      (l := List.range (nodeBound input) ×ˢ List.range input.grammar.rules.size) fun x hx => ?_
    · simpa [List.length_product] using this
    · obtain ⟨⟨alt, hi⟩, -⟩ := h.toWorkValid.zeros x hx
      have hall := hr.automaton.isLR0.mem_allItems _ (h.state_lt _ hi.1) _ hi.2
      exact List.pair_mem_product.2 ⟨hnode hi.1, List.mem_range.2
        (Grammar.lt_size_of_alternative (Item.mem_allItems_iff.1 hall).1)⟩
  have hwalks : e.walks.size ≤ nodeBound input * itemBound input := by
    have := HashSet.size_le_of_subset (s := e.walks)
      (f := fun w => (w.node, Item.mk w.rule w.alt w.remaining)) (fun w hw w' hw' heq => ?_)
      (l := List.range (nodeBound input) ×ˢ allItems input.grammar) fun w hw => ?_
    · simpa [List.length_product, itemBound] using this
    · -- the tail of a walk is the only one for its stack node and item
      obtain ⟨-, -, -, ht, -⟩ := h.toWorkValid.walks w hw
      obtain ⟨-, -, -, ht', -⟩ := h.toWorkValid.walks w' hw'
      obtain ⟨node, rule, alt, remaining, tail⟩ := w
      obtain ⟨node', rule', alt', remaining', tail'⟩ := w'
      obtain ⟨rfl, hi⟩ := Prod.mk.inj heq
      obtain ⟨rfl, rfl, rfl⟩ := Item.mk.inj hi
      obtain rfl : tail = tail' := h.formed.isTail_unique hr ht ht'
      rfl
    · obtain ⟨-, hi, -⟩ := h.toWorkValid.walks w hw
      exact List.pair_mem_product.2 ⟨hnode hi.1,
        hr.automaton.isLR0.mem_allItems _ (h.state_lt _ hi.1) _ hi.2⟩
  have hedges : e.stack.edgeTotal ≤ nodeBound input * nodeBound input :=
    Nat.le_trans (h.indexed.edgeTotal_le fun u a ha b hb => h.edge_unique hr h.formed ha hb)
      (Nat.mul_le_mul hsize hsize)
  exact Nat.add_le_add (Nat.add_le_add hzeros (Nat.mul_le_mul_left _ hwalks))
    (Nat.mul_le_mul_left _ hedges)

/-- A piece of pending work is taken up. It leaves less to be paid for. -/
theorem Valid.takeUp (hr : input.Ready) (h : e.Valid input) {p : Pending} {ps : List Pending}
    (hp : e.pending = p :: ps) :
    Ends (Engine.work input p) (fun _ e' => e'.Valid input ∧ e.GrowsAt e.level e' ∧
      e'.load input + e.spent input < e.load input + e'.spent input ∧
      (e.Closed input e.pending → e'.Closed input e'.pending)) input.MayFail
      { e with pending := ps } := by
  have hmem : ∀ q ∈ p :: ps, q.Valid input e := hp ▸ h.toWorkValid.pending
  obtain ⟨hg, hv⟩ := h.queue hr (fun q hq => hmem q (.tail _ hq)) h.walks h.zeros h.shifts
  refine (hv.work hr ((hmem p (.head _)).grows hr h.formed hg)).imp ?_
  rintro _ e₁ ⟨k, hw, hk, hpdone⟩
  refine ⟨hw.valid, hg.trans hw.toGrowsAt, ?_, fun hc => ?_⟩
  · have hload : e.load input = p.weight (nodeBound input) + load input { e with pending := ps } := by
      simp only [load, hp, List.map_cons, List.sum_cons]
    have hspends := hw.spends
    simp only [Spends, show spent input { e with pending := ps } = e.spent input from rfl] at hspends
    omega
  · have hc' : Closed input { e with pending := ps } (p :: ps) :=
      ⟨fun x hx => hp ▸ hc.zeros x hx, fun w hw => hp ▸ hc.walks w hw, hc.nodes,
        fun u hl edge he ht => hp ▸ hc.edges u hl edge he ht⟩
    exact Closed.step hv hc' hw.toExtends hw.toServes hpdone

/-- Something pending would have been paid for. -/
theorem Valid.pending_eq_nil (hr : input.Ready) (h : e.Valid input)
    (hfuel : e.load input + allowance input ≤ e.spent input) : e.pending = [] := by
  have := h.spent_le hr
  cases hp : e.pending with
  | nil => rfl
  | cons p ps =>
    have hpos : 0 < p.weight (nodeBound input) := by cases p <;> exact Nat.succ_pos _
    simp only [load, hp, List.map_cons, List.sum_cons] at hfuel
    omega

/-- All work is done, if there is fuel for what is pending and for what is not used up. -/
theorem Valid.reduceWith (hr : input.Ready) (fuel : Nat) (h : e.Valid input)
    (hfuel : e.load input + allowance input ≤ fuel + e.spent input) :
    Ends (reduceWith input fuel) (fun _ e' => e'.Valid input ∧ e'.pending = [] ∧
      e.GrowsAt e.level e' ∧ (e.Closed input e.pending → e'.Closed input [])) input.MayFail e := by
  induction fuel generalizing e with
  | zero =>
    have hnil := h.pending_eq_nil hr (by omega)
    exact ⟨h, hnil, .refl _ e, fun hc => hnil ▸ hc⟩
  | succ fuel ih =>
    simp only [Engine.reduceWith, ends_bind, ends_get]
    cases hp : e.pending with
    | nil => exact ⟨h, hp, .refl _ e, id⟩
    | cons p ps =>
      simp only [ends_bind, ends_modify]
      refine (h.takeUp hr hp).imp ?_
      rintro _ e₁ ⟨hv₁, hg₁, hless, hc₁⟩
      refine (ih hv₁ (by omega)).imp ?_
      rintro _ e₂ ⟨hv₂, hp₂, hg₂, hc₂⟩
      exact ⟨hv₂, hp₂, hg₁.trans (hg₁.level_eq ▸ hg₂), fun hc => hc₂ (hc₁ (hp ▸ hc))⟩

end Engine

/-! ## Along paths -/

/-- Children that stand for the labels of a path, and for the rest of the alternative after them. -/
inductive Arena.Folds (nodes : Arena) (rule : RuleId) (alt : Nat) :
    List NodeId → Option NodeId → Children → Prop
  | single (label : NodeId) (rest : Option NodeId) : Folds nodes rule alt [label] rest ⟨label, rest⟩
  | snoc {labels : List NodeId} {label tail : NodeId} {rest : Option NodeId} {children : Children}
      (hj : nodes.Joins rule alt label rest tail) (h : Folds nodes rule alt labels (some tail) children) :
      Folds nodes rule alt (labels ++ [label]) rest children

theorem Arena.Folds.grows {nodes nodes' : Arena} {rule : RuleId} {alt : Nat} {labels : List NodeId}
    {rest : Option NodeId} {children : Children} (h : nodes.Folds rule alt labels rest children)
    (hg : nodes.Grows nodes') : nodes'.Folds rule alt labels rest children := by
  induction h with
  | single label rest => exact .single label rest
  | snoc hj _ ih => exact .snoc (hj.grows hg) ih

/-- What the labels and the rest stand for, the children stand for. -/
theorem Arena.Folds.readsAll {nodes : Arena} {g : Grammar} {tokens : TokenStream} {rule : RuleId}
    {alt : Nat} {labels : List NodeId} {rest : Option NodeId} {children : Children}
    (h : nodes.Folds rule alt labels rest children) {ts us : List Tree}
    (ht : List.Forall₂ (nodes.Reads g tokens) labels ts)
    (hu : nodes.ReadsAll g tokens rest.toList us) :
    nodes.ReadsAll g tokens children.toList (ts ++ us) := by
  induction h generalizing ts us with
  | single label rest =>
    obtain ⟨t, ts', hread, hnil, rfl⟩ := List.forall₂_cons_left_iff.1 ht
    obtain rfl := List.forall₂_nil_left_iff.1 hnil
    exact .tree hread hu
  | @snoc labels label tail rest children hj _ ih =>
    obtain ⟨ts, ts', rfl, hts, hlast⟩ : ∃ ts₁ ts₂, ts = ts₁ ++ ts₂ ∧
        List.Forall₂ (nodes.Reads g tokens) labels ts₁ ∧
        List.Forall₂ (nodes.Reads g tokens) [label] ts₂ := by
      refine ⟨ts.take labels.length, ts.drop labels.length, (List.take_append_drop _ _).symm, ?_, ?_⟩
      · simpa using List.forall₂_take labels.length ht
      · simpa using List.forall₂_drop labels.length ht
    obtain ⟨t, ts', hread, hnil, rfl⟩ := List.forall₂_cons_left_iff.1 hlast
    obtain rfl := List.forall₂_nil_left_iff.1 hnil
    rw [List.append_assoc]
    refine ih hts ?_
    rcases hj with ⟨rfl, rfl⟩ | ⟨part, dot, rfl, hk, -, p, hp, hnode⟩
    · cases hu
      exact .tree hread .nil
    · have hall : nodes.ReadsAll g tokens (childrenOf nodes p) ([t] ++ us) := by
        rw [childrenOf, hnode]
        exact .tree hread hu
      have := ReadsAll.intermediate hk hp hall .nil
      rwa [List.append_nil] at this

namespace Engine

variable {input : ParseInput σ} {e e' : Engine σ} {l m : Nat}

/-- A walk is completed along every path of its length. -/
theorem Closed.walked (h : e.Closed input []) {t v : StackId} {labels : List NodeId}
    (hpath : e.stack.Path t labels v) {rule : RuleId} {alt : Nat} {tail : NodeId}
    (hne : labels ≠ []) (hw : ⟨v, rule, alt, labels.length, tail⟩ ∈ e.walks) :
    ∃ children, e.nodes.Folds rule alt labels (some tail) children ∧
      e.Completed input e.level t rule alt children := by
  induction hpath generalizing tail with
  | nil => exact absurd rfl hne
  | @snoc labels label u v hpath he ih =>
    have hdone := (h.walks _ hw).resolve_left (by simp) _ he
    simp only [List.length_append, List.length_singleton, Nat.add_sub_cancel] at hdone
    cases labels with
    | nil =>
      obtain rfl := hpath.eq_of_nil
      exact ⟨_, .single label _, hdone.resolve_left (by simp)⟩
    | cons first labels =>
      obtain ⟨tail', hj, hmem⟩ := hdone
      obtain ⟨children, hf, hc⟩ := ih (by simp) hmem
      exact ⟨children, .snoc hj hf, hc⟩

/-- A reduction that begins with an edge is completed along every path. -/
theorem EdgeQueued.reduced (h : e.Closed input []) {u t : StackId} {edge : StackEdge}
    {labels : List NodeId} (hq : e.EdgeQueued input [] u edge) (hpath : e.stack.Path t labels edge.target)
    {rule : RuleId} {alt : Nat}
    (ha : .reduce rule alt (labels.length + 1) ∈ e.actions input (e.stack.node u).state) :
    ∃ rest children, input.IsLeftOut rule alt (labels.length + 1) rest ∧
      e.nodes.Folds rule alt (labels ++ [edge.label]) rest children ∧
      e.Completed input e.level t rule alt children := by
  obtain ⟨rest, hrest, hc⟩ := hq rule alt labels.length ha
  cases labels with
  | nil =>
    obtain rfl := hpath.eq_of_nil
    exact ⟨rest, _, hrest, .single _ _, hc.resolve_left (by simp)⟩
  | cons first labels =>
    obtain ⟨tail, hj, hmem⟩ := hc
    obtain ⟨children, hf, hc⟩ := h.walked hpath (by simp) hmem
    exact ⟨rest, children, hrest, .snoc hj hf, hc⟩

/-- The reductions of a level are done: the empty ones of its stack nodes, and along every path those
that begin with an edge from an earlier level. -/
structure LevelReduced (input : ParseInput σ) (l : Nat) (e : Engine σ) : Prop where
  zeros : ∀ u < e.stack.nodes.size, (e.stack.node u).level = l → ∀ la ∈ lookaheadsAt input l,
    ∀ rule alt, .reduce rule alt 0 ∈ (input.compiled.automaton.state (e.stack.node u).state).actions la →
    ∃ label, input.compiled.epsilon.symbol? rule = some label ∧ e.HasGoto input l u rule label
  paths : ∀ u t edge labels, (e.stack.node u).level = l → edge ∈ (e.stack.node u).edges →
    (e.stack.node edge.target).level < l → e.stack.Path t labels edge.target →
    ∀ la ∈ lookaheadsAt input l, ∀ rule alt, .reduce rule alt (labels.length + 1) ∈
      (input.compiled.automaton.state (e.stack.node u).state).actions la →
    ∃ rest children, input.IsLeftOut rule alt (labels.length + 1) rest ∧
      e.nodes.Folds rule alt (labels ++ [edge.label]) rest children ∧
      e.Completed input l t rule alt children

/-- When nothing is pending, the level is reduced. -/
theorem Closed.levelReduced (hv : e.Valid input) (h : e.Closed input []) :
    LevelReduced input e.level e := by
  have hmem : ∀ {la a u}, la ∈ lookaheadsAt input e.level →
      a ∈ (input.compiled.automaton.state (e.stack.node u).state).actions la →
      a ∈ e.actions input (e.stack.node u).state := fun hla ha =>
    mem_actions_iff.2 ⟨_, hv.lookaheads ▸ hla, ha⟩
  refine ⟨fun u hu hl la hla rule alt ha => ?_, fun u t edge labels hl he ht hpath la hla rule alt ha =>
    (h.edges u hl edge he ht).reduced h hpath (hmem hla ha)⟩
  exact (h.zeros _ (h.nodes u hu hl _ (hmem hla ha))).resolve_left (by simp)

/-- Levels that have been left behind stay reduced. -/
theorem LevelReduced.grows (h : LevelReduced input l e) (hf : input.Formed e.nodes)
    (hs : e.StackValid input) (hg : e.GrowsAt m e') (hlm : l ≤ m) (hnew : ∀ u < e'.stack.nodes.size,
      (e'.stack.node u).level ≤ l → u < e.stack.nodes.size)
    (hframe : ∀ u < e.stack.nodes.size, (e.stack.node u).level ≤ l →
      e'.stack.node u = e.stack.node u) : LevelReduced input l e' := by
  have hi := hs.indexed
  refine ⟨fun u hu hl la hla rule alt ha => ?_, fun u t edge labels hl he ht hpath la hla rule alt ha => ?_⟩
  · have hu' := hnew u hu (Nat.le_of_eq hl)
    rw [hg.stack.level_eq u hu'] at hl
    rw [hg.stack.state_eq u hu'] at ha
    obtain ⟨label, hlabel, hgoto⟩ := h.zeros u hu' hl la hla rule alt ha
    exact ⟨label, hlabel, hgoto.grows hi hg.stack⟩
  · have hu' := hnew u (GraphStack.lt_size_of_mem_edges he) (Nat.le_of_eq hl)
    have hl' := (hg.stack.level_eq u hu').symm.trans hl
    rw [hframe u hu' (Nat.le_of_eq hl')] at he ha
    have htarget := hi.target_lt u edge he
    have ht' := hg.stack.level_eq _ htarget ▸ ht
    have hpath' := hpath.of_frame hi (fun _ _ he => hs.level_target_le hf he) hframe htarget
      (Nat.le_of_lt ht')
    obtain ⟨rest, children, hrest, hfold, hc⟩ :=
      h.paths u t edge labels hl' he ht' hpath' la hla rule alt ha
    exact ⟨rest, children, hrest, hfold.grows hg.nodes.toGrows,
      hc.grows hi hf hg hlm (hpath'.lt_size hi htarget)⟩

end Engine

end ParseForest
