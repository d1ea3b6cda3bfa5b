import ParseForest.Proofs.Forest.Linking
import ParseForest.Proofs.Forest.Resolving

/-!
# Precedence settles in one sweep

Whether an alternative is kept depends on what is left of its operands, and that is what the same sweep
takes away. What the alternatives of a node become is therefore stated of the arena that the sweep ends
with (`Pass.Settles`): they are those that are kept there. A sweep from narrow to wide gets there because
nothing that it does afterwards touches an operand of a node it has been at (`Pass.settles_resolveAll`),
and there is one such arena only, since the operands of a node are narrower (`Pass.Settles.unique`).
-/

namespace ParseForest

namespace Arena

variable {g : Grammar} {nodes nodes' nodes'' : Arena}

/-! ## Arenas with the same right-hand sides -/

/-- The arenas differ in the children of symbol nodes at most. -/
structure SameInner (nodes nodes' : Arena) : Prop where
  size_eq : nodes'.size = nodes.size
  node_eq : ∀ id, node nodes' id = { node nodes id with children := (node nodes' id).children }
  children_eq : ∀ id, (node nodes id).isSymbol = false → childrenOf nodes' id = childrenOf nodes id

namespace SameInner

theorem refl (nodes : Arena) : SameInner nodes nodes := ⟨rfl, fun _ => rfl, fun _ _ => rfl⟩

theorem kind_eq (h : SameInner nodes nodes') (id : NodeId) :
    (node nodes' id).kind = (node nodes id).kind := by rw [h.node_eq id]

theorem isSymbol_eq (h : SameInner nodes nodes') (id : NodeId) :
    (node nodes' id).isSymbol = (node nodes id).isSymbol := by
  rw [Node.isSymbol, Node.isSymbol, h.kind_eq]

theorem width_eq (h : SameInner nodes nodes') (id : NodeId) :
    (node nodes' id).width = (node nodes id).width := by rw [h.node_eq id]; rfl

theorem trans (h : SameInner nodes nodes') (h' : SameInner nodes' nodes'') : SameInner nodes nodes'' where
  size_eq := h'.size_eq.trans h.size_eq
  node_eq id := by
    have he := h'.node_eq id
    rw [h.node_eq id] at he
    exact he
  children_eq id hs := (h'.children_eq id (by rwa [h.isSymbol_eq])).trans (h.children_eq id hs)

theorem symm (h : SameInner nodes nodes') : SameInner nodes' nodes where
  size_eq := h.size_eq.symm
  node_eq id := by rw [h.node_eq id]
  children_eq id hs := (h.children_eq id (by rwa [← h.isSymbol_eq])).symm

/-- Arenas with the same children throughout are the same. -/
theorem eq_of_childrenOf (h : SameInner nodes nodes')
    (hc : ∀ id, childrenOf nodes' id = childrenOf nodes id) : nodes' = nodes := by
  refine Array.ext h.size_eq fun i hi hi' => ?_
  have hnode : node nodes' i = node nodes i := by
    rw [h.node_eq i, Array.toList_inj.1 (hc i)]
  simpa [node, Array.getD, hi, hi'] using hnode

end SameInner

theorem sameInner_setChildren {id : NodeId} (hs : (node nodes id).isSymbol = true) (children : Array NodeId) :
    SameInner nodes (setChildren nodes id children) := by
  refine ⟨by simp, fun id' => ?_, fun id' hs' => childrenOf_setChildren_ne ?_⟩
  · by_cases he : id = id'
    · subst he
      have hlt : id < nodes.size := by
        obtain ⟨A, hk⟩ := Node.isSymbol_iff.1 hs
        exact lt_size_of_kind (by rw [hk]; simp)
      rw [node_setChildren_self hlt]
    · rw [node_setChildren_ne he]
  · rintro rfl
    rw [hs] at hs'
    cases hs'

theorem setChildren_self (nodes : Arena) (id : NodeId) :
    setChildren nodes id (node nodes id).children = nodes := by
  refine Array.ext (by simp) fun i hi hi' => ?_
  simp only [setChildren, Array.getElem_modify]
  split
  · rename_i he
    subst he
    simp [node, Array.getD, hi']
  · rfl

/-- The alternatives of intermediate nodes are packed nodes. -/
def InnerPacked (nodes : Arena) : Prop := ∀ id A alt dot,
  (node nodes id).kind = .intermediate A alt dot → ∀ p ∈ childrenOf nodes id, (node nodes p).isPacked = true

theorem InnerPacked.sameInner (hi : nodes.InnerPacked) (h : SameInner nodes nodes') :
    nodes'.InnerPacked := by
  intro id A alt dot hk p hp
  rw [h.kind_eq] at hk
  rw [h.children_eq id (by rw [Node.isSymbol, hk])] at hp
  rw [Node.isPacked, h.kind_eq]
  exact hi id A alt dot hk p hp

theorem not_isSymbol_of_isPacked {n : Node} (h : n.isPacked = true) : n.isSymbol = false := by
  obtain ⟨A, alt, hk⟩ := Node.isPacked_iff.1 h
  rw [Node.isSymbol, hk]

theorem continueUpTo_congr {expand expand' : NodeId → List Sequence} {ps : List NodeId}
    (h : ∀ p ∈ ps, expand' p = expand p) (room : Nat) (fronts : List Sequence) :
    continueUpTo expand' room fronts ps = continueUpTo expand room fronts ps := by
  induction ps generalizing room with
  | nil => rfl
  | cons p ps ih => simp only [continueUpTo, h p (.head _), ih fun q hq => h q (.tail _ hq)]

/-- The right-hand sides are the same, since no children of symbol nodes are looked at for them. -/
theorem SameInner.expandChildren_eq (h : SameInner nodes nodes') (hi : nodes.InnerPacked) (cap fuel : Nat)
    (cs : List NodeId) : expandChildren nodes' cap fuel cs = expandChildren nodes cap fuel cs := by
  induction fuel generalizing cs with
  | zero => rfl
  | succ fuel ih =>
    rw [expandChildren, expandChildren]
    refine List.foldl_ext _ _ _ fun fronts c _ => ?_
    simp only [extend, h.kind_eq]
    split
    · rename_i A alt dot hk
      rw [h.children_eq c (by rw [Node.isSymbol, hk])]
      refine continueUpTo_congr (fun p hp => ?_) cap fronts
      rw [h.children_eq p (not_isSymbol_of_isPacked (hi c A alt dot hk p hp)), ih]
    · rename_i A alt dot hk
      rw [h.children_eq c (by rw [Node.isSymbol, hk])]
    · rfl
    · rfl

theorem SameInner.sequences_eq (h : SameInner nodes nodes') (hi : nodes.InnerPacked) (cap : Nat) {p : NodeId}
    (hp : (node nodes p).isSymbol = false) : sequences nodes' cap p = sequences nodes cap p := by
  rw [sequences, sequences, sequencesOf, sequencesOf, h.children_eq p hp, h.size_eq, h.expandChildren_eq hi]

theorem SameInner.operandConflicts_eq (h : SameInner nodes nodes') {c : NodeId}
    (hc : (node nodes c).isSymbol = true → childrenOf nodes' c = childrenOf nodes c) (op : Operator)
    (side : Side) : operandConflicts g nodes' op side c = operandConflicts g nodes op side c := by
  simp only [operandConflicts, h.kind_eq]
  cases hk : (node nodes c).kind with
  | symbol A =>
    have halternatives : packedAlternatives nodes' c = packedAlternatives nodes c := by
      simp only [packedAlternatives, h.kind_eq, hc (by rw [Node.isSymbol, hk])]
    dsimp only
    rw [halternatives]
  | _ => rfl

/-- What precedence says of right-hand sides depends on the alternatives of the symbol nodes in them alone. -/
theorem SameInner.precedenceAllows_eq (h : SameInner nodes nodes') (a : Alternative) {ss : List Sequence}
    (hss : ∀ s ∈ ss, ∀ c ∈ s, (node nodes c).isSymbol = true → childrenOf nodes' c = childrenOf nodes c) :
    precedenceAllows g nodes' (fun _ => true) a ss = precedenceAllows g nodes (fun _ => true) a ss := by
  simp only [precedenceAllows]
  split
  · rfl
  · rename_i op _
    refine congrArg _ ?_
    rw [Bool.eq_iff_iff, List.any_eq_true, List.any_eq_true]
    refine exists_congr fun s => and_congr_right fun hs => ?_
    rw [List.all_eq_true, List.all_eq_true]
    refine forall₂_congr fun x hx => ?_
    obtain ⟨side, c⟩ := x
    obtain ⟨i, -, hget⟩ := mem_operands_iff.1 hx
    dsimp only
    rw [h.operandConflicts_eq (hss s hs c (List.mem_of_getElem? hget))]

end Arena

namespace Pass

open Arena

variable {g : Grammar} {nodes nodes' : Arena} {root : NodeId}

/-- The node is wider than the symbol nodes in the right-hand sides of its operator alternatives that are
looked at. -/
def Exceeds (g : Grammar) (nodes : Arena) (id : NodeId) : Prop :=
  ∀ p ∈ childrenOf nodes id, isOperatorNode g nodes p = true → ∀ s ∈ sequences nodes sequenceCap p,
    ∀ c ∈ s, (node nodes c).isSymbol = true → (node nodes c).width < (node nodes id).width

theorem isOperatorNode_sameInner (h : SameInner nodes nodes') (p : NodeId) :
    isOperatorNode g nodes' p = isOperatorNode g nodes p := by
  rw [isOperatorNode, isOperatorNode, h.kind_eq]

theorem not_isSymbol_of_isOperatorNode {p : NodeId} (h : isOperatorNode g nodes p = true) :
    (node nodes p).isSymbol = false := by
  rw [isOperatorNode] at h
  split at h
  · rename_i A alt hk
    rw [Node.isSymbol, hk]
  · cases h

theorem Exceeds.sameInner {id : NodeId} (he : Exceeds g nodes id) (hi : nodes.InnerPacked)
    (h : SameInner nodes nodes') (hsub : ∀ p ∈ childrenOf nodes' id, p ∈ childrenOf nodes id) :
    Exceeds g nodes' id := by
  intro p hp hop s hs c hc hsym
  rw [isOperatorNode_sameInner h] at hop
  rw [h.sequences_eq hi _ (not_isSymbol_of_isOperatorNode hop)] at hs
  rw [h.isSymbol_eq] at hsym
  rw [h.width_eq, h.width_eq]
  exact he p (hsub p hp) hop s hs c hc hsym

/-- Whether an alternative is kept depends on the alternatives of its operands alone. -/
theorem keepsAlternative_congr (h : SameInner nodes nodes') (hi : nodes.InnerPacked) {A : RuleId} {p : NodeId}
    (hoperands : isOperatorNode g nodes p = true → ∀ s ∈ sequences nodes sequenceCap p, ∀ c ∈ s,
      (node nodes c).isSymbol = true → childrenOf nodes' c = childrenOf nodes c) :
    keepsAlternative g nodes' A p = keepsAlternative g nodes A p := by
  simp only [keepsAlternative, h.kind_eq, isOperatorNode_sameInner h]
  cases hk : (node nodes p).kind with
  | packed B alt =>
    dsimp only
    cases hop : isOperatorNode g nodes p with
    | false => rw [Bool.not_false, Bool.true_or, Bool.true_or]
    | true => rw [h.sequences_eq hi _ (by rw [Node.isSymbol, hk]), h.precedenceAllows_eq _ (hoperands hop)]
  | symbol | intermediate | nulled | terminal | epsilon => rfl

/-! ## The sweep -/

/-- Of the nodes of the list, those alternatives are left that are kept in the end; nothing else has
changed. -/
structure Settles (g : Grammar) (ids : List NodeId) (nodes final : Arena) : Prop
    extends SameInner nodes final where
  others : ∀ id, id ∉ ids → childrenOf final id = childrenOf nodes id
  settled : ∀ id ∈ ids, ∀ A, (node nodes id).kind = .symbol A →
    childrenOf final id = (childrenOf nodes id).filter (keepsAlternative g final A)

theorem childrenOf_resolveNode_self {id : NodeId} {A : RuleId} (hk : (node nodes id).kind = .symbol A) :
    childrenOf (resolveNode g nodes id) id =
      (childrenOf nodes id).filter (keepsAlternative g nodes A) := by
  rw [resolveNode, hk]
  dsimp only
  rw [childrenOf_setChildren_self (lt_size_of_kind (by rw [hk]; simp)), Array.toList_filter]
  rfl

theorem childrenOf_resolveNode_ne {id id' : NodeId} (h : id ≠ id') :
    childrenOf (resolveNode g nodes id) id' = childrenOf nodes id' := by
  rw [resolveNode]
  split
  · exact childrenOf_setChildren_ne h
  · rfl

theorem sameInner_resolveNode (g : Grammar) (nodes : Arena) (id : NodeId) :
    SameInner nodes (resolveNode g nodes id) := by
  rw [resolveNode]
  split
  · rename_i A hk
    exact sameInner_setChildren (by rw [Node.isSymbol, hk]) _
  · exact .refl nodes

theorem mem_of_mem_resolveNode {id id' p : NodeId} (h : p ∈ childrenOf (resolveNode g nodes id) id') :
    p ∈ childrenOf nodes id' := (trims_resolveNode g nodes id).mem_children h

theorem childrenOf_resolveAll_of_not_mem {ids : List NodeId} {nodes : Arena} {changed : Bool} {id : NodeId}
    (hid : id ∉ ids) : childrenOf (resolveAll g ids nodes changed).1 id = childrenOf nodes id := by
  induction ids generalizing nodes changed with
  | nil => rfl
  | cons id' ids ih =>
    rw [List.mem_cons, not_or] at hid
    exact (ih hid.2).trans (childrenOf_resolveNode_ne (Ne.symm hid.1))

/-- A sweep from narrow to wide settles the nodes it goes through, if these are wider than their operands:
an operand of a node is not touched any more once it is the turn of the node. -/
theorem settles_resolveAll {ids : List NodeId} {nodes : Arena} (hi : nodes.InnerPacked) (hnodup : ids.Nodup)
    (hsorted : ids.Pairwise fun a b => (node nodes a).width ≤ (node nodes b).width)
    (hexceeds : ∀ id ∈ ids, Exceeds g nodes id) (changed : Bool) :
    Settles g ids nodes (resolveAll g ids nodes changed).1 := by
  induction ids generalizing nodes changed with
  | nil => exact ⟨.refl nodes, fun _ _ => rfl, fun _ h => absurd h List.not_mem_nil⟩
  | cons id ids ih =>
    obtain ⟨hnew, hnodup⟩ := List.nodup_cons.1 hnodup
    obtain ⟨hle, hsorted⟩ := List.pairwise_cons.1 hsorted
    have hnode := sameInner_resolveNode g nodes id
    have ih := ih (hi.sameInner hnode) hnodup (by simpa only [hnode.width_eq] using hsorted)
      (fun id' hid' => (hexceeds id' (.tail _ hid')).sameInner hi hnode fun _ => mem_of_mem_resolveNode)
      (changed || (node (resolveNode g nodes id) id).children.size != (node nodes id).children.size)
    refine ⟨hnode.trans ih.toSameInner, fun id' hid' => childrenOf_resolveAll_of_not_mem hid',
      fun id' hid' A hk => ?_⟩
    · rcases List.mem_cons.1 hid' with rfl | hid'
      · refine ((ih.others id' hnew).trans (childrenOf_resolveNode_self hk)).trans
          (List.filter_congr fun p hp => ?_)
        refine (keepsAlternative_congr (hnode.trans ih.toSameInner) hi fun hop s hs c hc hsym => ?_).symm
        have hwidth := hexceeds id' (.head _) p hp hop s hs c hc hsym
        -- what comes after the node is at least as wide, so its operands are none of that
        have hne : id' ≠ c := by
          rintro rfl
          exact Nat.lt_irrefl _ hwidth
        have hlater : c ∉ ids := fun hmem => Nat.not_lt.2 (hle c hmem) hwidth
        exact (ih.others c hlater).trans (childrenOf_resolveNode_ne hne)
      · have hne : id ≠ id' := by
          rintro rfl
          exact hnew hid'
        have := ih.settled id' hid' A ((hnode.kind_eq id').trans hk)
        rwa [childrenOf_resolveNode_ne hne] at this

/-- There is a change if a node of the list has lost an alternative. -/
theorem snd_resolveAll {ids : List NodeId} {nodes : Arena} (hnodup : ids.Nodup) (changed : Bool) :
    (resolveAll g ids nodes changed).2 = (changed || ids.any fun id =>
      (childrenOf (resolveAll g ids nodes changed).1 id).length != (childrenOf nodes id).length) := by
  induction ids generalizing nodes changed with
  | nil => simp [resolveAll]
  | cons id ids ih =>
    obtain ⟨hnew, hnodup⟩ := List.nodup_cons.1 hnodup
    have hlength : ∀ nodes, (node nodes id).children.size = (childrenOf nodes id).length := fun _ => rfl
    rw [resolveAll, ih hnodup, List.any_cons, childrenOf_resolveAll_of_not_mem hnew, hlength, hlength,
      Bool.or_assoc]
    refine congrArg _ (congrArg _ ?_)
    rw [Bool.eq_iff_iff, List.any_eq_true, List.any_eq_true]
    refine exists_congr fun id' => and_congr_right fun hid' => ?_
    have hne : id ≠ id' := by
      rintro rfl
      exact hnew hid'
    rw [childrenOf_resolveNode_ne hne]

/-- What is settled is determined by what there was: the alternatives of a node depend on those of narrower
ones. -/
theorem Settles.unique {ids ids' : List NodeId} {final final' : Arena} (hi : nodes.InnerPacked)
    (hexceeds : ∀ id ∈ ids, (node nodes id).isSymbol = true ∧ Exceeds g nodes id)
    (h : Settles g ids nodes final) (h' : Settles g ids' nodes final')
    (hids : ∀ id, id ∈ ids ↔ id ∈ ids') : final' = final := by
  have hsame : SameInner final final' := h.toSameInner.symm.trans h'.toSameInner
  refine hsame.eq_of_childrenOf fun id => ?_
  induction hw : (node nodes id).width using Nat.strong_induction_on generalizing id with
  | _ w ih =>
    by_cases hid : id ∈ ids
    · obtain ⟨hsym, hexceeds⟩ := hexceeds id hid
      obtain ⟨A, hk⟩ := Node.isSymbol_iff.1 hsym
      rw [h.settled id hid A hk, h'.settled id ((hids id).1 hid) A hk]
      refine List.filter_congr fun p hp => keepsAlternative_congr hsame (hi.sameInner h.toSameInner)
        fun hop s hs c hc hsym => ?_
      rw [isOperatorNode_sameInner h.toSameInner] at hop
      rw [h.sequences_eq hi _ (not_isSymbol_of_isOperatorNode hop)] at hs
      rw [h.isSymbol_eq] at hsym
      exact ih _ (hw ▸ hexceeds p hp hop s hs c hc hsym) c rfl
    · rw [h.others id hid, h'.others id fun hmem => hid ((hids id).2 hmem)]

/-! ## The order -/

theorem resolveOrder_perm (g : Grammar) (root : NodeId) (nodes : Arena) :
    (resolveOrder g root nodes).Perm (((liveNodes nodes root).filter fun (n, _) =>
      n.isSymbol && n.children.any (isOperatorNode g nodes)).map Prod.snd) :=
  (List.mergeSort_perm _ _).map _

theorem nodup_resolveOrder : (resolveOrder g root nodes).Nodup :=
  (resolveOrder_perm g root nodes).nodup_iff.2 ((List.filter_sublist.map Prod.snd).nodup nodup_liveNodes)

theorem mem_resolveOrder_iff {id : NodeId} : id ∈ resolveOrder g root nodes ↔
    (live nodes root).getD id false = true ∧ (node nodes id).isSymbol = true ∧
      ∃ p ∈ childrenOf nodes id, isOperatorNode g nodes p = true := by
  rw [(resolveOrder_perm g root nodes).mem_iff]
  simp only [List.mem_map, List.mem_filter, Prod.exists, mem_liveNodes_iff, Bool.and_eq_true,
    Array.any_eq_true', exists_eq_right]
  constructor
  · rintro ⟨n, ⟨-, rfl, hlive⟩, hsym, p, hp, hop⟩
    exact ⟨hlive, hsym, p, Array.mem_toList_iff.2 hp, hop⟩
  · rintro ⟨hlive, hsym, p, hp, hop⟩
    obtain ⟨A, hk⟩ := Node.isSymbol_iff.1 hsym
    exact ⟨_, ⟨lt_size_of_kind (by rw [hk]; simp), rfl, hlive⟩, hsym, p, Array.mem_toList_iff.1 hp, hop⟩

theorem pairwise_resolveOrder :
    (resolveOrder g root nodes).Pairwise fun a b => (node nodes a).width ≤ (node nodes b).width := by
  rw [resolveOrder, List.pairwise_map]
  refine (List.Pairwise.and_mem.1 (List.pairwise_mergeSort ?_ ?_ _)).imp ?_
  · simp only [decide_eq_true_eq]
    exact fun _ _ _ => Nat.le_trans
  · simp only [Bool.or_eq_true, decide_eq_true_eq]
    exact fun _ _ => Nat.le_total _ _
  · rintro ⟨m, a⟩ ⟨n, b⟩ ⟨ha, hb, hle⟩
    obtain ⟨-, rfl, -⟩ := mem_liveNodes_iff.1 (List.mem_filter.1 (List.mem_mergeSort.1 ha)).1
    obtain ⟨-, rfl, -⟩ := mem_liveNodes_iff.1 (List.mem_filter.1 (List.mem_mergeSort.1 hb)).1
    exact of_decide_eq_true hle

/-! ## The pass -/

/-- What precedence needs of an arena: alternatives of intermediate nodes are packed nodes, and a symbol node
in use is wider than the operands in it. -/
structure Tapers (g : Grammar) (root : NodeId) (nodes : Arena) : Prop where
  root_lt : root < nodes.size
  closed : ∀ id, ∀ c ∈ childrenOf nodes id, c < nodes.size
  inner : nodes.InnerPacked
  exceeds : ∀ id, nodes.Reachable root id → (node nodes id).isSymbol = true → Exceeds g nodes id

theorem keepsAlternative_of_not_isOperatorNode {A : RuleId} {p : NodeId}
    (h : ¬ isOperatorNode g nodes p = true) : keepsAlternative g nodes A p = true := by
  rw [keepsAlternative]
  split
  · rw [Bool.not_eq_true] at h
    rw [h]
    rfl
  · rfl

/-- Going through nodes whose alternatives are all kept does nothing. -/
theorem resolveAll_eq_self {ids : List NodeId} (h : ∀ id ∈ ids, ∀ A, (node nodes id).kind = .symbol A →
      (childrenOf nodes id).filter (keepsAlternative g nodes A) = childrenOf nodes id) (changed : Bool) :
    resolveAll g ids nodes changed = (nodes, changed) := by
  induction ids with
  | nil => rfl
  | cons id ids ih =>
    have hnode : resolveNode g nodes id = nodes := by
      rw [resolveNode]
      split
      · rename_i A hk
        have hall : (node nodes id).children.filter (keepsAlternative g nodes A) =
            (node nodes id).children :=
          Array.toList_inj.1 (by rw [Array.toList_filter]; exact h id (.head _) A hk)
        rw [hall, setChildren_self]
      · rfl
    rw [resolveAll, hnode]
    simp only [bne_self_eq_false, Bool.or_false]
    exact ih fun id' hid' => h id' (.tail _ hid')

namespace Tapers

variable (h : Tapers g root nodes)
include h

theorem reachable_of_mem {id : NodeId} (hid : id ∈ resolveOrder g root nodes) : nodes.Reachable root id :=
  (live_iff_reachable h.root_lt h.closed).1 (mem_resolveOrder_iff.1 hid).1

theorem exceeds_of_mem {id : NodeId} (hid : id ∈ resolveOrder g root nodes) :
    (node nodes id).isSymbol = true ∧ Exceeds g nodes id :=
  have hsym := (mem_resolveOrder_iff.1 hid).2.1
  ⟨hsym, h.exceeds id (h.reachable_of_mem hid) hsym⟩

/-- Whatever the order among nodes of one width, the sweep settles the same nodes. -/
theorem settles {ids : List NodeId} (hperm : ids.Perm (resolveOrder g root nodes))
    (hsorted : ids.Pairwise fun a b => (node nodes a).width ≤ (node nodes b).width) :
    Settles g ids nodes (resolveAll g ids nodes false).1 :=
  settles_resolveAll h.inner (hperm.nodup_iff.2 nodup_resolveOrder) hsorted
    (fun _ hid => (h.exceeds_of_mem (hperm.mem_iff.1 hid)).2) false

theorem settles_run : Settles g (resolveOrder g root nodes) nodes (resolvePrecedence.run g root nodes).1 :=
  h.settles (.refl _) pairwise_resolveOrder

/-- The alternatives of a node in use are those that are kept in the end. -/
theorem childrenOf_run {id : NodeId} {A : RuleId} (hid : nodes.Reachable root id)
    (hk : (node nodes id).kind = .symbol A) :
    childrenOf (resolvePrecedence.run g root nodes).1 id =
      (childrenOf nodes id).filter (keepsAlternative g (resolvePrecedence.run g root nodes).1 A) := by
  by_cases hmem : id ∈ resolveOrder g root nodes
  · exact h.settles_run.settled id hmem A hk
  · have hnone : ∀ p ∈ childrenOf nodes id, ¬ isOperatorNode g nodes p = true := fun p hp hop =>
      hmem (mem_resolveOrder_iff.2 ⟨(live_iff_reachable h.root_lt h.closed).2 hid,
        by rw [Node.isSymbol, hk], p, hp, hop⟩)
    rw [h.settles_run.others id hmem, List.filter_eq_self.2]
    intro p hp
    refine keepsAlternative_of_not_isOperatorNode ?_
    rw [isOperatorNode_sameInner h.settles_run.toSameInner]
    exact hnone p hp

end Tapers

/-- The sweep reaches its fixed point at once. In the arena that it ends with, the alternatives of a symbol
node that was in use are, in their old order, those that are no operator expressions and those that
precedence allows there; a second run changes nothing; and the arena does not depend on the order in which
nodes of one width are visited. -/
theorem resolvePrecedence_settles (h : Tapers g root nodes) :
    (∀ id A, nodes.Reachable root id → (node nodes id).kind = .symbol A →
      childrenOf (resolvePrecedence.run g root nodes).1 id =
        (childrenOf nodes id).filter (keepsAlternative g (resolvePrecedence.run g root nodes).1 A)) ∧
    resolvePrecedence.run g root (resolvePrecedence.run g root nodes).1 =
      ((resolvePrecedence.run g root nodes).1, false) ∧
    ∀ ids : List NodeId, ids.Perm (resolveOrder g root nodes) →
      ids.Pairwise (fun a b => (node nodes a).width ≤ (node nodes b).width) →
      resolveAll g ids nodes false = resolvePrecedence.run g root nodes := by
  refine ⟨fun id A hid hk => h.childrenOf_run hid hk, ?_, fun ids hperm hsorted => ?_⟩
  · have htrims := trims_resolvePrecedence g root nodes
    have hclosed : ∀ id, ∀ c ∈ childrenOf (resolvePrecedence.run g root nodes).1 id,
        c < (resolvePrecedence.run g root nodes).1.size := fun id c hc => by
      rw [htrims.size_eq]
      exact h.closed id c (htrims.mem_children hc)
    refine resolveAll_eq_self (fun id hid A hk => ?_) false
    have hreach : nodes.Reachable root id := htrims.reachable
      ((live_iff_reachable (htrims.size_eq ▸ h.root_lt) hclosed).1 (mem_resolveOrder_iff.1 hid).1)
    rw [h.childrenOf_run hreach ((htrims.kind_eq id).symm.trans hk), List.filter_filter]
    simp only [Bool.and_self]
  · have hunique := h.settles_run.unique h.inner (fun _ hid => h.exceeds_of_mem hid) (h.settles hperm hsorted)
      fun id => hperm.mem_iff.symm
    refine Prod.ext hunique ?_
    change (resolveAll g ids nodes false).2 = (resolveAll g (resolveOrder g root nodes) nodes false).2
    rw [snd_resolveAll (hperm.nodup_iff.2 nodup_resolveOrder), snd_resolveAll nodup_resolveOrder, hunique,
      hperm.any_eq]
    rfl

/-! ## An example -/

/-- Sums of `a`, which group to the left. -/
def sums : Grammar where
  rules := #[⟨"sum", .normal, #[⟨[.rule 0, .terminal 0, .rule 0], 3, some ⟨1, 1, .left⟩⟩,
    ⟨[.terminal 1], 1, none⟩], false⟩]
  terminals := #[.literal ⟨"+", some 1, .left⟩, .ofText "a"]
  start := 0
  first := 0
  eofRule := 0
  eof := 1

/-- The sums of `a+a+a`: in node 17 the last two are put together first, in node 18 the first two. -/
def sumsOfThree : Arena := #[
  ⟨.epsilon, none, #[], #[]⟩,
  ⟨.symbol 0, some ⟨0, 1⟩, #[2], #[]⟩, ⟨.packed 0 1, none, #[3], #[]⟩, ⟨.terminal 0, some ⟨0, 1⟩, #[], #[]⟩,
  ⟨.symbol 0, some ⟨2, 3⟩, #[5], #[]⟩, ⟨.packed 0 1, none, #[6], #[]⟩, ⟨.terminal 2, some ⟨2, 3⟩, #[], #[]⟩,
  ⟨.symbol 0, some ⟨4, 5⟩, #[8], #[]⟩, ⟨.packed 0 1, none, #[9], #[]⟩, ⟨.terminal 4, some ⟨4, 5⟩, #[], #[]⟩,
  ⟨.symbol 0, some ⟨0, 3⟩, #[11], #[]⟩, ⟨.packed 0 0, none, #[1, 12, 4], #[]⟩,
  ⟨.terminal 1, some ⟨1, 2⟩, #[], #[]⟩,
  ⟨.symbol 0, some ⟨2, 5⟩, #[14], #[]⟩, ⟨.packed 0 0, none, #[4, 15, 7], #[]⟩,
  ⟨.terminal 3, some ⟨3, 4⟩, #[], #[]⟩,
  ⟨.symbol 0, some ⟨0, 5⟩, #[17, 18], #[]⟩, ⟨.packed 0 0, none, #[1, 19], #[]⟩,
  ⟨.packed 0 0, none, #[10, 15, 7], #[]⟩,
  ⟨.intermediate 0 0 1, some ⟨1, 5⟩, #[20], #[]⟩, ⟨.packed 0 0, none, #[12, 13], #[]⟩]

theorem sumsOfThree_tapers : Tapers sums 16 sumsOfThree := by
  have hlt : ∀ {id}, (node sumsOfThree id).kind ≠ .epsilon → id < 21 := fun h => lt_size_of_kind h
  refine ⟨by decide, fun id c hc => ?_, fun id A alt dot hk p hp => ?_, fun id _ hs => ?_⟩
  · have hall : ∀ id < 21, ∀ c ∈ childrenOf sumsOfThree id, c < sumsOfThree.size := by decide
    refine hall id (Nat.lt_of_not_le fun hle => ?_) c hc
    rw [childrenOf, node_of_size_le hle] at hc
    cases hc
  · have hall : ∀ id < 21, (node sumsOfThree id).isSymbol = false → ∀ p ∈ childrenOf sumsOfThree id,
        (node sumsOfThree id).isChoice = true → (node sumsOfThree p).isPacked = true := by decide
    exact hall id (hlt (by rw [hk]; simp)) (by rw [Node.isSymbol, hk]) p hp (by rw [Node.isChoice, hk])
  · have hall : ∀ id < 21, (node sumsOfThree id).isSymbol = true → ∀ p ∈ childrenOf sumsOfThree id,
        isOperatorNode sums sumsOfThree p = true → ∀ s ∈ sequences sumsOfThree sequenceCap p, ∀ c ∈ s,
        (node sumsOfThree c).isSymbol = true →
        (node sumsOfThree c).width < (node sumsOfThree id).width := by decide +kernel
    obtain ⟨A, hk⟩ := Node.isSymbol_iff.1 hs
    exact hall id (hlt (by rw [hk]; simp)) hs

/-- The three sums are gone through, those of two before that of three. -/
theorem perm_resolveOrder_sumsOfThree : [10, 13, 16].Perm (resolveOrder sums 16 sumsOfThree) := by
  refine (List.perm_ext_iff_of_nodup (by decide) nodup_resolveOrder).2 fun id => ?_
  rw [mem_resolveOrder_iff, live_iff_reachable sumsOfThree_tapers.root_lt sumsOfThree_tapers.closed]
  constructor
  · have hroot : sumsOfThree.Reachable 16 16 := .refl
    have h10 := (hroot.child (c := 18) (by decide)).child (c := 10) (by decide)
    have h13 := (((hroot.child (c := 17) (by decide)).child (c := 19) (by decide)).child (c := 20)
      (by decide)).child (c := 13) (by decide)
    intro h
    simp only [List.mem_cons, List.not_mem_nil, or_false] at h
    rcases h with rfl | rfl | rfl
    · exact ⟨h10, by decide, by decide⟩
    · exact ⟨h13, by decide, by decide⟩
    · exact ⟨hroot, by decide, by decide⟩
  · rintro ⟨-, hs, hop⟩
    have hall : ∀ id < 21, (node sumsOfThree id).isSymbol = true →
        (∃ p ∈ childrenOf sumsOfThree id, isOperatorNode sums sumsOfThree p = true) → id ∈ [10, 13, 16] := by
      decide
    obtain ⟨A, hk⟩ := Node.isSymbol_iff.1 hs
    exact hall id (lt_size_of_kind (by rw [hk]; simp)) hs hop

/-- The sum that is grouped to the right goes, whichever of the two sums of two is visited first. -/
theorem resolvePrecedence_settles_sums :
    childrenOf (resolvePrecedence.run sums 16 sumsOfThree).1 16 = [18] ∧
    resolveAll sums [13, 10, 16] sumsOfThree false = resolveAll sums [10, 13, 16] sumsOfThree false ∧
    (resolvePrecedence.run sums 16 (resolvePrecedence.run sums 16 sumsOfThree).1).2 = false := by
  obtain ⟨-, htwice, horder⟩ := resolvePrecedence_settles sumsOfThree_tapers
  have hsorted := horder [10, 13, 16] perm_resolveOrder_sumsOfThree (by decide)
  refine ⟨?_, ?_, congrArg Prod.snd htwice⟩
  · rw [← hsorted]
    decide +kernel
  · have hswap : [13, 10, 16].Perm [10, 13, 16] := .swap 10 13 [16]
    rw [hsorted, horder [13, 10, 16] (hswap.trans perm_resolveOrder_sumsOfThree) (by decide)]

end Pass

end ParseForest
