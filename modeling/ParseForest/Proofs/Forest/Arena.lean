import ParseForest.Forest.Node
import ParseForest.Proofs.Basic

/-!
# Growing arenas

While a forest is built, nodes are appended and choices gain alternatives; nothing else changes
(`Arena.Grows`). What is known of a node by its kind and span stays true, and nodes that are no
choices stay as they are.
-/

namespace ParseForest

namespace Node

variable {n : Node}

theorem isPacked_iff : n.isPacked = true ↔ ∃ A alt, n.kind = .packed A alt := by
  rw [isPacked]
  cases n.kind <;> simp

theorem isSymbol_iff : n.isSymbol = true ↔ ∃ A, n.kind = .symbol A := by
  rw [isSymbol]
  cases n.kind <;> simp

theorem isChoice_iff : n.isChoice = true ↔
    (∃ A, n.kind = .symbol A) ∨ ∃ A alt dot, n.kind = .intermediate A alt dot := by
  rw [isChoice]
  cases n.kind <;> simp

theorem not_isPacked_of_isChoice (h : n.isChoice = true) : n.isPacked = false := by
  rcases isChoice_iff.1 h with ⟨A, hk⟩ | ⟨A, alt, dot, hk⟩ <;> rw [isPacked, hk]

end Node

namespace Arena

variable {nodes nodes' nodes'' : Arena}

theorem node_push_lt {n : Node} {id : NodeId} (h : id < nodes.size) :
    node (nodes.push n) id = node nodes id := Array.getD_push_lt h

@[simp] theorem node_push_size (n : Node) : node (nodes.push n) nodes.size = n :=
  Array.getD_push_size

theorem node_of_size_le {id : NodeId} (h : nodes.size ≤ id) : node nodes id = default :=
  Array.getD_of_size_le h

@[simp] theorem size_addChild (owner child : NodeId) :
    (addChild nodes owner child).size = nodes.size := Array.size_modify

@[simp] theorem size_setChildren (id : NodeId) (children : Array NodeId) :
    (setChildren nodes id children).size = nodes.size := Array.size_modify

theorem node_addChild_self {owner child : NodeId} (h : owner < nodes.size) :
    node (addChild nodes owner child) owner =
      { node nodes owner with children := (node nodes owner).children.push child } :=
  Array.getD_modify_self h

theorem node_addChild_ne {owner child id : NodeId} (h : owner ≠ id) :
    node (addChild nodes owner child) id = node nodes id := Array.getD_modify_ne h

theorem node_setChildren_self {id : NodeId} {children : Array NodeId} (h : id < nodes.size) :
    node (setChildren nodes id children) id = { node nodes id with children } :=
  Array.getD_modify_self h

theorem node_setChildren_ne {id id' : NodeId} {children : Array NodeId} (h : id ≠ id') :
    node (setChildren nodes id children) id' = node nodes id' := Array.getD_modify_ne h

theorem kind_addChild (owner child id : NodeId) :
    (node (addChild nodes owner child) id).kind = (node nodes id).kind := by
  by_cases h : owner = id
  · subst h
    by_cases hlt : owner < nodes.size
    · rw [node_addChild_self hlt]
    · rw [node_of_size_le (by simpa using hlt), node_of_size_le (Nat.not_lt.1 hlt)]
  · rw [node_addChild_ne h]

theorem span_addChild (owner child id : NodeId) :
    (node (addChild nodes owner child) id).span = (node nodes id).span := by
  by_cases h : owner = id
  · subst h
    by_cases hlt : owner < nodes.size
    · rw [node_addChild_self hlt]
    · rw [node_of_size_le (by simpa using hlt), node_of_size_le (Nat.not_lt.1 hlt)]
  · rw [node_addChild_ne h]

theorem childrenOf_addChild_self {owner child : NodeId} (h : owner < nodes.size) :
    childrenOf (addChild nodes owner child) owner = childrenOf nodes owner ++ [child] := by
  rw [childrenOf, node_addChild_self h, Array.toList_push]
  rfl

theorem childrenOf_addChild_ne {owner child id : NodeId} (h : owner ≠ id) :
    childrenOf (addChild nodes owner child) id = childrenOf nodes id := by
  rw [childrenOf, node_addChild_ne h]
  rfl

/-- The nodes are of the same kinds and have the same spans. -/
structure SameHeads (nodes nodes' : Arena) : Prop where
  size_eq : nodes'.size = nodes.size
  kind_eq : ∀ id, (node nodes' id).kind = (node nodes id).kind
  span_eq : ∀ id, (node nodes' id).span = (node nodes id).span

theorem SameHeads.refl (nodes : Arena) : SameHeads nodes nodes := ⟨rfl, fun _ => rfl, fun _ => rfl⟩

theorem SameHeads.trans (h : SameHeads nodes nodes') (h' : SameHeads nodes' nodes'') :
    SameHeads nodes nodes'' :=
  ⟨h'.size_eq.trans h.size_eq, fun id => (h'.kind_eq id).trans (h.kind_eq id),
    fun id => (h'.span_eq id).trans (h.span_eq id)⟩

theorem SameHeads.symm (h : SameHeads nodes nodes') : SameHeads nodes' nodes :=
  ⟨h.size_eq.symm, fun id => (h.kind_eq id).symm, fun id => (h.span_eq id).symm⟩

theorem SameHeads.isChoice_eq (h : SameHeads nodes nodes') (id : NodeId) :
    (node nodes' id).isChoice = (node nodes id).isChoice := by
  rw [Node.isChoice, Node.isChoice, h.kind_eq]

theorem SameHeads.isPacked_eq (h : SameHeads nodes nodes') (id : NodeId) :
    (node nodes' id).isPacked = (node nodes id).isPacked := by
  rw [Node.isPacked, Node.isPacked, h.kind_eq]

theorem sameHeads_addChild (owner child : NodeId) : SameHeads nodes (addChild nodes owner child) :=
  ⟨size_addChild owner child, kind_addChild owner child, span_addChild owner child⟩

/-- Nodes are appended, and choices gain alternatives. -/
structure Grows (nodes nodes' : Arena) : Prop where
  size_le : nodes.size ≤ nodes'.size
  kind_eq : ∀ id < nodes.size, (node nodes' id).kind = (node nodes id).kind
  span_eq : ∀ id < nodes.size, (node nodes' id).span = (node nodes id).span
  node_eq : ∀ id < nodes.size, ¬ (node nodes id).isChoice = true → node nodes' id = node nodes id
  children_prefix : ∀ id < nodes.size, childrenOf nodes id <+: childrenOf nodes' id

theorem Grows.refl (nodes : Arena) : nodes.Grows nodes :=
  ⟨Nat.le_refl _, fun _ _ => rfl, fun _ _ => rfl, fun _ _ _ => rfl, fun _ _ => List.prefix_rfl⟩

theorem Grows.trans (h : nodes.Grows nodes') (h' : nodes'.Grows nodes'') : nodes.Grows nodes'' where
  size_le := Nat.le_trans h.size_le h'.size_le
  kind_eq id hid := (h'.kind_eq id (Nat.lt_of_lt_of_le hid h.size_le)).trans (h.kind_eq id hid)
  span_eq id hid := (h'.span_eq id (Nat.lt_of_lt_of_le hid h.size_le)).trans (h.span_eq id hid)
  node_eq id hid hc := by
    have he := h.node_eq id hid hc
    exact (h'.node_eq id (Nat.lt_of_lt_of_le hid h.size_le) (by rwa [he])).trans he
  children_prefix id hid :=
    (h.children_prefix id hid).trans (h'.children_prefix id (Nat.lt_of_lt_of_le hid h.size_le))

theorem grows_push (nodes : Arena) (n : Node) : nodes.Grows (nodes.push n) := by
  refine ⟨by simp, ?_, ?_, ?_, ?_⟩ <;> intro id hid
  · rw [node_push_lt hid]
  · rw [node_push_lt hid]
  · exact fun _ => node_push_lt hid
  · have heq : childrenOf (nodes.push n) id = childrenOf nodes id := by
      rw [childrenOf, childrenOf, node_push_lt hid]
    exact heq ▸ List.prefix_rfl

theorem grows_addChild {owner : NodeId} (ho : (node nodes owner).isChoice = true) (child : NodeId) :
    nodes.Grows (addChild nodes owner child) where
  size_le := by simp
  kind_eq id _ := kind_addChild owner child id
  span_eq id _ := span_addChild owner child id
  node_eq id _ hc := node_addChild_ne fun he => hc (he ▸ ho)
  children_prefix id hid := by
    by_cases h : owner = id
    · subst h
      rw [childrenOf_addChild_self hid]
      exact List.prefix_append _ _
    · exact (childrenOf_addChild_ne h).symm ▸ List.prefix_rfl

theorem Grows.isChoice_eq (h : nodes.Grows nodes') {id : NodeId} (hid : id < nodes.size) :
    (node nodes' id).isChoice = (node nodes id).isChoice := by
  rw [Node.isChoice, Node.isChoice, h.kind_eq id hid]

theorem Grows.mem_children (h : nodes.Grows nodes') {id c : NodeId}
    (hc : c ∈ childrenOf nodes id) : c ∈ childrenOf nodes' id := by
  by_cases hid : id < nodes.size
  · exact (h.children_prefix id hid).subset hc
  · rw [childrenOf, node_of_size_le (Nat.not_lt.1 hid)] at hc
    cases hc

/-- A node that has a span or is no epsilon is one of the arena. -/
theorem lt_size_of_kind {id : NodeId} (h : (node nodes id).kind ≠ .epsilon) : id < nodes.size := by
  by_contra hge
  rw [node_of_size_le (Nat.not_lt.1 hge)] at h
  exact h rfl

theorem lt_size_of_isChoice {id : NodeId} (h : (node nodes id).isChoice = true) :
    id < nodes.size := by
  refine lt_size_of_kind fun hk => ?_
  rw [Node.isChoice, hk] at h
  cases h

theorem lt_size_of_isPacked {id : NodeId} (h : (node nodes id).isPacked = true) :
    id < nodes.size := by
  obtain ⟨A, alt, hk⟩ := Node.isPacked_iff.1 h
  exact lt_size_of_kind (by rw [hk]; simp)

end Arena

end ParseForest
