import ParseForest.Parser.Stack
import ParseForest.Proofs.Basic
import Mathlib.Algebra.GroupWithZero.Nat
import Mathlib.Data.List.ProdSigma

/-!
# The stack as an index

Nodes are found again by their level and state (`GraphStack.Indexed`). A level is worked on by
adding nodes to it and edges to its nodes, which leaves all other levels as they are
(`GraphStack.GrowsAt`); the two operations are `intern` and `addEdge`.
-/

namespace ParseForest

namespace GraphStack

variable {s s' s'' : GraphStack}

/-- The levels list the nodes, each in its own, and no two nodes of a level have the same state.
Edges lead to nodes that are there. -/
structure Indexed (s : GraphStack) : Prop where
  mem_level_iff : ∀ l id, id ∈ s.level l ↔ id < s.nodes.size ∧ (s.node id).level = l
  nodup_level : ∀ l, (s.level l).toList.Nodup
  unique : ∀ id < s.nodes.size, ∀ id' < s.nodes.size, (s.node id).state = (s.node id').state →
    (s.node id).level = (s.node id').level → id = id'
  target_lt : ∀ id, ∀ e ∈ (s.node id).edges, e.target < s.nodes.size
  nodup_edges : ∀ id, (s.node id).edges.toList.Nodup

/-- A way down the stack from a node to `t`; the labels of its edges are read upwards. -/
inductive Path (s : GraphStack) (t : StackId) : List NodeId → StackId → Prop
  | nil : Path s t [] t
  | snoc {labels : List NodeId} {label : NodeId} {u v : StackId} (h : Path s t labels v)
      (he : ⟨v, label⟩ ∈ (s.node u).edges) : Path s t (labels ++ [label]) u

/-- Number of edges. -/
def edgeTotal (s : GraphStack) : Nat := (s.nodes.toList.map fun n => n.edges.size).sum

/-- Nodes are added to a level, and edges to its nodes. -/
structure GrowsAt (l : Nat) (s s' : GraphStack) : Prop where
  size_le : s.nodes.size ≤ s'.nodes.size
  state_eq : ∀ id < s.nodes.size, (s'.node id).state = (s.node id).state
  level_eq : ∀ id < s.nodes.size, (s'.node id).level = (s.node id).level
  mem_edges : ∀ id, ∀ e ∈ (s.node id).edges, e ∈ (s'.node id).edges
  node_eq : ∀ id < s.nodes.size, (s.node id).level ≠ l → s'.node id = s.node id
  level_new : ∀ id, s.nodes.size ≤ id → id < s'.nodes.size → (s'.node id).level = l
  levels_size : s'.levels.size = s.levels.size
  limit_eq : s'.limit = s.limit

theorem GrowsAt.refl (l : Nat) (s : GraphStack) : s.GrowsAt l s :=
  ⟨Nat.le_refl _, fun _ _ => rfl, fun _ _ => rfl, fun _ _ h => h, fun _ _ _ => rfl,
    fun _ h h' => absurd h' (Nat.not_lt.2 h), rfl, rfl⟩

theorem GrowsAt.trans {l : Nat} (h : s.GrowsAt l s') (h' : s'.GrowsAt l s'') : s.GrowsAt l s'' where
  size_le := Nat.le_trans h.size_le h'.size_le
  state_eq id hid := (h'.state_eq id (Nat.lt_of_lt_of_le hid h.size_le)).trans (h.state_eq id hid)
  level_eq id hid := (h'.level_eq id (Nat.lt_of_lt_of_le hid h.size_le)).trans (h.level_eq id hid)
  mem_edges id e he := h'.mem_edges id e (h.mem_edges id e he)
  node_eq id hid hl := by
    have he := h.node_eq id hid hl
    exact (h'.node_eq id (Nat.lt_of_lt_of_le hid h.size_le) (he ▸ hl)).trans he
  level_new id hid hid' := by
    by_cases hlt : id < s'.nodes.size
    · rw [h'.level_eq id hlt]
      exact h.level_new id hid hlt
    · exact h'.level_new id (Nat.not_lt.1 hlt) hid'
  levels_size := h'.levels_size.trans h.levels_size
  limit_eq := h'.limit_eq.trans h.limit_eq

/-- Nodes are added to the levels from `l` on, and edges to their nodes. -/
structure GrowsFrom (l : Nat) (s s' : GraphStack) : Prop where
  size_le : s.nodes.size ≤ s'.nodes.size
  level_eq : ∀ id < s.nodes.size, (s'.node id).level = (s.node id).level
  node_eq : ∀ id < s.nodes.size, (s.node id).level < l → s'.node id = s.node id
  le_level : ∀ id, s.nodes.size ≤ id → id < s'.nodes.size → l ≤ (s'.node id).level

theorem GrowsAt.growsFrom {l m : Nat} (h : s.GrowsAt m s') (hl : l ≤ m) : s.GrowsFrom l s' where
  size_le := h.size_le
  level_eq := h.level_eq
  node_eq id hid hlt := h.node_eq id hid (Nat.ne_of_lt (Nat.lt_of_lt_of_le hlt hl))
  le_level id hid hid' := h.level_new id hid hid' ▸ hl

theorem GrowsFrom.refl (l : Nat) (s : GraphStack) : s.GrowsFrom l s :=
  (GrowsAt.refl l s).growsFrom (Nat.le_refl l)

theorem GrowsFrom.mono {l m : Nat} (h : s.GrowsFrom m s') (hl : l ≤ m) : s.GrowsFrom l s' where
  size_le := h.size_le
  level_eq := h.level_eq
  node_eq id hid hlt := h.node_eq id hid (Nat.lt_of_lt_of_le hlt hl)
  le_level id hid hid' := Nat.le_trans hl (h.le_level id hid hid')

theorem GrowsFrom.trans {l : Nat} (h : s.GrowsFrom l s') (h' : s'.GrowsFrom l s'') : s.GrowsFrom l s'' where
  size_le := Nat.le_trans h.size_le h'.size_le
  level_eq id hid := (h'.level_eq id (Nat.lt_of_lt_of_le hid h.size_le)).trans (h.level_eq id hid)
  node_eq id hid hlt := by
    have he := h.node_eq id hid hlt
    exact (h'.node_eq id (Nat.lt_of_lt_of_le hid h.size_le) (he ▸ hlt)).trans he
  le_level id hid hid' := by
    by_cases hlt : id < s'.nodes.size
    · rw [h'.level_eq id hlt]
      exact h.le_level id hid hlt
    · exact h'.le_level id (Nat.not_lt.1 hlt) hid'

theorem Path.eq_of_nil {t u : StackId} (h : s.Path t [] u) : t = u := by
  generalize hl : [] = labels at h
  cases h with
  | nil => rfl
  | snoc _ _ => simp at hl

theorem Path.cons {t u v : StackId} {label : NodeId} {labels : List NodeId}
    (he : ⟨t, label⟩ ∈ (s.node v).edges) (h : s.Path v labels u) : s.Path t (label :: labels) u := by
  induction h with
  | nil => exact .snoc .nil he
  | snoc _ he' ih => exact .snoc ih he'

/-- What a path leads to is there. -/
theorem Path.lt_size (hi : s.Indexed) {t u : StackId} {labels : List NodeId}
    (h : s.Path t labels u) (hu : u < s.nodes.size) : t < s.nodes.size := by
  induction h with
  | nil => exact hu
  | snoc _ he ih => exact ih (hi.target_lt _ _ he)

/-- A path from a node of a level on which nothing has changed, nor on those before. -/
theorem Path.of_frame (hi : s.Indexed) {l : Nat} {t u : StackId} {labels : List NodeId}
    (hlevel : ∀ id, ∀ e ∈ (s.node id).edges, (s.node e.target).level ≤ (s.node id).level)
    (hframe : ∀ id < s.nodes.size, (s.node id).level ≤ l → s'.node id = s.node id)
    (h : s'.Path t labels u) (hu : u < s.nodes.size) (hl : (s.node u).level ≤ l) :
    s.Path t labels u := by
  induction h with
  | nil => exact .nil
  | snoc _ he ih =>
    rw [hframe _ hu hl] at he
    exact .snoc (ih (hi.target_lt _ _ he) (Nat.le_trans (hlevel _ _ he) hl)) he

theorem node_of_size_le {id : StackId} (h : s.nodes.size ≤ id) : s.node id = default :=
  Array.getD_of_size_le h

/-- A node that has an edge is there. -/
theorem lt_size_of_mem_edges {id : StackId} {e : StackEdge} (h : e ∈ (s.node id).edges) :
    id < s.nodes.size := by
  by_contra hge
  rw [node_of_size_le (Nat.not_lt.1 hge)] at h
  simp [show (default : StackNode).edges = #[] from rfl] at h

theorem level_empty (levels limit l : Nat) : (empty levels limit).level l = #[] := by
  simp only [level, empty, Array.getD_eq_getD_getElem?, Array.getElem?_replicate]
  split <;> rfl

/-- The stack without nodes. -/
theorem indexed_empty (levels limit : Nat) : (empty levels limit).Indexed := by
  have hnode : ∀ id, (empty levels limit).node id = default := fun id =>
    node_of_size_le (Nat.zero_le id)
  refine ⟨fun l id => ?_, fun l => ?_, fun id hid => absurd hid (Nat.not_lt_zero id), fun id e he => ?_,
    fun id => ?_⟩
  · rw [level_empty]
    exact ⟨fun h => by simp at h, fun h => absurd h.1 (Nat.not_lt_zero id)⟩
  · rw [level_empty]
    exact List.nodup_nil
  · rw [hnode] at he
    simp [show (default : StackNode).edges = #[] from rfl] at he
  · rw [hnode]
    exact List.nodup_nil

/-! ## Nodes -/

theorem find?_eq_some {l : Nat} {state : StateId} {id : StackId} (h : s.find? l state = some id) :
    id ∈ s.level l ∧ (s.node id).state = state :=
  ⟨Array.mem_of_find?_eq_some h, by simpa using Array.find?_some h⟩

theorem find?_eq_none {l : Nat} {state : StateId} (h : s.find? l state = none) :
    ∀ id ∈ s.level l, (s.node id).state ≠ state := by
  intro id hid
  have := Array.find?_eq_none.1 h id hid
  simpa using this

section Add

variable {l : Nat} {state : StateId}

theorem node_add_lt {id : StackId} (h : id < s.nodes.size) : (s.add l state).2.node id = s.node id :=
  Array.getD_push_lt h

theorem node_add_size : (s.add l state).2.node s.nodes.size = ⟨state, l, #[]⟩ := Array.getD_push_size

theorem size_add : (s.add l state).2.nodes.size = s.nodes.size + 1 := Array.size_push _

theorem level_add_self (h : l < s.levels.size) :
    (s.add l state).2.level l = (s.level l).push s.nodes.size := Array.getD_modify_self h

theorem level_add_ne {l' : Nat} (h : l ≠ l') : (s.add l state).2.level l' = s.level l' :=
  Array.getD_modify_ne h

theorem edges_add (id : StackId) : ((s.add l state).2.node id).edges = (s.node id).edges := by
  rcases Nat.lt_trichotomy id s.nodes.size with hlt | rfl | hgt
  · rw [node_add_lt hlt]
  · rw [node_add_size, node_of_size_le (Nat.le_refl _)]
    rfl
  · rw [node_of_size_le (Nat.le_of_lt hgt), node_of_size_le (by rw [size_add]; exact hgt)]

theorem growsAt_add : s.GrowsAt l (s.add l state).2 where
  size_le := by rw [size_add]; exact Nat.le_succ _
  state_eq id hid := by rw [node_add_lt hid]
  level_eq id hid := by rw [node_add_lt hid]
  mem_edges id e he := by rwa [node_add_lt (lt_size_of_mem_edges he)]
  node_eq id hid _ := node_add_lt hid
  level_new id hid hlt := by
    rw [size_add] at hlt
    rw [Nat.le_antisymm (Nat.le_of_lt_succ hlt) hid, node_add_size]
  levels_size := Array.size_modify
  limit_eq := rfl

/-- A node is added that its level does not have. -/
theorem Indexed.add (h : s.Indexed) (hl : l < s.levels.size)
    (hnew : ∀ id ∈ s.level l, (s.node id).state ≠ state) : (s.add l state).2.Indexed := by
  have hsize : (s.add l state).2.nodes.size = s.nodes.size + 1 := size_add
  have hcases : ∀ {id}, id < s.nodes.size + 1 → (id < s.nodes.size ∧
      (s.add l state).2.node id = s.node id) ∨
      (id = s.nodes.size ∧ (s.add l state).2.node id = ⟨state, l, #[]⟩) := by
    intro id hid
    rcases Nat.lt_or_eq_of_le (Nat.le_of_lt_succ hid) with hlt | rfl
    · exact .inl ⟨hlt, node_add_lt hlt⟩
    · exact .inr ⟨rfl, node_add_size⟩
  refine ⟨fun l' id => ?_, fun l' => ?_, fun id hid id' hid' hs hl' => ?_, fun id e he => ?_,
    fun id => ?_⟩
  · rw [hsize]
    by_cases hll : l = l'
    · subst hll
      rw [level_add_self hl, Array.mem_push, h.mem_level_iff]
      constructor
      · rintro (⟨hlt, hlev⟩ | rfl)
        · exact ⟨Nat.lt_succ_of_lt hlt, by rw [node_add_lt hlt, hlev]⟩
        · exact ⟨Nat.lt_succ_self _, by rw [node_add_size]⟩
      · rintro ⟨hlt, hlev⟩
        rcases hcases hlt with ⟨hlt, he⟩ | ⟨he, -⟩
        · exact .inl ⟨hlt, he ▸ hlev⟩
        · exact .inr he
    · rw [level_add_ne hll, h.mem_level_iff]
      constructor
      · rintro ⟨hlt, hlev⟩
        exact ⟨Nat.lt_succ_of_lt hlt, by rw [node_add_lt hlt, hlev]⟩
      · rintro ⟨hlt, hlev⟩
        rcases hcases hlt with ⟨hlt, he⟩ | ⟨-, he⟩
        · exact ⟨hlt, he ▸ hlev⟩
        · rw [he] at hlev
          exact absurd hlev hll
  · by_cases hll : l = l'
    · subst hll
      rw [level_add_self hl, Array.toList_push, List.nodup_append]
      refine ⟨h.nodup_level l, List.nodup_singleton _, fun id hid id' hid' => ?_⟩
      rw [List.mem_singleton.1 hid']
      exact Nat.ne_of_lt ((h.mem_level_iff l id).1 (Array.mem_toList_iff.1 hid)).1
    · rw [level_add_ne hll]
      exact h.nodup_level l'
  · rw [hsize] at hid hid'
    rcases hcases hid with ⟨hlt, he⟩ | ⟨hid, he⟩ <;>
      rcases hcases hid' with ⟨hlt', he'⟩ | ⟨hid', he'⟩ <;> rw [he, he'] at hs hl'
    · exact h.unique id hlt id' hlt' hs hl'
    · exact absurd hs (hnew id ((h.mem_level_iff l id).2 ⟨hlt, hl'⟩))
    · exact absurd hs.symm (hnew id' ((h.mem_level_iff l id').2 ⟨hlt', hl'.symm⟩))
    · rw [hid, hid']
  · rw [hsize]
    rcases hcases (hsize ▸ lt_size_of_mem_edges he) with ⟨-, he'⟩ | ⟨-, he'⟩ <;> rw [he'] at he
    · exact Nat.lt_succ_of_lt (h.target_lt id e he)
    · simp at he
  · by_cases hid : id < s.nodes.size + 1
    · rcases hcases hid with ⟨-, he⟩ | ⟨-, he⟩ <;> rw [he]
      · exact h.nodup_edges id
      · exact List.nodup_nil
    · rw [node_of_size_le (hsize ▸ Nat.not_lt.1 hid)]
      exact List.nodup_nil

end Add

/-- There is no room for the node of a state at a level, which does not have one. -/
structure Full (s : GraphStack) (l : Nat) (state : StateId) : Prop where
  limit_le : s.limit ≤ s.nodes.size ∨ idLimit ≤ s.nodes.size
  indexed_add : (s.add l state).2.Indexed

/-- The node of a state at a level is found, or made without edges. -/
theorem Indexed.intern {l : Nat} (h : s.Indexed) (hl : l < s.levels.size) (state : StateId) :
    (s.intern l state = .error (.stackLimit s.limit) ∧ s.Full l state) ∨
    ∃ id created s', s.intern l state = .ok (id, created, s') ∧ s'.Indexed ∧ s.GrowsAt l s' ∧
      id < s'.nodes.size ∧ (s'.node id).state = state ∧ (s'.node id).level = l ∧
      ((created = false ∧ s' = s) ∨ (created = true ∧ s' = (s.add l state).2 ∧ id = s.nodes.size)) := by
  rw [GraphStack.intern]
  cases hf : s.find? l state with
  | some id =>
    obtain ⟨hid, hs⟩ := find?_eq_some hf
    obtain ⟨hlt, hlev⟩ := (h.mem_level_iff l id).1 hid
    exact .inr ⟨id, false, s, rfl, h, .refl l s, hlt, hs, hlev, .inl ⟨rfl, rfl⟩⟩
  | none =>
    have hadd := h.add hl (find?_eq_none hf)
    dsimp only
    split
    · rename_i hfull
      exact .inl ⟨rfl, hfull, hadd⟩
    · refine .inr ⟨_, true, _, rfl, hadd, growsAt_add, ?_, ?_, ?_, .inr ⟨rfl, rfl, rfl⟩⟩
      · exact Nat.lt_of_lt_of_eq (Nat.lt_succ_self _) size_add.symm
      · exact congrArg StackNode.state node_add_size
      · exact congrArg StackNode.level node_add_size

/-! ## Edges -/

section Edge

variable {source : StackId} {e : StackEdge}

theorem size_addEdge : (s.addEdge source e).nodes.size = s.nodes.size := Array.size_modify

theorem node_addEdge_self (h : source < s.nodes.size) :
    (s.addEdge source e).node source =
      { s.node source with edges := (s.node source).edges.push e } := Array.getD_modify_self h

theorem node_addEdge_ne {id : StackId} (h : source ≠ id) :
    (s.addEdge source e).node id = s.node id := Array.getD_modify_ne h

theorem mem_edges_addEdge_iff (h : source < s.nodes.size) {id : StackId} {e' : StackEdge} :
    e' ∈ ((s.addEdge source e).node id).edges ↔
      e' ∈ (s.node id).edges ∨ (id = source ∧ e' = e) := by
  by_cases hid : source = id
  · subst hid
    simp [node_addEdge_self h]
  · rw [node_addEdge_ne hid]
    simp [Ne.symm hid]

theorem head_addEdge (id : StackId) : ((s.addEdge source e).node id).state = (s.node id).state ∧
    ((s.addEdge source e).node id).level = (s.node id).level := by
  by_cases hlt : source < s.nodes.size
  · by_cases hid : source = id
    · subst hid
      rw [node_addEdge_self hlt]
      exact ⟨rfl, rfl⟩
    · rw [node_addEdge_ne hid]
      exact ⟨rfl, rfl⟩
  · have : (s.addEdge source e).node id = s.node id := by
      by_cases hid : source = id
      · subst hid
        rw [node_of_size_le (Nat.not_lt.1 hlt),
          node_of_size_le (by rw [size_addEdge]; exact Nat.not_lt.1 hlt)]
      · exact node_addEdge_ne hid
    rw [this]
    exact ⟨rfl, rfl⟩

theorem growsAt_addEdge {l : Nat} (h : source < s.nodes.size) (hl : (s.node source).level = l) :
    s.GrowsAt l (s.addEdge source e) where
  size_le := Nat.le_of_eq size_addEdge.symm
  state_eq id _ := (head_addEdge id).1
  level_eq id _ := (head_addEdge id).2
  mem_edges _ _ he' := (mem_edges_addEdge_iff h).2 (.inl he')
  node_eq _ _ hne := node_addEdge_ne fun he => hne (he ▸ hl)
  level_new _ hid hid' := absurd (size_addEdge ▸ hid') (Nat.not_lt.2 hid)
  levels_size := rfl
  limit_eq := rfl

/-- An edge is added that the node does not have. -/
theorem Indexed.addEdge (h : s.Indexed) (hs : source < s.nodes.size) (ht : e.target < s.nodes.size)
    (hnew : e ∉ (s.node source).edges) : (s.addEdge source e).Indexed := by
  refine ⟨fun l id => ?_, h.nodup_level, fun id hid id' hid' hst hlev => ?_, fun id e' he' => ?_,
    fun id => ?_⟩
  · rw [size_addEdge, (head_addEdge id).2]
    exact h.mem_level_iff l id
  · rw [size_addEdge] at hid hid'
    rw [(head_addEdge id).1, (head_addEdge id').1] at hst
    rw [(head_addEdge id).2, (head_addEdge id').2] at hlev
    exact h.unique id hid id' hid' hst hlev
  · rw [size_addEdge]
    rcases (mem_edges_addEdge_iff hs).1 he' with he' | ⟨-, rfl⟩
    · exact h.target_lt id e' he'
    · exact ht
  · by_cases hid : source = id
    · subst hid
      rw [node_addEdge_self hs, Array.toList_push, List.nodup_append]
      refine ⟨h.nodup_edges source, List.nodup_singleton _, fun e₁ he₁ e₂ he₂ => ?_⟩
      rintro rfl
      rw [List.mem_singleton] at he₂
      exact hnew (he₂ ▸ Array.mem_toList_iff.1 he₁)
    · rw [node_addEdge_ne hid]
      exact h.nodup_edges id

end Edge

/-! ## Counting edges -/

theorem sum_map_modify {α : Type} (f : α → α) (w : α → Nat) (xs : List α) (i : Nat)
    (h : i < xs.length) (hf : ∀ x, w (f x) = w x + 1) :
    ((xs.modify i f).map w).sum = (xs.map w).sum + 1 := by
  induction xs generalizing i with
  | nil => cases h
  | cons x xs ih =>
    cases i with
    | zero =>
      simp only [List.modify_zero_cons, List.map_cons, List.sum_cons, hf]
      omega
    | succ i =>
      simp only [List.modify_succ_cons, List.map_cons, List.sum_cons,
        ih i (Nat.lt_of_succ_lt_succ h), Nat.add_assoc]

theorem edgeTotal_add {l : Nat} {state : StateId} : (s.add l state).2.edgeTotal = s.edgeTotal := by
  simp [edgeTotal, GraphStack.add]

theorem edgeTotal_addEdge {source : StackId} {e : StackEdge} (h : source < s.nodes.size) :
    (s.addEdge source e).edgeTotal = s.edgeTotal + 1 := by
  rw [edgeTotal, GraphStack.addEdge, Array.toList_modify]
  exact sum_map_modify _ _ _ _ (by simpa using h) fun n => by simp

/-- There are no more nodes than pairs of a level and a state. -/
theorem Indexed.size_le (h : s.Indexed) {n : Nat} (hstate : ∀ id < s.nodes.size, (s.node id).state < n) :
    s.nodes.size ≤ s.levels.size * n := by
  have hnodup : ((List.range s.nodes.size).map fun id =>
      ((s.node id).level, (s.node id).state)).Nodup := by
    refine (List.nodup_map_iff_inj_on List.nodup_range).2 fun id hid id' hid' he => ?_
    obtain ⟨hl, hs⟩ := Prod.mk.inj he
    exact h.unique id (List.mem_range.1 hid) id' (List.mem_range.1 hid') hs hl
  have hsub : ((List.range s.nodes.size).map fun id => ((s.node id).level, (s.node id).state)) ⊆
      List.range s.levels.size ×ˢ List.range n := by
    intro x hx
    obtain ⟨id, hid, rfl⟩ := List.mem_map.1 hx
    have hid := List.mem_range.1 hid
    refine List.pair_mem_product.2 ⟨List.mem_range.2 ?_, List.mem_range.2 (hstate id hid)⟩
    by_contra hge
    have hmem := (h.mem_level_iff _ id).2 ⟨hid, rfl⟩
    rw [level, Array.getD_of_size_le (Nat.not_lt.1 hge)] at hmem
    simp at hmem
  simpa [List.length_product] using (List.subperm_of_subset hnodup hsub).length_le

/-- A node for which there is no room is not one too many. -/
theorem Full.size_lt {l : Nat} {state : StateId} (h : s.Full l state) {n : Nat}
    (hstate : ∀ id < s.nodes.size, (s.node id).state < n) (hn : state < n) :
    s.nodes.size < s.levels.size * n := by
  have hle := h.indexed_add.size_le (n := n) fun id hid => by
    rw [size_add] at hid
    rcases Nat.lt_or_eq_of_le (Nat.le_of_lt_succ hid) with hlt | rfl
    · rw [node_add_lt hlt]
      exact hstate id hlt
    · rw [node_add_size]
      exact hn
  rwa [size_add, growsAt_add.levels_size] at hle

/-- A node has no more edges than there are nodes, if no two of them lead to the same one. -/
theorem Indexed.size_edges_le (h : s.Indexed) {id : StackId} (hunique : ∀ e ∈ (s.node id).edges,
    ∀ e' ∈ (s.node id).edges, e.target = e'.target → e = e') :
    (s.node id).edges.size ≤ s.nodes.size := by
  have hnodup : ((s.node id).edges.toList.map StackEdge.target).Nodup :=
    (List.nodup_map_iff_inj_on (h.nodup_edges id)).2 fun e he e' he' =>
      hunique e (Array.mem_toList_iff.1 he) e' (Array.mem_toList_iff.1 he')
  have hsub : (s.node id).edges.toList.map StackEdge.target ⊆ List.range s.nodes.size := by
    intro t ht
    obtain ⟨e, he, rfl⟩ := List.mem_map.1 ht
    exact List.mem_range.2 (h.target_lt id e (Array.mem_toList_iff.1 he))
  simpa using (List.subperm_of_subset hnodup hsub).length_le

/-- There are no more edges than pairs of nodes, if there is at most one between two nodes. -/
theorem Indexed.edgeTotal_le (h : s.Indexed) (hunique : ∀ id, ∀ e ∈ (s.node id).edges,
    ∀ e' ∈ (s.node id).edges, e.target = e'.target → e = e') :
    s.edgeTotal ≤ s.nodes.size * s.nodes.size := by
  have hnode : ∀ n ∈ s.nodes.toList, n.edges.size ≤ s.nodes.size := by
    intro n hn
    obtain ⟨id, hid, rfl⟩ := List.getElem_of_mem hn
    have hid' : id < s.nodes.size := by simpa using hid
    have he : s.node id = s.nodes[id] := by simp [node, Array.getD, hid']
    rw [Array.getElem_toList, ← he]
    exact h.size_edges_le fun e he e' he' => hunique id e he e' he'
  have hsum : ∀ (ns : List StackNode), (∀ n ∈ ns, n.edges.size ≤ s.nodes.size) →
      (ns.map fun n => n.edges.size).sum ≤ ns.length * s.nodes.size := by
    intro ns hns
    induction ns with
    | nil => simp
    | cons n ns ih =>
      rw [List.map_cons, List.sum_cons, List.length_cons, Nat.succ_mul, Nat.add_comm]
      exact Nat.add_le_add (ih fun n hn => hns n (.tail _ hn)) (hns n (.head _))
  simpa [edgeTotal] using hsum s.nodes.toList hnode

/-! ## Linking -/

/-- The node of a state at a level has been found or made, and has got an edge. -/
structure Links (l : Nat) (q : StateId) (edge : StackEdge) (s s' : GraphStack) (id : StackId)
    (created isNew : Bool) : Prop where
  indexed : s'.Indexed
  growsAt : s.GrowsAt l s'
  lt_size : id < s'.nodes.size
  state_eq : (s'.node id).state = q
  level_eq : (s'.node id).level = l
  mem_edges : edge ∈ (s'.node id).edges
  node_cases : ∀ id' < s'.nodes.size, id' < s.nodes.size ∨ (created = true ∧ id' = id)
  edge_cases : ∀ id', ∀ edge' ∈ (s'.node id').edges,
    edge' ∈ (s.node id').edges ∨ (isNew = true ∧ id' = id ∧ edge' = edge)
  isNew_of_created : created = true → isNew = true
  edgeTotal_eq : s'.edgeTotal = s.edgeTotal + isNew.toNat

/-- A node that has been found or made gets an edge, unless it has it. -/
theorem Indexed.link (h : s.Indexed) {l : Nat} (hl : l < s.levels.size) (q : StateId)
    {edge : StackEdge} (ht : edge.target < s.nodes.size) :
    (s.intern l q = .error (.stackLimit s.limit) ∧ s.Full l q) ∨
    ∃ id created s₁, s.intern l q = .ok (id, created, s₁) ∧
      ((s₁.hasEdge id edge = true ∧ Links l q edge s s₁ id created false) ∨
        (s₁.hasEdge id edge = false ∧ Links l q edge s (s₁.addEdge id edge) id created true)) := by
  rcases h.intern hl q with herr | ⟨id, created, s₁, hok, hi, hg, hlt, hst, hlev, hcreated⟩
  · exact .inl herr
  refine .inr ⟨id, created, s₁, hok, ?_⟩
  have hnodes : ∀ id' < s₁.nodes.size, id' < s.nodes.size ∨ (created = true ∧ id' = id) := by
    intro id' hid'
    rcases hcreated with ⟨-, rfl⟩ | ⟨hc, rfl, rfl⟩
    · exact .inl hid'
    · rw [size_add] at hid'
      exact (Nat.lt_or_eq_of_le (Nat.le_of_lt_succ hid')).imp_right fun he => ⟨hc, he⟩
  have hedges : ∀ id', (s₁.node id').edges = (s.node id').edges := by
    intro id'
    rcases hcreated with ⟨-, rfl⟩ | ⟨-, rfl, -⟩
    · rfl
    · exact edges_add id'
  have htotal : s₁.edgeTotal = s.edgeTotal := by
    rcases hcreated with ⟨-, rfl⟩ | ⟨-, rfl, -⟩
    · rfl
    · exact edgeTotal_add
  by_cases hmem : edge ∈ (s₁.node id).edges
  · refine .inl ⟨Array.contains_iff_mem.2 hmem, hi, hg, hlt, hst, hlev, hmem, hnodes,
      fun id' edge' he => .inl (hedges id' ▸ he), fun hc => ?_, htotal⟩
    -- a node that has just been made has no edges
    rcases hcreated with ⟨hc', -⟩ | ⟨-, rfl, rfl⟩
    · rw [hc] at hc'
      cases hc'
    · rw [node_add_size] at hmem
      cases hmem
      contradiction
  · have hgrows : s₁.GrowsAt l (s₁.addEdge id edge) := growsAt_addEdge hlt hlev
    refine .inr ⟨Bool.eq_false_iff.2 fun hc => hmem (Array.contains_iff_mem.1 hc),
      hi.addEdge hlt (Nat.lt_of_lt_of_le ht hg.size_le) hmem, hg.trans hgrows,
      Nat.lt_of_lt_of_eq hlt size_addEdge.symm, (head_addEdge id).1.trans hst,
      (head_addEdge id).2.trans hlev, (mem_edges_addEdge_iff hlt).2 (.inr ⟨rfl, rfl⟩),
      fun id' hid' => hnodes id' (size_addEdge ▸ hid'), fun id' edge' he => ?_, fun _ => rfl, ?_⟩
    · rcases (mem_edges_addEdge_iff hlt).1 he with he | ⟨h₁, h₂⟩
      · exact .inl (hedges id' ▸ he)
      · exact .inr ⟨rfl, h₁, h₂⟩
    · rw [edgeTotal_addEdge hlt, htotal]
      rfl

end GraphStack

end ParseForest
