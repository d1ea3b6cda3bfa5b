import ParseForest.Proofs.Forest.Pruning
import Mathlib.Logic.Relation

/-!
# Reachability and parents

The walk from the root marks exactly what can be reached over children (`Arena.live_iff_reachable`). So
linking gives each node as parents exactly the nodes that can be reached and have it as a child, each once
(`Pass.parents_linkParents`).
-/

namespace ParseForest

/-! ## Reachability -/

/-- Whatever is marked when a walk ends was marked before, or can be reached from what was pending. -/
theorem visitAll_sound (next : Nat → List Nat) (pending : List Nat) (seen : Array Bool) {i : Nat}
    (h : (visitAll next pending seen).getD i false = true) : seen.getD i false = true ∨
      ∃ j ∈ pending, Relation.ReflTransGen (fun a b => b ∈ next a) j i := by
  fun_induction visitAll next pending seen with
  | case1 seen => exact .inl h
  | case2 seen j rest hj hs ih =>
    refine (ih h).imp_right ?_
    rintro ⟨k, hk, hpath⟩
    exact ⟨k, .tail _ hk, hpath⟩
  | case3 seen j rest hj hs ih =>
    rcases ih h with hm | ⟨k, hk, hpath⟩
    · by_cases he : j = i
      · exact .inr ⟨j, .head _, he ▸ .refl⟩
      · refine .inl ?_
        simpa [Array.getD_eq_getD_getElem?, he] using hm
    · rcases List.mem_append.1 hk with hk | hk
      · exact .inr ⟨j, .head _, .head hk hpath⟩
      · exact .inr ⟨k, .tail _ hk, hpath⟩
  | case4 seen j rest hj ih =>
    refine (ih h).imp_right ?_
    rintro ⟨k, hk, hpath⟩
    exact ⟨k, .tail _ hk, hpath⟩

namespace Arena

variable {nodes : Arena} {root id : NodeId}

/-- The node can be reached from the root over children. -/
def Reachable (nodes : Arena) (root id : NodeId) : Prop :=
  Relation.ReflTransGen (fun a c => c ∈ childrenOf nodes a) root id

theorem Reachable.child {c : NodeId} (h : nodes.Reachable root id) (hc : c ∈ childrenOf nodes id) :
    nodes.Reachable root c := .tail h hc

/-- What holds of the root and passes from nodes to their children holds of what can be reached. -/
theorem Reachable.of_closed {P : NodeId → Prop} (hclosed : ∀ id, P id → ∀ c ∈ childrenOf nodes id, P c)
    (hroot : P root) (h : nodes.Reachable root id) : P id := by
  induction h with
  | refl => exact hroot
  | tail _ hc ih => exact hclosed _ ih _ hc

/-- What is left of an arena reaches no further than before. -/
theorem Trims.reachable {nodes' : Arena} (h : Trims nodes nodes') (hid : nodes'.Reachable root id) :
    nodes.Reachable root id := hid.of_closed (fun _ ha _ hc => ha.child (h.mem_children hc)) .refl

/-- The walk from the root marks what can be reached. -/
theorem live_iff_reachable (hroot : root < nodes.size)
    (hclosed : ∀ a, ∀ c ∈ childrenOf nodes a, c < nodes.size) :
    (live nodes root).getD id false = true ↔ nodes.Reachable root id := by
  constructor
  · intro h
    rcases visitAll_sound _ _ _ h with h | ⟨j, hj, hpath⟩
    · simp [Array.getD_eq_getD_getElem?, Array.getElem?_replicate] at h
      split at h <;> simp at h
    · exact List.mem_singleton.1 hj ▸ hpath
  · intro h
    induction h with
    | refl => exact live_root hroot
    | tail _ hc ih => exact live_child ih hc (hclosed _ _ hc)

end Arena

/-! ## Parents -/

namespace Pass

open Arena

variable {nodes : Arena} {root id p : NodeId}

theorem parents_addParent {parent child : NodeId} (hid : id < nodes.size) :
    (node (addParent parent nodes child) id).parents =
      if child = id ∧ parent ∉ (node nodes id).parents then (node nodes id).parents.push parent
      else (node nodes id).parents := by
  by_cases h : child = id
  · subst h
    have hself : node (addParent parent nodes child) child = if (node nodes child).parents.contains parent
        then node nodes child else { node nodes child with
          parents := (node nodes child).parents.push parent } := Array.getD_modify_self hid
    rw [hself]
    by_cases hmem : parent ∈ (node nodes child).parents <;> simp [hmem]
  · rw [addParent, node, Array.getD_modify_ne h, if_neg fun hc => h hc.1]
    rfl

theorem mem_parents_addParent {parent child : NodeId} (hid : id < nodes.size) :
    p ∈ (node (addParent parent nodes child) id).parents ↔
      p ∈ (node nodes id).parents ∨ (p, id) = (parent, child) := by
  rw [parents_addParent hid, Prod.mk.injEq]
  split
  · rename_i h
    obtain ⟨rfl, -⟩ := h
    simp
  · rename_i h
    refine ⟨.inl, ?_⟩
    rintro (hp | ⟨rfl, rfl⟩)
    · exact hp
    · simpa using h

theorem nodup_parents_addParent {parent child : NodeId} (hid : id < nodes.size)
    (h : (node nodes id).parents.toList.Nodup) :
    (node (addParent parent nodes child) id).parents.toList.Nodup := by
  rw [parents_addParent hid]
  split
  · rename_i hnew
    rw [Array.toList_push, List.nodup_append]
    refine ⟨h, List.nodup_singleton _, fun a ha b hb he => hnew.2 ?_⟩
    rw [← List.mem_singleton.1 hb, ← he]
    exact Array.mem_toList_iff.1 ha
  · exact h

/-- Parents that are noted one after another. -/
theorem mem_parents_foldl_addParent (links : List (NodeId × NodeId)) (hid : id < nodes.size) :
    p ∈ (node (links.foldl (fun linked x => addParent x.1 linked x.2) nodes) id).parents ↔
      p ∈ (node nodes id).parents ∨ (p, id) ∈ links := by
  induction links generalizing nodes with
  | nil => simp
  | cons x links ih =>
    have hsize := (relinks_addParent x.1 nodes x.2).1
    rw [List.foldl_cons, ih (hsize.symm ▸ hid), mem_parents_addParent hid, List.mem_cons, or_assoc]

theorem nodup_parents_foldl_addParent (links : List (NodeId × NodeId)) (hid : id < nodes.size)
    (h : (node nodes id).parents.toList.Nodup) :
    (node (links.foldl (fun linked x => addParent x.1 linked x.2) nodes) id).parents.toList.Nodup := by
  induction links generalizing nodes with
  | nil => exact h
  | cons x links ih =>
    have hsize := (relinks_addParent x.1 nodes x.2).1
    exact ih (hsize.symm ▸ hid) (nodup_parents_addParent hid h)

/-- The pairs of a node that can be reached and one of its children. -/
def links (nodes : Arena) (root : NodeId) : List (NodeId × NodeId) :=
  (liveNodes nodes root).flatMap fun x => x.1.children.toList.map fun c => (x.2, c)

theorem linkAll_eq (root : NodeId) (nodes : Arena) : linkAll root nodes =
    (links nodes root).foldl (fun linked x => addParent x.1 linked x.2) (clearParents nodes) := by
  rw [linkAll, links, List.foldl_flatMap]
  congr
  funext linked x
  obtain ⟨n, i⟩ := x
  dsimp only
  rw [← Array.foldl_toList, List.foldl_map]

section

variable (hroot : root < nodes.size) (hclosed : ∀ a, ∀ c ∈ childrenOf nodes a, c < nodes.size)
include hroot hclosed

theorem mem_links_iff : (p, id) ∈ links nodes root ↔ nodes.Reachable root p ∧ id ∈ childrenOf nodes p := by
  rw [← live_iff_reachable hroot hclosed, links, List.mem_flatMap]
  constructor
  · rintro ⟨⟨n, i⟩, hlive, hmem⟩
    obtain ⟨c, hc, he⟩ := List.mem_map.1 hmem
    obtain ⟨rfl, rfl⟩ := Prod.mk.inj he
    obtain ⟨-, rfl, hmark⟩ := mem_liveNodes_iff.1 hlive
    exact ⟨hmark, hc⟩
  · rintro ⟨hlive, hc⟩
    have hlt : p < nodes.size := by
      by_contra hge
      rw [childrenOf, node_of_size_le (Nat.not_lt.1 hge)] at hc
      cases hc
    exact ⟨(node nodes p, p), mem_liveNodes_iff.2 ⟨hlt, rfl, hlive⟩, List.mem_map.2 ⟨id, hc, rfl⟩⟩

/-- The parents of a node are what can be reached and has it as a child, each once. -/
theorem parents_linkParents (g : Grammar) (id : NodeId) :
    (node (linkParents.run g root nodes).1 id).parents.toList.Nodup ∧
    ∀ p, p ∈ (node (linkParents.run g root nodes).1 id).parents ↔
      nodes.Reachable root p ∧ id ∈ childrenOf nodes p := by
  change (node (linkAll root nodes) id).parents.toList.Nodup ∧
    ∀ p, p ∈ (node (linkAll root nodes) id).parents ↔ _
  have hsize : (clearParents nodes).size = nodes.size := (relinks_clearParents nodes).1
  rw [linkAll_eq]
  by_cases hid : id < nodes.size
  · have hnone : (node (clearParents nodes) id).parents = #[] := by
      simp [node, clearParents, Array.getD, hid]
    refine ⟨nodup_parents_foldl_addParent _ (hsize.symm ▸ hid) (hnone ▸ List.nodup_nil), fun p => ?_⟩
    rw [mem_parents_foldl_addParent _ (hsize.symm ▸ hid), hnone, mem_links_iff hroot hclosed]
    simp
  · -- there is no such node
    have hrelinks := relinks_linkParents g root nodes
    have hnone : node (linkAll root nodes) id = default :=
      node_of_size_le (hrelinks.1.symm ▸ Nat.not_lt.1 hid)
    rw [← linkAll_eq, hnone]
    refine ⟨List.nodup_nil, fun p => ⟨fun hp => absurd hp (Array.not_mem_empty p), ?_⟩⟩
    rintro ⟨-, hc⟩
    exact absurd (hclosed p id hc) hid

end

end Pass

end ParseForest
