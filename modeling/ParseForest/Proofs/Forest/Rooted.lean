import ParseForest.Proofs.Forest.Collapsing
import ParseForest.Proofs.Forest.Enumerating

/-!
# What cannot be reached does not matter

The cycles of an arena may be where its root does not reach (`Arena.Rooted`). Taking the children of
everything else away leaves an arena that has ranks and agrees with it on what is in use
(`Arena.Rooted.exists_ranked`). Arenas that agree stand for the same (`Arena.Agrees.readings`), stay so when
they are collapsed (`Arena.Agrees.collapseAll`), and are counted and numbered alike, whatever the tokens
(`Forest.trees_congr`).
-/

namespace ParseForest

namespace Arena

/-- An arena with a root: choices and alternatives alternate, the first node is the leaf of the empty string,
and no cycle can be reached. -/
structure Rooted (nodes : Arena) (root : NodeId) : Prop extends Layered nodes where
  root_lt : root < nodes.size
  epsilon : (node nodes epsilonId).kind = .epsilon
  leaf : childrenOf nodes epsilonId = []
  acyclic : ¬ nodes.Cyclic root

/-- What can be reached from the root, and the empty string, which every arena holds. -/
def InUse (nodes : Arena) (root id : NodeId) : Prop := nodes.Reachable root id ∨ id = epsilonId

/-- The arenas have the same heads, and the same children where it matters. -/
structure Agrees (S : NodeId → Prop) (nodes nodes' : Arena) : Prop extends SameHeads nodes nodes' where
  closed : ∀ id, S id → ∀ c ∈ childrenOf nodes id, S c
  children_eq : ∀ id, S id → childrenOf nodes' id = childrenOf nodes id

variable {nodes nodes' : Arena} {g : Grammar} {tokens : TokenStream} {root id : NodeId} {S : NodeId → Prop}

/-! ## Agreement -/

theorem Agrees.symm (h : Agrees S nodes nodes') : Agrees S nodes' nodes :=
  ⟨h.toSameHeads.symm, fun id hid c hc => h.closed id hid c (by rwa [← h.children_eq id hid]),
    fun id hid => (h.children_eq id hid).symm⟩

/-- Where arenas agree, nodes stand for the same. -/
theorem Agrees.readings (h : Agrees S nodes nodes') (fuel : Nat) (hid : S id) :
    nodes'.readings g tokens fuel id = nodes.readings g tokens fuel id := by
  induction fuel generalizing id with
  | zero => rfl
  | succ fuel ih =>
    have hmap : (childrenOf nodes id).map (nodes'.readings g tokens fuel) =
        (childrenOf nodes id).map (nodes.readings g tokens fuel) :=
      List.map_congr_left fun c hc => ih (h.closed id hid c hc)
    simp only [Arena.readings, h.kind_eq, h.children_eq id hid]
    cases (node nodes id).kind with
    | symbol A =>
      simp only [List.flatMap_def]
      refine congrArg List.flatten (List.map_congr_left fun p hp => ?_)
      rw [ih (h.closed id hid p hp)]
    | intermediate A alt dot =>
      simp only [List.flatMap_def]
      rw [hmap]
    | packed A alt => simp only [hmap]
    | nulled A alt dot => simp only [hmap]
    | terminal i => rfl
    | epsilon => rfl

theorem Agrees.allReadings_eq (h : Agrees S nodes nodes') (hid : S id) :
    nodes'.allReadings g tokens id = nodes.allReadings g tokens id := by
  rw [allReadings, allReadings, h.size_eq]
  exact h.readings _ hid

/-- What is below a node in one arena is below it in the other. -/
theorem Agrees.below (h : Agrees S nodes nodes') {a : NodeId} (ha : S a) (hid : nodes.Below a id) :
    S id ∧ nodes'.Below a id := by
  induction hid with
  | single hc => exact ⟨h.closed a ha _ hc, .single (by rwa [h.children_eq a ha])⟩
  | tail _ hc ih => exact ⟨h.closed _ ih.1 _ hc, .tail ih.2 (by rwa [h.children_eq _ ih.1])⟩

/-- An arena that agrees with one that has ranks has no cycles. -/
theorem Agrees.acyclic {rank : NodeId → Nat} (h : Agrees S nodes nodes') (hr : nodes'.Ranked rank)
    (hroot : S root) : ¬ nodes.Cyclic root := by
  rintro ⟨id, hid, hbelow⟩
  exact hr.not_below id (h.below (hid.of_closed h.closed hroot) hbelow).2

/-! ## What is in use -/

namespace Rooted

variable (h : nodes.Rooted root)
include h

theorem closed_inUse : ∀ id, nodes.InUse root id → ∀ c ∈ childrenOf nodes id, nodes.InUse root c := by
  rintro id (hid | rfl) c hc
  · exact .inl (hid.child hc)
  · rw [h.leaf] at hc
    cases hc

/-- Below the root, children are of lower rank. -/
theorem exists_rank : ∃ rank : NodeId → Nat, (∀ id, rank id ≤ nodes.size) ∧
    (∀ id, nodes.InUse root id → ∀ c ∈ childrenOf nodes id, rank c < rank id) ∧ rank epsilonId = 0 := by
  have hirr : ∀ a, ¬ Relation.TransGen (fun a c => nodes.InUse root a ∧ c ∈ childrenOf nodes a) a a := by
    intro a hcycle
    have hbelow : nodes.Below a a := Relation.TransGen.mono (fun _ _ hc => hc.2) _ _ hcycle
    obtain ⟨c, ⟨ha, hc⟩, -⟩ := Relation.TransGen.head'_iff.1 hcycle
    rcases ha with ha | rfl
    · exact h.acyclic ⟨a, ha, hbelow⟩
    · rw [h.leaf] at hc
      cases hc
  obtain ⟨rank, hle, hlt, hzero⟩ := ParseForest.exists_rank (fun a c hc => h.closed a c hc.2) hirr
  refine ⟨rank, hle, fun id hid c hc => hlt id c ⟨hid, hc⟩, hzero epsilonId fun c hc => ?_⟩
  have hc := hc.2
  rw [h.leaf] at hc
  cases hc

/-- Taking alternatives away from choices keeps an arena rooted. -/
theorem trims (ht : Trims nodes nodes') : nodes'.Rooted root := by
  refine ⟨h.toLayered.trims ht, by rw [ht.size_eq]; exact h.root_lt, (ht.kind_eq _).trans h.epsilon, ?_, ?_⟩
  · rw [ht.children_eq _ (by rw [Node.isChoice, h.epsilon]; exact Bool.false_ne_true)]
    exact h.leaf
  · rintro ⟨id, hid, hbelow⟩
    exact h.acyclic ⟨id, ht.reachable hid, Relation.TransGen.mono (fun _ _ hc => ht.mem_children hc) _ _ hbelow⟩

end Rooted

/-- An arena is rooted if children are of lower rank, and packed exactly below choices. -/
theorem Rooted.of_ranks (rank : NodeId → Nat) (hroot : root < nodes.size)
    (hε : (node nodes epsilonId).kind = .epsilon) (hleaf : childrenOf nodes epsilonId = [])
    (h : ∀ id < nodes.size, ∀ c ∈ childrenOf nodes id,
      c < nodes.size ∧ (node nodes c).isPacked = (node nodes id).isChoice ∧ rank c < rank id) :
    nodes.Rooted root := by
  have h : ∀ id, ∀ c ∈ childrenOf nodes id,
      c < nodes.size ∧ (node nodes c).isPacked = (node nodes id).isChoice ∧ rank c < rank id := by
    intro id c hc
    refine h id ?_ c hc
    by_contra hge
    rw [childrenOf, node_of_size_le (Nat.not_lt.1 hge)] at hc
    cases hc
  refine ⟨⟨fun id c hc => (h id c hc).1, fun id hc p hp => (h id p hp).2.1.trans hc,
    fun id p hp hpk => (h id p hp).2.1.symm.trans hpk⟩, hroot, hε, hleaf, ?_⟩
  rintro ⟨id, -, hcycle⟩
  exact not_transGen_of_lt rank (fun a c hc => (h a c hc).2.2) id hcycle

/-- The arena without the children of what cannot be reached. -/
def cut (nodes : Arena) (root : NodeId) : Arena :=
  nodes.mapIdx fun id n => if (live nodes root).getD id false then n else { n with children := #[] }

theorem node_cut (id : NodeId) : node (cut nodes root) id =
    if (live nodes root).getD id false then node nodes id else { node nodes id with children := #[] } := by
  rcases Nat.lt_or_ge id nodes.size with hlt | hge
  · have hnode : node nodes id = nodes[id] := by simp [node, Array.getD, hlt]
    rw [node, cut, Array.getD_mapIdx (Array.getElem?_eq_getElem hlt), hnode]
  · rw [node_of_size_le hge, node_of_size_le (by simpa [cut] using hge)]
    split <;> rfl

theorem sameHeads_cut (nodes : Arena) (root : NodeId) : SameHeads nodes (cut nodes root) := by
  refine ⟨by simp [cut], fun id => ?_, fun id => ?_⟩ <;> rw [node_cut] <;> split <;> rfl

theorem childrenOf_cut (id : NodeId) : childrenOf (cut nodes root) id =
    if (live nodes root).getD id false then childrenOf nodes id else [] := by
  rw [childrenOf, node_cut, childrenOf]
  split <;> rfl

theorem mem_children_of_cut {c : NodeId} (hc : c ∈ childrenOf (cut nodes root) id) :
    (live nodes root).getD id false = true ∧ c ∈ childrenOf nodes id := by
  rw [childrenOf_cut] at hc
  split at hc
  · exact ⟨‹_›, hc⟩
  · cases hc

/-- There is an arena with ranks that agrees with a rooted one on what is in use. -/
theorem Rooted.exists_ranked (h : nodes.Rooted root) : ∃ kept rank, Agrees (nodes.InUse root) nodes kept ∧
    kept.Layered ∧ kept.Ranked rank := by
  have hheads := sameHeads_cut nodes root
  have hlive := fun id => @live_iff_reachable nodes root id h.root_lt h.closed
  obtain ⟨rank, hle, hlt, hzero⟩ := h.exists_rank
  refine ⟨cut nodes root, rank, ⟨hheads, h.closed_inUse, fun id hid => ?_⟩, ⟨fun id c hc => ?_,
    fun id hc p hp => ?_, fun id p hp hpk => ?_⟩, ⟨fun id c hc => ?_, fun id => ?_, hzero⟩⟩
  · rw [childrenOf_cut]
    rcases hid with hid | rfl
    · rw [if_pos ((hlive id).2 hid)]
    · rw [h.leaf, ite_self]
  · rw [hheads.size_eq]
    exact h.closed id c (mem_children_of_cut hc).2
  · rw [hheads.isChoice_eq] at hc
    rw [hheads.isPacked_eq]
    exact h.isPacked id hc p (mem_children_of_cut hp).2
  · rw [hheads.isPacked_eq] at hpk
    rw [hheads.isChoice_eq]
    exact h.owner id p (mem_children_of_cut hp).2 hpk
  · obtain ⟨hmark, hc⟩ := mem_children_of_cut hc
    exact hlt id (.inl ((hlive id).1 hmark)) c hc
  · rw [hheads.size_eq]
    exact hle id

/-! ## Collapsing -/

section

variable (h : Agrees S nodes nodes')
include h

theorem Agrees.splice?_eq (hid : S id) : Pass.splice? nodes' id = Pass.splice? nodes id := by
  have hchildren := h.children_eq id hid
  rw [childrenOf, childrenOf] at hchildren
  simp only [Pass.splice?, h.kind_eq, hchildren]

theorem Agrees.closed_splice? {inner : NodeId} (hid : S id) (hs : Pass.splice? nodes id = some inner) :
    S inner := by
  rcases Pass.splice?_eq_some hs with ⟨A, alt, dot, -, hchildren⟩ | ⟨A, alt, dot, -, rfl⟩
  · exact h.closed id hid inner (by simp [hchildren])
  · exact hid

theorem Agrees.spliced_eq (fuel : Nat) (hid : S id) :
    Pass.spliced nodes' fuel id = Pass.spliced nodes fuel id := by
  induction fuel generalizing id with
  | zero => rfl
  | succ fuel ih =>
    rw [Pass.spliced, Pass.spliced, h.splice?_eq hid]
    cases hs : Pass.splice? nodes id with
    | none => rfl
    | some inner =>
      have hinner := h.closed_splice? hid hs
      dsimp only
      rw [h.children_eq inner hinner, List.flatMap_def, List.flatMap_def]
      exact congrArg List.flatten (List.map_congr_left fun c hc => ih (h.closed inner hinner c hc))

theorem Agrees.flatChildren_eq (hid : S id) : Pass.flatChildren nodes' id = Pass.flatChildren nodes id := by
  have hflat : (childrenOf nodes id).flatMap (Pass.spliced nodes' (nodes.size + 1)) =
      (childrenOf nodes id).flatMap (Pass.spliced nodes (nodes.size + 1)) := by
    rw [List.flatMap_def, List.flatMap_def]
    exact congrArg List.flatten (List.map_congr_left fun c hc => h.spliced_eq _ (h.closed id hid c hc))
  rw [Pass.flatChildren, Pass.flatChildren, h.children_eq id hid, h.size_eq, hflat]

theorem Agrees.needsSplice_eq (hid : S id) : Pass.needsSplice nodes' id = Pass.needsSplice nodes id := by
  have hchildren := h.children_eq id hid
  have hany : (childrenOf nodes id).any (fun c => (Pass.splice? nodes' c).isSome) =
      (childrenOf nodes id).any fun c => (Pass.splice? nodes c).isSome := by
    rw [Bool.eq_iff_iff, List.any_eq_true, List.any_eq_true]
    refine exists_congr fun c => and_congr_right fun hc => ?_
    rw [h.splice?_eq (h.closed id hid c hc)]
  rw [childrenOf, childrenOf] at hchildren
  rw [childrenOf] at hany
  rw [Pass.needsSplice, Pass.needsSplice, h.toSameHeads.isPacked_eq, ← Array.any_toList, ← Array.any_toList,
    hchildren, hany]

/-- Replacing the children of a node that matters by others that do. -/
theorem Agrees.setChildren {children : Array NodeId} (hS : ∀ c ∈ children.toList, S c) (hlt : id < nodes.size) :
    Agrees S (setChildren nodes id children) (setChildren nodes' id children) := by
  have hchildren : ∀ {current : Arena}, current.size = nodes.size → ∀ i,
      childrenOf (Arena.setChildren current id children) i =
        if id = i then children.toList else childrenOf current i := by
    intro current hsize i
    split
    · rename_i he
      subst he
      exact childrenOf_setChildren_self (hsize ▸ hlt)
    · rename_i he
      exact childrenOf_setChildren_ne he
  refine ⟨⟨?_, fun i => ?_, fun i => ?_⟩, fun i hi c hc => ?_, fun i hi => ?_⟩
  · rw [size_setChildren, size_setChildren, h.size_eq]
  · rw [(sameHeads_setChildren _ _).kind_eq, (sameHeads_setChildren _ _).kind_eq, h.kind_eq]
  · rw [(sameHeads_setChildren _ _).span_eq, (sameHeads_setChildren _ _).span_eq, h.span_eq]
  · rw [hchildren rfl] at hc
    split at hc
    · exact hS c hc
    · exact h.closed i hi c hc
  · rw [hchildren rfl, hchildren h.size_eq, h.children_eq i hi]

end

/-- Arenas that agree stay so when they are collapsed. -/
theorem Agrees.collapseAll (h : Agrees S nodes nodes') (hε : S epsilonId) {ids : List NodeId}
    (hids : ∀ id ∈ ids, S id) (changed : Bool) : Agrees S (Pass.collapseAll ids nodes changed).1
      (Pass.collapseAll ids nodes' changed).1 := by
  induction ids generalizing nodes nodes' changed with
  | nil => exact h
  | cons id ids ih =>
    have hid := hids id (.head _)
    have ih := fun {nodes nodes'} h => @ih nodes nodes' h fun i hi => hids i (.tail _ hi)
    rw [Pass.collapseAll, Pass.collapseAll, h.needsSplice_eq hid]
    split
    · rename_i hneeds
      refine ih ?_ true
      rw [h.flatChildren_eq hid]
      refine h.setChildren (fun c hc => ?_) (lt_size_of_isPacked (Bool.and_eq_true_iff.1 hneeds).1)
      rcases Pass.mem_flatChildren hc with rfl | ⟨b, hb, hc⟩
      · exact hε
      · refine Pass.spliced_induction (P := S) (fun a inner hs ha d hd => ?_) _ (h.closed id hid b hb) hc
        exact h.closed inner (h.closed_splice? ha hs) d hd
    · exact ih h changed

end Arena

end ParseForest
