import ParseForest.Proofs.Forest.Linking
import ParseForest.Proofs.Forest.Stocked

/-!
# The normal form of forests

In a forest in normal form (`Arena.IsNormal`) every choice that can be reached has an alternative, every
alternative has a child, no child of an alternative is a part of a right-hand side that offers no choice,
and nodes are linked to their parents.

Pruning sees to the alternatives: what can be reached afterwards is the root, derives nothing, or is a
child of an alternative that is not dead (`Pass.children_ne_nil_of_pruned`). Collapsing then splices in
what offers no choice (`Pass.isFlat_collapseAll`): its fuel is enough because ranks fall below all but rule
nodes. It reaches nothing new but the empty string (`Pass.closed_collapseAll`).
-/

namespace ParseForest

namespace Arena

/-- A part of a right-hand side that offers no choice: it derives nothing, or has a single alternative. -/
def IsForced (nodes : Arena) (c : NodeId) : Prop :=
  (∃ A alt dot, (node nodes c).kind = .nulled A alt dot) ∨
    (∃ A alt dot, (node nodes c).kind = .intermediate A alt dot) ∧ (childrenOf nodes c).length = 1

/-- None of the children is a part without choice. -/
def IsFlat (nodes : Arena) (id : NodeId) : Prop := ∀ c ∈ childrenOf nodes id, ¬ nodes.IsForced c

/-- Below the root, choices have alternatives, and alternatives have children and are flat. -/
structure IsReduced (nodes : Arena) (root : NodeId) : Prop where
  choice : ∀ id, nodes.Reachable root id → (node nodes id).isChoice = true →
    ∃ p ∈ childrenOf nodes id, (node nodes p).isPacked = true
  packed : ∀ id, nodes.Reachable root id → (node nodes id).isPacked = true → childrenOf nodes id ≠ []
  flat : ∀ id, nodes.Reachable root id → (node nodes id).isPacked = true → nodes.IsFlat id

/-- The forest below the root is in normal form: it is reduced, and the parents of a node are what can be
reached and has it as a child. -/
structure IsNormal (nodes : Arena) (root : NodeId) : Prop extends IsReduced nodes root where
  nodup : ∀ id, (node nodes id).parents.toList.Nodup
  mem_parents_iff : ∀ id p, p ∈ (node nodes id).parents ↔
    nodes.Reachable root p ∧ id ∈ childrenOf nodes p

/-- What the passes rely on: choices and alternatives alternate, alternatives have children, and of all
other nodes only those that derive nothing do. -/
structure Arranged (nodes : Arena) : Prop extends Layered nodes where
  epsilon : (node nodes epsilonId).kind = .epsilon
  packed : ∀ id, (node nodes id).isChoice = true → ∀ p ∈ childrenOf nodes id, childrenOf nodes p ≠ []
  inner_cases : ∀ id, ∀ c ∈ childrenOf nodes id, (node nodes id).isChoice = true ∨
    (node nodes id).isPacked = true ∨ ∃ A alt dot, (node nodes id).kind = .nulled A alt dot

variable {nodes nodes' : Arena} {root id : NodeId}

section Trims

variable (h : Trims nodes nodes')
include h

/-- What is below a node stays below it when alternatives are taken away. -/
theorem InnerRanked.trims {rank : NodeId → Nat} (hr : nodes.InnerRanked rank) :
    nodes'.InnerRanked rank := by
  refine ⟨fun id hid c hc => hr.lt id (fun A hk => hid A ?_) c (h.mem_children hc), fun id => ?_,
    hr.epsilon⟩
  · rw [h.kind_eq, hk]
  · rw [h.size_eq]
    exact hr.le_size id

theorem Arranged.trims (ha : nodes.Arranged) : nodes'.Arranged := by
  have hchoice := h.toSameHeads.isChoice_eq
  have hpacked := h.toSameHeads.isPacked_eq
  refine ⟨ha.toLayered.trims h, (h.kind_eq _).trans ha.epsilon, fun id hc p hp => ?_,
    fun id c hc => ?_⟩
  · rw [hchoice] at hc
    have hpk := ha.isPacked id hc p (h.mem_children hp)
    rw [h.children_eq p fun hpc => by rw [Node.not_isPacked_of_isChoice hpc] at hpk; cases hpk]
    exact ha.packed id hc p (h.mem_children hp)
  · rw [hchoice, hpacked, h.kind_eq]
    exact ha.inner_cases id c (h.mem_children hc)

end Trims

end Arena

namespace Pass

open Arena

variable {nodes : Arena} {g : Grammar} {root id : NodeId}

/-! ## Pruning -/

/-- After a pruning every choice that can be reached has an alternative, if the root has one and what
derives nothing has them. -/
theorem children_ne_nil_of_pruned {F : NodeId → Prop} (ha : nodes.Arranged) (hF : nodes.Stocked F)
    (hnulled : ∀ id A alt dot, (node nodes id).kind = .nulled A alt dot → F id)
    (hroot : (node nodes root).isChoice = true)
    (hne : childrenOf (pruneDead.run g root nodes).1 root ≠ [])
    (hid : (pruneDead.run g root nodes).1.Reachable root id) (hc : (node nodes id).isChoice = true) :
    childrenOf (pruneDead.run g root nodes).1 id ≠ [] := by
  have ht := trims_pruneDead g root nodes
  have hlive : ∀ {a}, (pruneDead.run g root nodes).1.Reachable root a →
      (live nodes root).getD a false = true := fun h =>
    (live_iff_reachable (lt_size_of_isChoice hroot) ha.closed).2 (ht.reachable h)
  rcases Relation.ReflTransGen.cases_tail hid with rfl | ⟨p, hp, hmem⟩
  · exact hne
  have hmem' := ht.mem_children hmem
  rcases ha.inner_cases p id hmem' with hpc | hpp | ⟨A, alt, dot, hk⟩
  · -- the children of a choice are no choices
    have hpacked := ha.isPacked p hpc id hmem'
    rw [Node.not_isPacked_of_isChoice hc] at hpacked
    cases hpacked
  · -- the alternative has been left to a choice, so it is not dead
    rcases Relation.ReflTransGen.cases_tail hp with rfl | ⟨o, ho, hleft⟩
    · rw [Node.not_isPacked_of_isChoice hroot] at hpp
      cases hpp
    have hown := ha.owner o p (ht.mem_children hleft) hpp
    rw [childrenOf_pruneDead, if_pos ⟨hown, hlive ho⟩] at hleft
    have hdead : (deadNodes nodes root).getD p false = false := by
      simpa using (List.mem_filter.1 hleft).2
    obtain ⟨q, hq, hqdead⟩ := exists_not_dead hpp (hlive hp) hdead hmem' hc
    rw [childrenOf_pruneDead, if_pos ⟨hc, hlive hid⟩]
    exact List.ne_nil_of_mem (List.mem_filter.2 ⟨hq, by simpa using hqdead⟩)
  · have hstocked := @stocked_pruneDead nodes g root F hF
    refine hstocked.ne_nil id (hF.closed p (hnulled p A alt dot hk) id hmem') ?_
    rwa [ht.toSameHeads.isChoice_eq]

/-! ## Collapsing -/

theorem splice?_eq_none_iff {c : NodeId} : splice? nodes c = none ↔ ¬ nodes.IsForced c := by
  rw [splice?, IsForced, childrenOf]
  cases hk : (node nodes c).kind with
  | intermediate A alt dot =>
    rcases (node nodes c).children.toList with _ | ⟨only, _ | ⟨c', cs⟩⟩ <;> simp
  | nulled A alt dot => simp
  | symbol | packed | terminal | epsilon => simp

theorem isForced_setChildren {id c : NodeId} {children : Array NodeId}
    (hp : (node nodes id).isPacked = true) :
    (setChildren nodes id children).IsForced c ↔ nodes.IsForced c := by
  by_cases h : id = c
  · subst h
    obtain ⟨A, alt, hk⟩ := Node.isPacked_iff.1 hp
    rw [IsForced, IsForced, (sameHeads_setChildren id children).kind_eq]
    simp [hk]
  · rw [IsForced, IsForced, (sameHeads_setChildren id children).kind_eq, childrenOf_setChildren_ne h]

theorem children_ne_nil_collapseAll (ids : List NodeId) {changed : Bool}
    (h : childrenOf nodes id ≠ []) : childrenOf (collapseAll ids nodes changed).1 id ≠ [] := by
  refine collapseAll_induction (P := fun current => childrenOf current id ≠ [])
    (fun current i hneeds h => ?_) ids h
  by_cases hi : i = id
  · subst hi
    rw [childrenOf_setChildren_self (lt_size_of_isPacked (Bool.and_eq_true_iff.1 hneeds).1), flatChildren]
    split
    · simp
    · rename_i hnil
      simpa using hnil
  · rwa [childrenOf_setChildren_ne hi]

/-- Choices and alternatives alternate, and ranks fall below all but rule nodes, so that there is fuel to
splice in whatever offers no choice. -/
structure Collapsible (rank : NodeId → Nat) (nodes : Arena) : Prop where
  layered : nodes.Layered
  ranked : nodes.InnerRanked rank
  epsilon : (node nodes epsilonId).kind = .epsilon

section

variable {rank : NodeId → Nat} (h : Collapsible rank nodes)
include h

theorem Collapsible.flatChildren (hneeds : needsSplice nodes id = true) :
    Collapsible rank (setChildren nodes id (flatChildren nodes id)) := by
  obtain ⟨hpacked, hany⟩ := Bool.and_eq_true_iff.1 hneeds
  obtain ⟨c, hc, -⟩ := Array.any_eq_true'.1 hany
  have hheads : SameHeads nodes (setChildren nodes id (Pass.flatChildren nodes id)) :=
    sameHeads_setChildren _ _
  refine ⟨layered_flatChildren h.layered h.epsilon hpacked, ⟨fun i hi d hd => ?_, fun i => ?_,
    h.ranked.epsilon⟩, (hheads.kind_eq _).trans h.epsilon⟩
  · by_cases he : id = i
    · subst he
      rw [childrenOf_setChildren_self (lt_size_of_isPacked hpacked)] at hd
      exact rank_flatChildren h.ranked h.layered hpacked (Array.mem_toList_iff.2 hc) hd
    · rw [childrenOf_setChildren_ne he] at hd
      exact h.ranked.lt i (fun A hk => hi A ((hheads.kind_eq i).trans hk)) d hd
  · rw [hheads.size_eq]
    exact h.ranked.le_size i

/-- With fuel above the rank of a child nothing is left that offers no choice. -/
theorem not_isForced_of_mem_spliced {fuel : Nat} {c d : NodeId} (hfuel : rank c < fuel)
    (hd : d ∈ spliced nodes fuel c) : ¬ nodes.IsForced d := by
  induction fuel generalizing c with
  | zero => omega
  | succ fuel ih =>
    rw [spliced] at hd
    split at hd
    · rename_i inner hs
      obtain ⟨b, hb, hd⟩ := List.mem_flatMap.1 hd
      have := rank_of_splice? h.ranked h.layered hs hb
      exact ih (by omega) hd
    · rename_i hnone
      rw [List.mem_singleton.1 hd]
      exact splice?_eq_none_iff.1 hnone

/-- A packed node is flat once it is collapsed. -/
theorem isFlat_flatChildren (hneeds : needsSplice nodes id = true) :
    (setChildren nodes id (flatChildren nodes id)).IsFlat id := by
  have hpacked := (Bool.and_eq_true_iff.1 hneeds).1
  intro c hc
  rw [childrenOf_setChildren_self (lt_size_of_isPacked hpacked)] at hc
  rw [isForced_setChildren hpacked]
  rcases mem_flatChildren hc with rfl | ⟨b, -, hc⟩
  · rw [← splice?_eq_none_iff, splice?, h.epsilon]
  · exact not_isForced_of_mem_spliced h (Nat.lt_succ_of_le (h.ranked.le_size b)) hc

/-- What is flat stays flat while other nodes are collapsed. -/
theorem isFlat_collapseAll_of_isFlat (hflat : nodes.IsFlat id) (ids : List NodeId) {changed : Bool} :
    (collapseAll ids nodes changed).1.IsFlat id := by
  refine (collapseAll_induction (P := fun current => Collapsible rank current ∧ current.IsFlat id)
    (fun current i hneeds hcurrent => ⟨hcurrent.1.flatChildren hneeds, ?_⟩) ids ⟨h, hflat⟩).2
  by_cases hi : i = id
  · subst hi
    exact isFlat_flatChildren hcurrent.1 hneeds
  · intro c hc
    rw [childrenOf_setChildren_ne hi] at hc
    rw [isForced_setChildren (Bool.and_eq_true_iff.1 hneeds).1]
    exact hcurrent.2 c hc

/-- The packed nodes that are gone through are flat afterwards. -/
theorem isFlat_collapseAll {ids : List NodeId} (hid : id ∈ ids) (hp : (node nodes id).isPacked = true)
    {changed : Bool} : (collapseAll ids nodes changed).1.IsFlat id := by
  induction ids generalizing nodes changed with
  | nil => cases hid
  | cons i ids ih =>
    rw [collapseAll]
    by_cases hi : i = id
    · subst hi
      split
      · rename_i hneeds
        exact isFlat_collapseAll_of_isFlat (h.flatChildren hneeds) (isFlat_flatChildren h hneeds) ids
      · rename_i hneeds
        refine isFlat_collapseAll_of_isFlat h (fun c hc => ?_) ids
        rw [← splice?_eq_none_iff, ← Option.not_isSome_iff_eq_none]
        intro hsome
        exact hneeds (Bool.and_eq_true_iff.2 ⟨hp, Array.any_eq_true'.2 ⟨c, Array.mem_toList_iff.1 hc, hsome⟩⟩)
    · have hid := (List.mem_cons.1 hid).resolve_left (Ne.symm hi)
      split
      · rename_i hneeds
        exact ih (h.flatChildren hneeds) hid (by rw [node_setChildren_ne hi]; exact hp)
      · exact ih h hid hp

end

/-! ## The passes -/

section

variable {rank : NodeId → Nat} (ha : nodes.Arranged) (hroot : (node nodes root).isChoice = true)
include ha hroot

theorem mem_liveNodes_of_reachable (hid : nodes.Reachable root id) (hlt : id < nodes.size) :
    id ∈ (liveNodes nodes root).map Prod.snd := by
  have hlive := (live_iff_reachable (lt_size_of_isChoice hroot) ha.closed).2 hid
  exact List.mem_map.2 ⟨(_, _), mem_liveNodes_iff.2 ⟨hlt, rfl, hlive⟩, rfl⟩

omit hroot in
theorem collapsible_collapse (hr : nodes.InnerRanked rank) :
    SameHeads nodes (collapse.run g root nodes).1 ∧ Collapsible rank (collapse.run g root nodes).1 :=
  collapseAll_induction (P := fun current => SameHeads nodes current ∧ Collapsible rank current)
    (fun _ _ hneeds h => ⟨h.1.trans (sameHeads_setChildren _ _), h.2.flatChildren hneeds⟩) _
    ⟨.refl nodes, ha.toLayered, hr, ha.epsilon⟩

omit hroot in
/-- Collapsing reaches nothing new but the empty string. -/
theorem reachable_of_collapse (hid : (collapse.run g root nodes).1.Reachable root id)
    (hk : (node nodes id).kind ≠ .epsilon) : nodes.Reachable root id := by
  have hor : nodes.Reachable root id ∨ id = epsilonId := by
    refine hid.of_closed (P := fun id => nodes.Reachable root id ∨ id = epsilonId)
      (closed_collapseAll (.inr rfl) (fun a hor c hc => ?_) _) (.inl .refl)
    rcases hor with hreach | rfl
    · exact .inl (hreach.child hc)
    · have hinner := ha.inner_cases epsilonId c hc
      simp [Node.isChoice, Node.isPacked, ha.epsilon] at hinner
  rcases hor with hreach | rfl
  · exact hreach
  · exact absurd ha.epsilon hk

/-- Collapsing reduces a forest if all choices that can be reached have alternatives. -/
theorem isReduced_collapse (hr : nodes.InnerRanked rank)
    (hne : ∀ id, nodes.Reachable root id → (node nodes id).isChoice = true → childrenOf nodes id ≠ []) :
    (collapse.run g root nodes).1.IsReduced root := by
  obtain ⟨hheads, hcollapsible⟩ := @collapsible_collapse nodes g root rank ha hr
  have hpacked := hheads.isPacked_eq
  have hreach : ∀ {id}, (collapse.run g root nodes).1.Reachable root id →
      (node nodes id).isPacked = true → nodes.Reachable root id := fun hid hp =>
    reachable_of_collapse ha hid fun hk => by
      rw [Node.isPacked, hk] at hp
      cases hp
  refine ⟨fun id hid hc => ?_, fun id hid hp => ?_, fun id hid hp => ?_⟩
  · rw [hheads.isChoice_eq] at hc
    have hbefore := reachable_of_collapse ha hid fun hk => by
      rw [Node.isChoice, hk] at hc
      cases hc
    obtain ⟨p, hmem⟩ := List.exists_mem_of_ne_nil _ (hne id hbefore hc)
    refine ⟨p, ?_, ?_⟩
    · have hsame : childrenOf (collapse.run g root nodes).1 id = childrenOf nodes id :=
        childrenOf_collapseAll _ (Node.not_isPacked_of_isChoice hc)
      rwa [hsame]
    · rw [hpacked]
      exact ha.isPacked id hc p hmem
  · rw [hpacked] at hp
    refine children_ne_nil_collapseAll _ ?_
    rcases Relation.ReflTransGen.cases_tail (hreach hid hp) with rfl | ⟨o, -, hmem⟩
    · rw [Node.not_isPacked_of_isChoice hroot] at hp
      cases hp
    · exact ha.packed o (ha.owner o id hmem hp) id hmem
  · rw [hpacked] at hp
    exact isFlat_collapseAll ⟨ha.toLayered, hr, ha.epsilon⟩
      (mem_liveNodes_of_reachable ha hroot (hreach hid hp) (lt_size_of_isPacked hp)) hp

end

theorem Relinks.reachable_iff {nodes' : Arena} (h : Relinks nodes nodes') :
    nodes'.Reachable root id ↔ nodes.Reachable root id := by
  rw [Reachable, Reachable, show childrenOf nodes' = childrenOf nodes from funext h.childrenOf_eq]

theorem Relinks.isReduced {nodes' : Arena} (h : Relinks nodes nodes') (hnodes : nodes.IsReduced root) :
    nodes'.IsReduced root := by
  have hchildren : childrenOf nodes' = childrenOf nodes := funext h.childrenOf_eq
  have hpacked := h.trims.toSameHeads.isPacked_eq
  refine ⟨fun id hid hc => ?_, fun id hid hp => ?_, fun id hid hp c hc => ?_⟩
  · rw [h.trims.toSameHeads.isChoice_eq] at hc
    simp only [hchildren, hpacked]
    exact hnodes.choice id (h.reachable_iff.1 hid) hc
  · rw [hpacked] at hp
    rw [hchildren]
    exact hnodes.packed id (h.reachable_iff.1 hid) hp
  · rw [hpacked] at hp
    rw [hchildren] at hc
    rw [IsForced, hchildren, h.trims.kind_eq]
    exact hnodes.flat id (h.reachable_iff.1 hid) hp c hc

/-- Linking brings a reduced forest into normal form. -/
theorem isNormal_linkParents (h : nodes.IsReduced root) (hroot : root < nodes.size)
    (hclosed : ∀ a, ∀ c ∈ childrenOf nodes a, c < nodes.size) :
    (linkParents.run g root nodes).1.IsNormal root := by
  have hlinks := relinks_linkParents g root nodes
  have hparents := parents_linkParents hroot hclosed g
  refine ⟨hlinks.isReduced h, fun id => (hparents id).1, fun id p => ?_⟩
  rw [(hparents id).2, hlinks.reachable_iff, hlinks.childrenOf_eq]

/-- Collapsing and linking bring a forest into normal form if all choices that can be reached have
alternatives. -/
theorem isNormal_structural {rank : NodeId → Nat} (ha : nodes.Arranged) (hr : nodes.InnerRanked rank)
    (hroot : (node nodes root).isChoice = true)
    (hne : ∀ id, nodes.Reachable root id → (node nodes id).isChoice = true → childrenOf nodes id ≠ []) :
    (runAll structural g root nodes).1.IsNormal root := by
  obtain ⟨hheads, hcollapsible⟩ := @collapsible_collapse nodes g root rank ha hr
  rw [runAll_eq]
  refine isNormal_linkParents (isReduced_collapse ha hroot hr hne) ?_ hcollapsible.layered.closed
  exact hheads.size_eq.symm ▸ lt_size_of_isChoice hroot

/-- The passes after an ambiguous parse bring a forest into normal form if they leave the root an
alternative, and what derives nothing has alternatives. -/
theorem isNormal_standard {rank : NodeId → Nat} {F : NodeId → Prop} {precedence greedy : Bool}
    (ha : nodes.Arranged) (hr : nodes.InnerRanked rank) (hF : nodes.Stocked F)
    (hnulled : ∀ id A alt dot, (node nodes id).kind = .nulled A alt dot → F id)
    (hplain : precedence = true → ∀ id, F id → (node nodes id).isChoice = true →
      ∀ p ∈ childrenOf nodes id, isOperatorNode g nodes p = false)
    (hroot : (node nodes root).isChoice = true)
    (hne : childrenOf (runAll (standard precedence greedy) g root nodes).1 root ≠ []) :
    (runAll (standard precedence greedy) g root nodes).1.IsNormal root := by
  rw [childrenOf_standard (Node.not_isPacked_of_isChoice hroot)] at hne
  rw [runAll_standard]
  have ht := @trims_selecting nodes g root precedence greedy
  have hstocked := @stocked_selecting nodes g root F precedence greedy hF hplain
  generalize (runAll (selecting precedence greedy) g root nodes).1 = current at ht hstocked hne
  have hprune := trims_pruneDead g root current
  rw [← ht.toSameHeads.isChoice_eq] at hroot
  have hpruned : (node (pruneDead.run g root current).1 root).isChoice = true := by
    rwa [hprune.toSameHeads.isChoice_eq]
  rw [runAll_eq]
  have hnormal := @isNormal_structural (pruneDead.run g root current).1 g root rank
    ((ha.trims ht).trims hprune) ((hr.trims ht).trims hprune) hpruned fun id hid hc => by
      rw [hprune.toSameHeads.isChoice_eq] at hc
      exact children_ne_nil_of_pruned (ha.trims ht) hstocked
        (fun id A alt dot hk => hnulled id A alt dot (ht.kind_eq id ▸ hk)) hroot hne hid hc
  rwa [runAll_eq] at hnormal

end Pass

end ParseForest
