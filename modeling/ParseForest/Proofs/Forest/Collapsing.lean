import ParseForest.Proofs.Forest.Pruning

/-!
# Collapsing changes no list of trees

Collapsing replaces the children of packed nodes by what they contain. Where children are of lower
rank, the combined trees of what is spliced in are the trees of the child it is spliced in for
(`Pass.combine_spliced`), so every list of trees stays what it was (`Pass.restacks_collapse`).
-/

namespace ParseForest

namespace Arena

/-- The children of what is no rule node are of lower rank, also where rules derive themselves. -/
structure InnerRanked (nodes : Arena) (rank : NodeId → Nat) : Prop where
  lt : ∀ id, (∀ A, (node nodes id).kind ≠ .symbol A) → ∀ c ∈ childrenOf nodes id, rank c < rank id
  le_size : ∀ id, rank id ≤ nodes.size
  epsilon : rank epsilonId = 0

theorem Ranked.inner {nodes : Arena} {rank : NodeId → Nat} (h : nodes.Ranked rank) :
    nodes.InnerRanked rank := ⟨fun id _ => h.lt id, h.le_size, h.epsilon⟩

end Arena

namespace Pass

open Arena

variable {nodes : Arena} {g : Grammar} {tokens : TokenStream} {root : NodeId}

/-! ## What is spliced in -/

/-- What is spliced in for a child is what the child or something below it holds. -/
theorem spliced_induction {P : NodeId → Prop}
    (hstep : ∀ c inner, splice? nodes c = some inner → P c → ∀ d ∈ childrenOf nodes inner, P d)
    (fuel : Nat) {c d : NodeId} (hc : P c) (hd : d ∈ spliced nodes fuel c) : P d := by
  induction fuel generalizing c with
  | zero => exact List.mem_singleton.1 hd ▸ hc
  | succ fuel ih =>
    rw [spliced] at hd
    split at hd
    · rename_i inner hs
      obtain ⟨b, hb, hd⟩ := List.mem_flatMap.1 hd
      exact ih (hstep c inner hs hc b hb) hd
    · exact List.mem_singleton.1 hd ▸ hc

/-- The node whose children are spliced in: the only alternative of a part of a right-hand side, or
one that derives nothing. -/
theorem splice?_eq_some {c inner : NodeId} (h : splice? nodes c = some inner) :
    (∃ A alt dot, (node nodes c).kind = .intermediate A alt dot ∧ childrenOf nodes c = [inner]) ∨
      ∃ A alt dot, (node nodes c).kind = .nulled A alt dot ∧ inner = c := by
  simp only [splice?] at h
  split at h
  · rename_i A alt dot hk
    split at h
    · rename_i only hlist
      obtain rfl := Option.some.inj h
      exact .inl ⟨A, alt, dot, hk, hlist⟩
    · cases h
  · rename_i A alt dot hk
    exact .inr ⟨A, alt, dot, hk, (Option.some.inj h).symm⟩
  · cases h

/-- The new children of a collapsed node are spliced in, or there is only the empty string. -/
theorem mem_flatChildren {id d : NodeId} (hd : d ∈ (flatChildren nodes id).toList) :
    d = epsilonId ∨ ∃ c ∈ childrenOf nodes id, d ∈ spliced nodes (nodes.size + 1) c := by
  rw [flatChildren] at hd
  split at hd
  · exact .inl (by simpa using hd)
  · exact .inr (List.mem_flatMap.1 hd)

/-- If each list is a combination, so is their combination. -/
theorem combine_flatMap {L : NodeId → List (List Tree)} {f : NodeId → List NodeId} {cs : List NodeId}
    (h : ∀ c ∈ cs, combine ((f c).map L) = L c) :
    combine ((cs.flatMap f).map L) = combine (cs.map L) := by
  induction cs with
  | nil => rfl
  | cons c cs ih =>
    rw [List.flatMap_cons, List.map_append, combine_append, h c (.head _),
      ih fun d hd => h d (.tail _ hd)]
    rfl

section

variable {rank : NodeId → Nat} (hr : nodes.InnerRanked rank) (hl : nodes.Layered)
include hr hl

theorem rank_of_splice? {c inner d : NodeId} (hs : splice? nodes c = some inner)
    (hd : d ∈ childrenOf nodes inner) : rank d < rank c := by
  rcases splice?_eq_some hs with ⟨A, alt, dot, hk, hchildren⟩ | ⟨A, alt, dot, hk, rfl⟩
  · have hpacked := hl.isPacked c (by rw [Node.isChoice, hk]) inner (by simp [hchildren])
    obtain ⟨B, alt', hk'⟩ := Node.isPacked_iff.1 hpacked
    have hinner := hr.lt c (by simp [hk]) inner (by simp [hchildren])
    have hlt := hr.lt inner (by simp [hk']) d hd
    omega
  · exact hr.lt _ (by simp [hk]) d hd

theorem rank_spliced (fuel : Nat) {c d : NodeId} (hd : d ∈ spliced nodes fuel c) : rank d ≤ rank c := by
  refine spliced_induction (P := fun d => rank d ≤ rank c) (fun b inner hs hb d hd => ?_) fuel
    (Nat.le_refl _) hd
  exact Nat.le_trans (Nat.le_of_lt (rank_of_splice? hr hl hs hd)) hb

/-- The new children of a packed node that had any are of lower rank. -/
theorem rank_flatChildren {id c d : NodeId} (hpacked : (node nodes id).isPacked = true)
    (hc : c ∈ childrenOf nodes id) (hd : d ∈ (flatChildren nodes id).toList) : rank d < rank id := by
  obtain ⟨A, alt, hk⟩ := Node.isPacked_iff.1 hpacked
  have hlt := hr.lt id (by simp [hk])
  rcases mem_flatChildren hd with rfl | ⟨b, hb, hd⟩
  · rw [hr.epsilon]
    exact Nat.lt_of_le_of_lt (Nat.zero_le _) (hlt c hc)
  · exact Nat.lt_of_le_of_lt (rank_spliced hr hl _ hd) (hlt b hb)

end

section

variable {rank : NodeId → Nat} (hr : nodes.Ranked rank) (hl : nodes.Layered)
include hr hl

/-- What is spliced in for a child stands for the same together. -/
theorem combine_spliced (fuel : Nat) (c : NodeId) :
    combine ((spliced nodes fuel c).map (nodes.allReadings g tokens)) =
      nodes.allReadings g tokens c := by
  induction fuel generalizing c with
  | zero => exact combine_singleton _
  | succ fuel ih =>
    rw [spliced]
    split
    · rename_i inner hs
      rw [combine_flatMap fun d _ => ih d]
      rcases splice?_eq_some hs with ⟨A, alt, dot, hk, hchildren⟩ | ⟨A, alt, dot, hk, rfl⟩
      · have hpacked := hl.isPacked c (by rw [Node.isChoice, hk]) inner (by simp [hchildren])
        rw [allReadings_intermediate hr hk, hchildren, List.flatMap_singleton,
          allReadings_packed hr hpacked]
      · rw [allReadings_nulled hr hk]
    · exact combine_singleton _

omit hr in
/-- What is spliced in for a child that is there and not packed is there and not packed. -/
theorem layered_spliced (fuel : Nat) {c d : NodeId}
    (hc : c < nodes.size ∧ (node nodes c).isPacked = false) (hd : d ∈ spliced nodes fuel c) :
    d < nodes.size ∧ (node nodes d).isPacked = false := by
  refine spliced_induction (P := fun d => d < nodes.size ∧ (node nodes d).isPacked = false)
    (fun b inner hs hb d hd => ⟨hl.closed inner d hd, ?_⟩) fuel hc hd
  rcases splice?_eq_some hs with ⟨A, alt, dot, hk, hchildren⟩ | ⟨A, alt, dot, hk, rfl⟩
  · exact hl.inner b (by rw [Node.isChoice, hk]) inner (by simp [hchildren]) d hd
  · exact hl.nulled _ A alt dot hk d hd

end

/-! ## The pass -/

/-- What every single collapse preserves holds after all of them. -/
theorem collapseAll_induction {P : Arena → Prop}
    (hstep : ∀ nodes id, needsSplice nodes id = true → P nodes →
      P (setChildren nodes id (flatChildren nodes id)))
    (ids : List NodeId) {nodes : Arena} {changed : Bool} (h : P nodes) :
    P (collapseAll ids nodes changed).1 := by
  induction ids generalizing nodes changed with
  | nil => exact h
  | cons id ids ih =>
    rw [collapseAll]
    split
    · rename_i hneeds
      exact ih (hstep nodes id hneeds h)
    · exact ih h

/-- Only packed nodes are collapsed. -/
theorem childrenOf_collapseAll (ids : List NodeId) {changed : Bool} {id : NodeId}
    (h : (node nodes id).isPacked = false) :
    childrenOf (collapseAll ids nodes changed).1 id = childrenOf nodes id := by
  induction ids generalizing nodes changed with
  | nil => rfl
  | cons i ids ih =>
    rw [collapseAll]
    split
    · rename_i hneeds
      have hne : i ≠ id := by
        rintro rfl
        rw [(Bool.and_eq_true_iff.1 hneeds).1] at h
        cases h
      rw [ih (by rw [node_setChildren_ne hne]; exact h), childrenOf_setChildren_ne hne]
    · exact ih h

/-- What is closed under children stays closed under them. -/
theorem closed_collapseAll {S : NodeId → Prop} (hε : S epsilonId)
    (hS : ∀ id, S id → ∀ c ∈ childrenOf nodes id, S c) (ids : List NodeId) {changed : Bool} :
    ∀ id, S id → ∀ c ∈ childrenOf (collapseAll ids nodes changed).1 id, S c := by
  refine collapseAll_induction (P := fun current => ∀ id, S id → ∀ c ∈ childrenOf current id, S c)
    (fun current i hneeds h id hid c hc => ?_) ids hS
  by_cases hi : i = id
  · subst hi
    have hpacked := (Bool.and_eq_true_iff.1 hneeds).1
    rw [childrenOf_setChildren_self (lt_size_of_isPacked hpacked)] at hc
    rcases mem_flatChildren hc with rfl | ⟨b, hb, hc⟩
    · exact hε
    · refine spliced_induction (P := S) (fun a inner hs ha d hd => h inner ?_ d hd) _ (h i hid b hb) hc
      rcases splice?_eq_some hs with ⟨A, alt, dot, -, hchildren⟩ | ⟨A, alt, dot, -, rfl⟩
      · exact h a ha inner (by simp [hchildren])
      · exact ha
  · rw [childrenOf_setChildren_ne hi] at hc
    exact h id hid c hc

/-- Nothing that matters for the trees of an arena without cycles has changed. -/
structure Restacks (g : Grammar) (tokens : TokenStream) (rank : NodeId → Nat) (nodes nodes' : Arena) :
    Prop extends SameHeads nodes nodes' where
  ranked : nodes'.Ranked rank
  layered : nodes'.Layered
  readings : ∀ id, nodes'.allReadings g tokens id = nodes.allReadings g tokens id

theorem Restacks.trans {rank : NodeId → Nat} {nodes' nodes'' : Arena}
    (h : Restacks g tokens rank nodes nodes') (h' : Restacks g tokens rank nodes' nodes'') :
    Restacks g tokens rank nodes nodes'' :=
  ⟨h.toSameHeads.trans h'.toSameHeads, h'.ranked, h'.layered, fun id =>
    (h'.readings id).trans (h.readings id)⟩

/-- Choices and packed nodes go on alternating when a packed node is collapsed. -/
theorem layered_flatChildren (hl : nodes.Layered) (hε : (node nodes epsilonId).kind = .epsilon)
    {id : NodeId} (hpacked : (node nodes id).isPacked = true) :
    (setChildren nodes id (flatChildren nodes id)).Layered := by
  have hlt : id < nodes.size := lt_size_of_isPacked hpacked
  have hheads : SameHeads nodes (setChildren nodes id (flatChildren nodes id)) :=
    sameHeads_setChildren _ _
  have hself := @childrenOf_setChildren_self nodes id (flatChildren nodes id) hlt
  have hother : ∀ {i}, id ≠ i →
      childrenOf (setChildren nodes id (flatChildren nodes id)) i = childrenOf nodes i :=
    fun hne => childrenOf_setChildren_ne hne
  have hnot : ∀ {i}, ¬ (node nodes i).isPacked = true →
      childrenOf (setChildren nodes id (flatChildren nodes id)) i = childrenOf nodes i :=
    fun hi => hother fun he => hi (he ▸ hpacked)
  refine ⟨fun i c hc => ?_, fun i hi p hp => ?_, fun i p hp hpk => ?_⟩
  · rw [size_setChildren]
    by_cases he : id = i
    · subst he
      rw [hself] at hc
      rcases mem_flatChildren hc with rfl | ⟨b, hb, hc⟩
      · exact Nat.lt_of_le_of_lt (Nat.zero_le _) hlt
      · exact spliced_induction (P := fun d => d < nodes.size)
          (fun _ inner _ _ d hd => hl.closed inner d hd) _ (hl.closed id b hb) hc
    · rw [hother he] at hc
      exact hl.closed i c hc
  · rw [hheads.isChoice_eq] at hi
    rw [hnot (by simp [Node.not_isPacked_of_isChoice hi])] at hp
    rw [hheads.isPacked_eq]
    exact hl.isPacked i hi p hp
  · rw [hheads.isPacked_eq] at hpk
    rw [hheads.isChoice_eq]
    by_cases he : id = i
    · -- what is spliced in is not packed
      subst he
      rw [hself] at hp
      have hnot : (node nodes p).isPacked = false := by
        rcases mem_flatChildren hp with rfl | ⟨b, hb, hp⟩
        · rw [Node.isPacked, hε]
        · exact (layered_spliced hl _ ⟨hl.closed id b hb, hl.not_isPacked hpacked hb⟩ hp).2
      rw [hnot] at hpk
      cases hpk
    · rw [hother he] at hp
      exact hl.owner i p hp hpk

section

variable {rank : NodeId → Nat} (hr : nodes.Ranked rank) (hl : nodes.Layered)
  (hε : (node nodes epsilonId).kind = .epsilon)
include hr hl hε

/-- Collapsing one packed node. -/
theorem restacks_flatChildren {id : NodeId} (hneeds : needsSplice nodes id = true) :
    Restacks g tokens rank nodes (setChildren nodes id (flatChildren nodes id)) := by
  obtain ⟨hpacked, hany⟩ := Bool.and_eq_true_iff.1 hneeds
  obtain ⟨c₀, hc₀, -⟩ := Array.any_eq_true'.1 hany
  have hc₀ : c₀ ∈ childrenOf nodes id := Array.mem_toList_iff.2 hc₀
  have hlt : id < nodes.size := lt_size_of_isPacked hpacked
  have hheads : SameHeads nodes (setChildren nodes id (flatChildren nodes id)) :=
    sameHeads_setChildren _ _
  have hself := @childrenOf_setChildren_self nodes id (flatChildren nodes id) hlt
  have hother : ∀ {i}, id ≠ i →
      childrenOf (setChildren nodes id (flatChildren nodes id)) i = childrenOf nodes i :=
    fun hne => childrenOf_setChildren_ne hne
  have hranked : (setChildren nodes id (flatChildren nodes id)).Ranked rank := by
    refine ⟨fun i c hc => ?_, fun i => by rw [size_setChildren]; exact hr.le_size i, hr.epsilon⟩
    by_cases hi : id = i
    · subst hi
      rw [hself] at hc
      exact rank_flatChildren hr.inner hl hpacked hc₀ hc
    · rw [hother hi] at hc
      exact hr.lt i c hc
  refine ⟨hheads, hranked, layered_flatChildren hl hε hpacked, ?_⟩
  refine allReadings_congr hr hranked hheads fun i => ?_
  by_cases hi : id = i
  · subst hi
    refine .inr ⟨hpacked, ?_⟩
    have hspliced := @combine_flatMap (nodes.allReadings g tokens) (spliced nodes (nodes.size + 1))
      (childrenOf nodes id) fun c _ => combine_spliced hr hl _ c
    rw [hself, ← hspliced, flatChildren]
    split
    · rename_i hnil
      rw [hnil]
      simp [allReadings_epsilon hε, combine]
    · rfl
  · exact .inl (hother hi)

/-- Collapsing nodes one after another changes no list of trees. -/
theorem restacks_collapseAll (ids : List NodeId) (changed : Bool) :
    Restacks g tokens rank nodes (collapseAll ids nodes changed).1 := by
  induction ids generalizing nodes changed with
  | nil => exact ⟨.refl nodes, hr, hl, fun _ => rfl⟩
  | cons id ids ih =>
    rw [collapseAll]
    split
    · rename_i hneeds
      have hstep := @restacks_flatChildren nodes g tokens rank hr hl hε id hneeds
      have hrest := ih hstep.ranked hstep.layered ((hstep.kind_eq _).trans hε) true
      exact hstep.trans hrest
    · exact ih hr hl hε changed

/-- Collapsing changes no list of trees. -/
theorem restacks_collapse : Restacks g tokens rank nodes (collapse.run g root nodes).1 :=
  restacks_collapseAll hr hl hε _ false

end

/-- Linking parents changes no list of trees. -/
theorem Relinks.restacks {nodes' : Arena} {rank : NodeId → Nat} (h : Relinks nodes nodes')
    (hr : nodes.Ranked rank) (hl : nodes.Layered) : Restacks g tokens rank nodes nodes' := by
  have hranked : nodes'.Ranked rank := by
    refine ⟨fun id c hc => ?_, fun id => ?_, hr.epsilon⟩
    · rw [h.childrenOf_eq] at hc
      exact hr.lt id c hc
    · rw [h.1]
      exact hr.le_size id
  exact ⟨h.trims.toSameHeads, hranked, hl.trims h.trims,
    allReadings_congr hr hranked h.trims.toSameHeads fun id => .inl (h.childrenOf_eq id)⟩

/-- What collapses and then links the nodes changes no list of trees. -/
theorem restacks_collapse_linkParents {rank : NodeId → Nat} (hr : nodes.Ranked rank)
    (hl : nodes.Layered) (hε : (node nodes epsilonId).kind = .epsilon) :
    Restacks g tokens rank nodes (linkParents.run g root (collapse.run g root nodes).1).1 := by
  have hcollapse := @restacks_collapse nodes g tokens root rank hr hl hε
  exact hcollapse.trans ((relinks_linkParents g root _).restacks hcollapse.ranked hcollapse.layered)

end Pass

end ParseForest
