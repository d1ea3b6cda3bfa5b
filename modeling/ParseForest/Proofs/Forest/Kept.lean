import ParseForest.Proofs.Forest.Surveying
import ParseForest.Proofs.Basic

/-!
# What is counted

Wherever the cycles of an arena are, those nodes that a survey counts as more than nothing have none among
them. What is left when the others are taken away (`TreeIndex.kept`) is an arena with ranks
(`Surveyed.exists_ranked`) that the counts fit (`Surveyed.tallies_kept`).
-/

namespace ParseForest

/-!
## Counts without cycles

A survey counts nodes by their children. Where there are no cycles among the nodes whose counts are made
that way (`TreeIndex.Tallies`), they are counted right: by the length of their lists of trees, up to the limit
(`Tallies.count_eq`). If no cycle can be reached from the root, these are all nodes that can
(`Surveyed.tallies`).
-/

open Arena

/-! ## Counts up to the limit -/

theorem capped_mul (a x : Nat) : capped (capped a * capped x) = capped (a * x) := by
  have hM : 0 < countLimit := by decide
  simp only [capped]
  generalize countLimit = M at hM
  rcases Nat.eq_zero_or_pos a with rfl | ha
  · simp
  rcases Nat.eq_zero_or_pos x with rfl | hx
  · simp
  rcases Nat.le_total a M with haM | haM
  · rcases Nat.le_total x M with hxM | hxM
    · rw [Nat.min_eq_left haM, Nat.min_eq_left hxM]
    · rw [Nat.min_eq_left haM, Nat.min_eq_right hxM,
        Nat.min_eq_right (Nat.le_mul_of_pos_left M ha),
        Nat.min_eq_right (Nat.le_trans hxM (Nat.le_mul_of_pos_left x ha))]
  · rw [Nat.min_eq_right haM, Nat.min_eq_right (Nat.le_mul_of_pos_right M (Nat.lt_min.2 ⟨hx, hM⟩)),
      Nat.min_eq_right (Nat.le_trans haM (Nat.le_mul_of_pos_right a hx))]

theorem capped_add (a x : Nat) : capped (capped a + capped x) = capped (a + x) := by
  simp only [capped]
  omega

@[simp] theorem capped_capped (a : Nat) : capped (capped a) = capped a := by
  simp only [capped]
  omega

/-! ## Arenas with ranks -/

section

variable {nodes : Arena} {rank : NodeId → Nat} (hr : nodes.Ranked rank)
include hr

theorem Arena.Ranked.not_below (id : NodeId) : ¬ nodes.Below id id :=
  not_transGen_of_lt rank (fun a c hc => hr.lt a c hc) id

theorem Arena.Ranked.not_cyclic (root : NodeId) : ¬ nodes.Cyclic root := by
  rintro ⟨id, -, hbelow⟩
  exact hr.not_below id hbelow

end

namespace TreeIndex

theorem cappedProduct_cons (n : Nat) (ns : List Nat) :
    cappedProduct (n :: ns) = capped (n * cappedProduct ns) := by
  have hfold : ∀ (ns : List Nat) (a : Nat),
      ns.foldl (fun acc n => capped (acc * n)) (capped a) = capped (a * cappedProduct ns) := by
    intro ns
    induction ns with
    | nil => intro a; rw [List.foldl_nil, cappedProduct, List.foldl_nil, Nat.mul_one]
    | cons n ns ih =>
      intro a
      have hstep : cappedProduct (n :: ns) = capped (n * cappedProduct ns) := by
        rw [cappedProduct, List.foldl_cons, Nat.one_mul, ih]
      rw [List.foldl_cons, ← capped_mul (capped a) n, capped_capped, capped_mul, ih, hstep,
        ← capped_mul a (capped _), capped_capped, capped_mul, Nat.mul_assoc]
  rw [cappedProduct, List.foldl_cons, Nat.one_mul, hfold]

theorem cappedSum_cons (n : Nat) (ns : List Nat) :
    cappedSum (n :: ns) = capped (n + cappedSum ns) := by
  have hfold : ∀ (ns : List Nat) (a : Nat),
      ns.foldl (fun acc n => capped (acc + n)) (capped a) = capped (a + cappedSum ns) := by
    intro ns
    induction ns with
    | nil => intro a; rw [List.foldl_nil, cappedSum, List.foldl_nil, Nat.add_zero]
    | cons n ns ih =>
      intro a
      have hstep : cappedSum (n :: ns) = capped (n + cappedSum ns) := by
        rw [cappedSum, List.foldl_cons, Nat.zero_add, ih]
      rw [List.foldl_cons, ← capped_add (capped a) n, capped_capped, capped_add, ih, hstep,
        ← capped_add a (capped _), capped_capped, capped_add, Nat.add_assoc]
  rw [cappedSum, List.foldl_cons, Nat.zero_add, hfold]

theorem capped_cappedSum (ns : List Nat) : capped (cappedSum ns) = cappedSum ns := by
  cases ns with
  | nil => rfl
  | cons n ns => rw [cappedSum_cons, capped_capped]

section

variable {count : NodeId → Nat}

/-- What is counted as nothing adds nothing. -/
theorem cappedSum_filter {keep : NodeId → Bool} {ps : List NodeId}
    (h : ∀ p ∈ ps, keep p = false → count p = 0) :
    cappedSum ((ps.filter keep).map count) = cappedSum (ps.map count) := by
  induction ps with
  | nil => rfl
  | cons p ps ih =>
    have ih := ih fun q hq => h q (.tail _ hq)
    cases hp : keep p with
    | true => rw [List.filter_cons_of_pos hp, List.map_cons, List.map_cons, cappedSum_cons, ih,
        cappedSum_cons]
    | false => rw [List.filter_cons_of_neg (by simp [hp]), ih, List.map_cons, cappedSum_cons,
        h p (.head _) hp, Nat.zero_add, capped_cappedSum]

/-- Lists put one after the other are counted by the sum of their counts. -/
theorem cappedSum_map_eq {β : Type} {F : NodeId → List β} {ps : List NodeId}
    (h : ∀ p ∈ ps, count p = capped (F p).length) :
    cappedSum (ps.map count) = capped (ps.flatMap F).length := by
  induction ps with
  | nil => rfl
  | cons p ps ih =>
    rw [List.map_cons, cappedSum_cons, ih fun q hq => h q (.tail _ hq), h p (.head _), capped_add,
      List.flatMap_cons, List.length_append]

/-- Combinations are counted by the product of the counts. -/
theorem cappedProduct_map_eq {L : NodeId → List (List Tree)} {cs : List NodeId}
    (h : ∀ c ∈ cs, count c = capped (L c).length) :
    cappedProduct (cs.map count) = capped (combine (cs.map L)).length := by
  induction cs with
  | nil => rfl
  | cons c cs ih =>
    have hlen : (combine ((c :: cs).map L)).length = (L c).length * (combine (cs.map L)).length := by
      rw [length_combine, length_combine, List.map_cons, List.map_cons, List.prod_cons]
    rw [List.map_cons, cappedProduct_cons, ih fun d hd => h d (.tail _ hd), h c (.head _), capped_mul,
      hlen]

end

/-! ## Counts that fit -/

/-- The counts fit the nodes in question of an arena that has lost alternatives: the count of a node is
made of those of the children that it has kept, and those that it has lost are passed over when one is
chosen. -/
structure Tallies (index : TreeIndex) (nodes kept : Arena) (S : NodeId → Prop) : Prop
    extends SameHeads nodes kept where
  layered : kept.Layered
  closed : ∀ id, S id → ∀ c ∈ childrenOf kept id, S c
  isCyclic : ∀ id, S id → index.isCyclic id = false
  count : ∀ id, S id → index.count id = index.countOf kept id
  choose : ∀ id, S id → (node nodes id).isChoice = true → ∀ i,
    index.choose nodes id i = index.chooseAmong i (childrenOf kept id)
  children : ∀ id, S id → (node nodes id).isPacked = true ∨
    (∃ A alt dot, (node nodes id).kind = .nulled A alt dot) → childrenOf kept id = childrenOf nodes id

variable {nodes kept : Arena} {g : Grammar} {tokens : TokenStream} {index : TreeIndex} {root id : NodeId}

theorem countOf_choice (hc : (node nodes id).isChoice = true) : index.countOf nodes id =
    cappedSum (((childrenOf nodes id).filter (!index.isCyclic ·)).map index.count) := by
  rcases Node.isChoice_iff.1 hc with ⟨A, hk⟩ | ⟨A, alt, dot, hk⟩ <;> simp only [countOf, hk] <;> rfl

theorem countOf_whole (hcyclic : index.isCyclic id = false) (hk : (node nodes id).isPacked = true ∨
      ∃ A alt dot, (node nodes id).kind = .nulled A alt dot) :
    index.countOf nodes id = cappedProduct ((childrenOf nodes id).map index.count) := by
  rcases hk with hp | ⟨A, alt, dot, hk⟩
  · obtain ⟨A, alt, hk⟩ := Node.isPacked_iff.1 hp
    simp only [countOf, hk, hcyclic, Bool.false_eq_true, if_false]
    rfl
  · simp only [countOf, hk]
    rfl

/-- Whatever is counted is counted right, up to the limit. -/
theorem Tallies.count_eq {S : NodeId → Prop} {rank : NodeId → Nat} (h : index.Tallies nodes kept S)
    (hr : kept.Ranked rank) (hleaf : ∀ id i, (node kept id).kind = .terminal i → i < tokens.length)
    (hid : S id) : index.count id = capped (kept.allReadings g tokens id).length := by
  induction hn : rank id using Nat.strongRecOn generalizing id with
  | ind n ih =>
    subst hn
    have hchild : ∀ c ∈ childrenOf kept id,
        index.count c = capped (kept.allReadings g tokens c).length := fun c hc =>
      ih _ (hr.lt id c hc) (h.closed id hid c hc) rfl
    have hfilter : (childrenOf kept id).filter (!index.isCyclic ·) = childrenOf kept id :=
      List.filter_eq_self.2 fun c hc => by rw [h.isCyclic c (h.closed id hid c hc)]; rfl
    have hproduct := cappedProduct_map_eq hchild
    have hsum := @cappedSum_map_eq index.count
    rw [h.count id hid]
    cases hk : (node kept id).kind with
    | symbol A =>
      have hc : (node kept id).isChoice = true := by rw [Node.isChoice, hk]
      rw [countOf_choice hc, hfilter, allReadings_symbol hr hk]
      refine cappedSum_map_eq fun p hp => ?_
      obtain ⟨B, alt, hpk⟩ := Node.isPacked_iff.1 (h.layered.isPacked id hc p hp)
      simp only [hpk, List.length_map, hchild p hp]
    | intermediate A alt dot =>
      have hc : (node kept id).isChoice = true := by rw [Node.isChoice, hk]
      rw [countOf_choice hc, hfilter, allReadings_intermediate hr hk]
      exact cappedSum_map_eq hchild
    | packed A alt =>
      have hp : (node kept id).isPacked = true := by rw [Node.isPacked, hk]
      rw [countOf_whole (h.isCyclic id hid) (.inl hp), allReadings_packed hr hp]
      exact hproduct
    | nulled A alt dot =>
      rw [countOf_whole (h.isCyclic id hid) (.inr ⟨A, alt, dot, hk⟩), allReadings_nulled hr hk]
      exact hproduct
    | terminal i =>
      rw [countOf, hk, allReadings_terminal hk, TokenStream.get?,
        Array.getElem?_eq_getElem (hleaf id i hk)]
      rfl
    | epsilon =>
      rw [countOf, hk, allReadings_epsilon hk]
      rfl

/-! ## What a survey leaves -/

namespace Surveyed

variable (h : index.Surveyed nodes root [])
include h

theorem count_of_isCyclic (hcyclic : index.isCyclic id = true) : index.count id = 0 := by
  by_cases hm : index.mark id = .finished
  · exact (h.cyclic id hcyclic).2.2 hm
  · exact h.count_eq_zero id hm

/-- Alternatives that are left out add nothing to the count of a choice. -/
theorem countOf_choice (hc : (node nodes id).isChoice = true) :
    index.countOf nodes id = cappedSum ((childrenOf nodes id).map index.count) := by
  rw [TreeIndex.countOf_choice hc]
  exact cappedSum_filter fun p _ hp => h.count_of_isCyclic (by simpa using hp)

/-- If there are no cycles, all that has been left is counted right. -/
theorem tallies (hl : nodes.Layered) (hacyclic : ¬ nodes.Cyclic root) :
    index.Tallies nodes nodes fun id => id < nodes.size ∧ index.mark id = .finished := by
  have hwhole : ∀ id, id < nodes.size ∧ index.mark id = .finished → index.isCyclic id = false ∧
      index.count id = index.countOf nodes id ∧ ∀ c ∈ childrenOf nodes id, index.mark c = .finished := by
    rintro id ⟨hlt, hm⟩
    cases h.settled id hlt hm with
    | whole hcyclic hcount hmark _ => exact ⟨hcyclic, hcount, hmark⟩
    | leaf _ _ hcyclic => exact absurd hcyclic hacyclic
    | none _ _ hcyclic => exact absurd hcyclic hacyclic
  exact ⟨.refl nodes, hl, fun id hid c hc => ⟨hl.closed id c hc, (hwhole id hid).2.2 c hc⟩,
    fun id hid => (hwhole id hid).1, fun id hid => (hwhole id hid).2.1, fun _ _ _ _ => rfl,
    fun _ _ _ => rfl⟩

end Surveyed

end TreeIndex

/-! ## Counts with cycles -/

namespace TreeIndex

variable {nodes : Arena} {index : TreeIndex} {root id c : NodeId}

theorem chooseAmong_filter {keep : NodeId → Bool} {ps : List NodeId}
    (h : ∀ p ∈ ps, keep p = false → index.count p = 0) (i : Nat) :
    index.chooseAmong i (ps.filter keep) = index.chooseAmong i ps := by
  induction ps generalizing i with
  | nil => rfl
  | cons p ps ih =>
    have ih := ih fun q hq => h q (.tail _ hq)
    cases hp : keep p with
    | true => rw [List.filter_cons_of_pos hp, chooseAmong, chooseAmong, ih, ih]
    | false =>
      rw [List.filter_cons_of_neg (by simp [hp]), chooseAmong, h p (.head _) hp, Nat.sub_zero,
        if_neg (Nat.not_lt_zero i), ih, ite_self]

/-- The children of a node that are kept: the alternatives that are counted, and the parts of what is. -/
def keptChildren (index : TreeIndex) (id : NodeId) (n : Node) : Array NodeId :=
  match n.kind with
  | .symbol _ => n.children.filter (0 < index.count ·)
  | .intermediate _ _ _ => n.children.filter (0 < index.count ·)
  | .packed _ _ => if 0 < index.count id then n.children else #[]
  | .nulled _ _ _ => if 0 < index.count id then n.children else #[]
  | .terminal _ => #[]
  | .epsilon => #[]

/-- What is left of an arena when alternatives that are counted as nothing are taken away, and the children
of all else that is. -/
def kept (index : TreeIndex) (nodes : Arena) : Arena :=
  nodes.mapIdx fun id n => { n with children := index.keptChildren id n }

theorem node_kept (id : NodeId) : node (index.kept nodes) id =
    { node nodes id with children := index.keptChildren id (node nodes id) } := by
  rcases Nat.lt_or_ge id nodes.size with hlt | hge
  · have hnode : node nodes id = nodes[id] := by simp [node, Array.getD, hlt]
    rw [node, kept, Array.getD_mapIdx (Array.getElem?_eq_getElem hlt), hnode]
  · rw [node_of_size_le hge, node_of_size_le (by simpa [kept] using hge)]
    rfl

theorem sameHeads_kept (index : TreeIndex) (nodes : Arena) : SameHeads nodes (index.kept nodes) :=
  ⟨by simp [kept], fun id => by rw [node_kept], fun id => by rw [node_kept]⟩

/-- A node is a choice, holds what its children hold, or is a leaf. -/
theorem kind_cases (nodes : Arena) (id : NodeId) : (node nodes id).isChoice = true ∨
    ((node nodes id).isPacked = true ∨ ∃ A alt dot, (node nodes id).kind = .nulled A alt dot) ∨
    ((∃ i, (node nodes id).kind = .terminal i) ∨ (node nodes id).kind = .epsilon) := by
  rw [Node.isChoice_iff, Node.isPacked_iff]
  cases (node nodes id).kind <;> simp

theorem childrenOf_kept_choice (hc : (node nodes id).isChoice = true) :
    childrenOf (index.kept nodes) id = (childrenOf nodes id).filter (0 < index.count ·) := by
  rw [childrenOf, node_kept, childrenOf]
  rcases Node.isChoice_iff.1 hc with ⟨A, hk⟩ | ⟨A, alt, dot, hk⟩ <;> simp [keptChildren, hk]

theorem childrenOf_kept_whole (hk : (node nodes id).isPacked = true ∨
      ∃ A alt dot, (node nodes id).kind = .nulled A alt dot) :
    childrenOf (index.kept nodes) id = if 0 < index.count id then childrenOf nodes id else [] := by
  rw [childrenOf, node_kept, childrenOf]
  rcases hk with hp | ⟨A, alt, dot, hk⟩
  · obtain ⟨A, alt, hk⟩ := Node.isPacked_iff.1 hp
    simp only [keptChildren, hk]
    split <;> rfl
  · simp only [keptChildren, hk]
    split <;> rfl

theorem childrenOf_kept_leaf (hk : (∃ i, (node nodes id).kind = .terminal i) ∨
      (node nodes id).kind = .epsilon) : childrenOf (index.kept nodes) id = [] := by
  rw [childrenOf, node_kept]
  rcases hk with ⟨i, hk⟩ | hk <;> simp [keptChildren, hk]

theorem mem_children_of_kept (hc : c ∈ childrenOf (index.kept nodes) id) : c ∈ childrenOf nodes id := by
  rcases kind_cases nodes id with hk | hk | hk
  · rw [childrenOf_kept_choice hk] at hc
    exact (List.mem_filter.1 hc).1
  · rw [childrenOf_kept_whole hk] at hc
    split at hc
    · exact hc
    · cases hc
  · rw [childrenOf_kept_leaf hk] at hc
    cases hc

theorem layered_kept (hl : nodes.Layered) : (index.kept nodes).Layered := by
  have hheads := sameHeads_kept index nodes
  refine ⟨fun id c hc => ?_, fun id hc p hp => ?_, fun id p hp hpk => ?_⟩
  · rw [hheads.size_eq]
    exact hl.closed id c (mem_children_of_kept hc)
  · rw [hheads.isChoice_eq] at hc
    rw [hheads.isPacked_eq]
    exact hl.isPacked id hc p (mem_children_of_kept hp)
  · rw [hheads.isPacked_eq] at hpk
    rw [hheads.isChoice_eq]
    exact hl.owner id p (mem_children_of_kept hp) hpk

namespace Surveyed

variable (h : index.Surveyed nodes root [])
include h

/-- What is counted has been left, and nothing closes a cycle over it. -/
theorem settled_of_pos (hpos : 0 < index.count id) :
    index.Settled nodes root id ∧ index.isCyclic id = false := by
  have hlt : id < nodes.size := by
    by_contra hge
    rw [count, Array.getD_of_size_le (by rw [h.counts_size]; exact Nat.not_lt.1 hge)] at hpos
    exact absurd hpos (Nat.lt_irrefl 0)
  refine ⟨h.settled id hlt ?_, ?_⟩
  · by_contra hm
    rw [h.count_eq_zero id hm] at hpos
    exact absurd hpos (Nat.lt_irrefl 0)
  · by_contra hcyclic
    rw [h.count_of_isCyclic (by simpa using hcyclic)] at hpos
    exact absurd hpos (Nat.lt_irrefl 0)

/-- What is kept of the children of a node is counted. -/
theorem pos_of_mem_kept (hc : c ∈ childrenOf (index.kept nodes) id) : 0 < index.count c := by
  rcases kind_cases nodes id with hk | hk | hk
  · rw [childrenOf_kept_choice hk] at hc
    simpa using (List.mem_filter.1 hc).2
  · rw [childrenOf_kept_whole hk] at hc
    split at hc
    · rename_i hpos
      obtain ⟨hsettled, hcyclic⟩ := h.settled_of_pos hpos
      -- a product of counts is zero if one of them is
      cases hsettled with
      | whole _ hcount _ _ =>
        by_contra hzero
        rw [hcount, countOf_whole hcyclic hk, cappedProduct_eq_zero] at hpos
        · exact absurd hpos (Nat.lt_irrefl 0)
        · exact List.mem_map.2 ⟨c, hc, Nat.eq_zero_of_not_pos hzero⟩
      | none _ hcount _ => omega
      | leaf hleaf _ _ =>
        rw [Node.isPacked_iff] at hk
        rcases hleaf with ⟨i, hleaf⟩ | hleaf <;> simp [hleaf] at hk
    · cases hc
  · rw [childrenOf_kept_leaf hk] at hc
    cases hc

/-- A way over what is kept ends. -/
theorem acc_kept (id : NodeId) :
    Acc (fun c a => c ∈ childrenOf (index.kept nodes) a) id := by
  -- whatever is kept has been left, and what has been left rests on what was left before
  have hsettled : ∀ id, index.Settled nodes root id →
      Acc (fun c a => c ∈ childrenOf (index.kept nodes) a) id := by
    intro id hid
    induction hid with
    | leaf hk _ _ =>
      refine ⟨_, fun c hc => ?_⟩
      rw [childrenOf_kept_leaf hk] at hc
      cases hc
    | whole _ _ _ _ ih => exact ⟨_, fun c hc => ih c (mem_children_of_kept hc)⟩
    | @none id hchoice hcount _ =>
      refine ⟨_, fun c hc => ?_⟩
      rcases kind_cases nodes id with hk | hk | hk
      · rw [hk] at hchoice
        cases hchoice
      · rw [childrenOf_kept_whole hk, hcount] at hc
        cases hc
      · rw [childrenOf_kept_leaf hk] at hc
        cases hc
  exact ⟨_, fun c hc => hsettled c (h.settled_of_pos (h.pos_of_mem_kept hc)).1⟩

/-- What is kept has ranks. -/
theorem exists_ranked (hl : nodes.Layered) (hε : (node nodes epsilonId).kind = .epsilon) :
    ∃ rank, (index.kept nodes).Ranked rank := by
  have hwf : WellFounded fun c a => c ∈ childrenOf (index.kept nodes) a := ⟨h.acc_kept⟩
  have hirr : ∀ a, ¬ Relation.TransGen (fun a c => c ∈ childrenOf (index.kept nodes) a) a a := by
    intro a ha
    induction a using hwf.transGen.induction with
    | _ a ih => exact ih a (Relation.transGen_swap.1 ha) ha
  obtain ⟨rank, hle, hlt, hzero⟩ := exists_rank
    (fun a c hc => (layered_kept hl).closed a c hc) hirr
  refine ⟨rank, fun id c hc => hlt id c hc, hle, hzero epsilonId fun c hc => ?_⟩
  rw [childrenOf_kept_leaf (.inr hε)] at hc
  cases hc

/-- The counts fit what is kept. -/
theorem tallies_kept (hl : nodes.Layered) :
    index.Tallies nodes (index.kept nodes) fun id => 0 < index.count id := by
  have hheads := sameHeads_kept index nodes
  have hnone : ∀ {id}, ∀ p ∈ childrenOf nodes id, decide (0 < index.count p) = false →
      index.count p = 0 := fun p _ hp => by simpa using hp
  refine ⟨hheads, layered_kept hl, fun id _ c hc => h.pos_of_mem_kept hc,
    fun id hid => (h.settled_of_pos hid).2, fun id hid => ?_, fun id _ hk i => ?_, fun id hid hk => ?_⟩
  · obtain ⟨hsettled, hcyclic⟩ := h.settled_of_pos hid
    cases hsettled with
    | leaf hk hcount _ =>
      rcases hk with ⟨i, hk⟩ | hk <;> rw [hcount, countOf, hheads.kind_eq, hk]
    | none _ hcount _ => exact absurd hcount (Nat.ne_of_gt hid)
    | whole _ hcount _ _ =>
      rw [hcount]
      rcases kind_cases nodes id with hk | hk | hk
      · have hfilter : (childrenOf (index.kept nodes) id).filter (!index.isCyclic ·) =
            childrenOf (index.kept nodes) id := by
          refine List.filter_eq_self.2 fun p hp => ?_
          rw [(h.settled_of_pos (h.pos_of_mem_kept hp)).2]
          rfl
        rw [h.countOf_choice hk, TreeIndex.countOf_choice (by rwa [hheads.isChoice_eq]), hfilter,
          childrenOf_kept_choice hk, cappedSum_filter hnone]
      · rw [countOf_whole hcyclic hk, countOf_whole hcyclic (by rwa [hheads.isPacked_eq, hheads.kind_eq]),
          childrenOf_kept_whole hk, if_pos hid]
      · rcases hk with ⟨i, hk⟩ | hk <;> simp only [countOf, hheads.kind_eq, hk]
  · rw [childrenOf_kept_choice hk, chooseAmong_filter hnone]
    rfl
  · rw [childrenOf_kept_whole hk, if_pos hid]

end Surveyed

end TreeIndex

end ParseForest
