import ParseForest.Proofs.Forest.Collapsing

/-!
# Choices keep an alternative

Of a set of nodes that is closed under children, and of which every choice has an alternative
(`Arena.Stocked`), no packed node is dead (`Pass.Stocked.not_dead`). Pruning leaves such a set as it
is, and the passes that compare alternatives leave every choice one (`Pass.stocked_selecting`), with the
exception of precedence, which may take away all alternatives that have operators.

The last of the passes that take alternatives away is a pruning. What it leaves to the root of an arena
without cycles stands for something (`Pass.allReadings_standard_ne_nil`).
-/

namespace ParseForest

namespace Arena

variable {nodes nodes' : Arena} {g : Grammar} {tokens : TokenStream} {F : NodeId → Prop}

/-- A set of nodes that is closed under children, and of which every choice has an alternative. -/
structure Stocked (nodes : Arena) (F : NodeId → Prop) : Prop where
  closed : ∀ id, F id → ∀ c ∈ childrenOf nodes id, F c
  ne_nil : ∀ id, F id → (node nodes id).isChoice = true → childrenOf nodes id ≠ []

theorem Stocked.trims (h : nodes.Stocked F) (ht : Trims nodes nodes')
    (hne : ∀ id, F id → (node nodes id).isChoice = true → childrenOf nodes id ≠ [] →
      childrenOf nodes' id ≠ []) : nodes'.Stocked F := by
  refine ⟨fun id hid c hc => h.closed id hid c (ht.mem_children hc), fun id hid hc => ?_⟩
  rw [ht.toSameHeads.isChoice_eq] at hc
  exact hne id hid hc (h.ne_nil id hid hc)

/-- A node of the set that is not packed stands for something, in an arena without cycles. -/
theorem Stocked.readings_ne_nil {rank : NodeId → Nat} (h : nodes.Stocked F) (hl : nodes.Layered)
    (hrank : nodes.Ranked rank)
    (hleaf : ∀ id i, F id → (node nodes id).kind = .terminal i → (tokens.get? i).isSome) {fuel : Nat}
    {id : NodeId} (hid : F id) (hfuel : rank id < fuel) : nodes.readings g tokens fuel id ≠ [] := by
  induction fuel using Nat.strongRecOn generalizing id with
  | ind fuel ih =>
    obtain ⟨fuel, rfl⟩ : ∃ n, fuel = n + 1 := ⟨fuel - 1, by omega⟩
    have hchildren : ∀ c ∈ childrenOf nodes id, nodes.readings g tokens fuel c ≠ [] := fun c hc =>
      ih fuel (Nat.lt_succ_self _) (h.closed id hid c hc) (by have := hrank.lt id c hc; omega)
    have hall : combine ((childrenOf nodes id).map (nodes.readings g tokens fuel)) ≠ [] := by
      refine Pass.combine_ne_nil fun x hx => ?_
      obtain ⟨c, hc, rfl⟩ := List.mem_map.1 hx
      exact hchildren c hc
    by_cases hc : (node nodes id).isChoice = true
    · obtain ⟨p, hp⟩ := List.exists_mem_of_ne_nil _ (h.ne_nil id hid hc)
      exact Pass.readings_choice_ne_nil hl hc hp (hchildren p hp)
    · cases hk : (node nodes id).kind with
      | symbol A => simp [Node.isChoice, hk] at hc
      | intermediate A alt dot => simp [Node.isChoice, hk] at hc
      | packed A alt =>
        rw [readings_packed (by rw [Node.isPacked, hk])]
        exact hall
      | nulled A alt dot => simpa only [readings, hk] using hall
      | terminal i =>
        obtain ⟨tok, htok⟩ := Option.isSome_iff_exists.1 (hleaf id i hid hk)
        simp [readings, hk, htok]
      | epsilon => simp [readings, hk]

end Arena

namespace Pass

open Arena

variable {nodes : Arena} {g : Grammar} {tokens : TokenStream} {root : NodeId} {F : NodeId → Prop}

/-! ## The passes that take alternatives away -/

/-- The passes that take alternatives away, up to the last pruning. -/
def selecting (precedence greedy : Bool) : List Pass :=
  [pruneDead] ++ (if precedence then [resolvePrecedence, pruneDead] else []) ++ [dedupeEquivalent]
    ++ (if greedy then [preferLongestList] else [])

theorem runAll_standard (precedence greedy : Bool) (g : Grammar) (root : NodeId) (nodes : Arena) :
    (runAll (standard precedence greedy) g root nodes).1 =
      (runAll [pruneDead, collapse, linkParents] g root
        (runAll (selecting precedence greedy) g root nodes).1).1 := by
  rw [runAll_eq, runAll_eq, runAll_eq, ← List.foldl_append]
  rfl

theorem trims_runAll {passes : List Pass}
    (h : ∀ pass ∈ passes, ∀ nodes, Trims nodes (pass.run g root nodes).1) :
    Trims nodes (runAll passes g root nodes).1 := by
  rw [runAll_eq]
  exact List.foldlRecOn (motive := fun current => Trims nodes current) _ _ (.refl nodes)
    fun current hc pass hp => hc.trans (h pass hp current)

theorem mem_selecting {precedence greedy : Bool} {pass : Pass}
    (h : pass ∈ selecting precedence greedy) : pass = pruneDead ∨
      (precedence = true ∧ pass = resolvePrecedence) ∨ pass = dedupeEquivalent ∨
      (greedy = true ∧ pass = preferLongestList) := by
  cases precedence <;> cases greedy <;> simp [selecting] at h <;> tauto

theorem trims_selecting (precedence greedy : Bool) :
    Trims nodes (runAll (selecting precedence greedy) g root nodes).1 := by
  refine trims_runAll fun pass hp nodes => ?_
  rcases mem_selecting hp with rfl | ⟨-, rfl⟩ | rfl | ⟨-, rfl⟩
  · exact trims_pruneDead g root nodes
  · exact trims_resolvePrecedence g root nodes
  · exact trims_dedupeEquivalent g root nodes
  · exact trims_preferLongestList g root nodes

/-! ## What is left of a stocked set -/

/-- No packed node of a stocked set is dead. -/
theorem not_dead_of_stocked (h : nodes.Stocked F) {p : NodeId} (hp : F p) :
    (deadNodes nodes root).getD p false = false := by
  by_contra hdead
  rw [deadNodes_eq] at hdead
  refine leastMarks_induction (P := fun p => ¬ F p) (fun dead p hdead hp hF => ?_)
    (eq_true_of_ne_false hdead) hp
  simp only [isDead, Bool.and_eq_true] at hp
  obtain ⟨-, hany⟩ := hp
  obtain ⟨c, hc, hc'⟩ := Array.any_eq_true'.1 hany
  obtain ⟨hchoice, hall⟩ := Bool.and_eq_true_iff.1 hc'
  have hFc := h.closed p hF c (Array.mem_toList_iff.2 hc)
  obtain ⟨q, hq⟩ := List.exists_mem_of_ne_nil _ (h.ne_nil c hFc hchoice)
  exact hdead q (Array.all_eq_true_iff_forall_mem.1 hall q (Array.mem_toList_iff.1 hq))
    (h.closed c hFc q hq)

theorem stocked_pruneDead (h : nodes.Stocked F) : (pruneDead.run g root nodes).1.Stocked F := by
  refine h.trims (trims_pruneDead g root nodes) fun id hid hc hne => ?_
  rw [childrenOf_pruneDead]
  split
  · rwa [List.filter_eq_self.2 fun p hp => by
      rw [not_dead_of_stocked h (h.closed id hid p hp)]
      rfl]
  · exact hne

/-- An edit leaves a node its children, or gives it new ones. -/
theorem childrenOf_applyEdits_cases (edits : List (NodeId × Array NodeId)) (id : NodeId) :
    childrenOf (applyEdits nodes edits).1 id = childrenOf nodes id ∨
      ∃ x ∈ edits, x.1 = id ∧ childrenOf (applyEdits nodes edits).1 id = x.2.toList := by
  simp only [applyEdits]
  induction edits generalizing nodes with
  | nil => exact .inl rfl
  | cons x edits ih =>
    rw [List.foldl_cons]
    rcases @ih (setChildren nodes x.1 x.2) with he | ⟨y, hy, hid, he⟩
    · by_cases hx : x.1 = id
      · subst hx
        by_cases hlt : x.1 < nodes.size
        · exact .inr ⟨x, .head _, rfl, by rw [he, childrenOf_setChildren_self hlt]⟩
        · refine .inl ?_
          rw [he, childrenOf, childrenOf, node_of_size_le (by simpa using hlt),
            node_of_size_le (Nat.not_lt.1 hlt)]
      · exact .inl (by rw [he, childrenOf_setChildren_ne hx])
    · exact .inr ⟨y, .tail _ hy, hid, he⟩

/-- Edits that leave choices an alternative keep a set stocked. -/
theorem stocked_applyEdits {edits : List (NodeId × Array NodeId)} (h : nodes.Stocked F)
    (ht : Trims nodes (applyEdits nodes edits).1) (hne : ∀ x ∈ edits, x.2.toList ≠ []) :
    (applyEdits nodes edits).1.Stocked F := by
  refine h.trims ht fun id hid hc hid' => ?_
  rcases @childrenOf_applyEdits_cases nodes edits id with he | ⟨x, hx, -, he⟩ <;> rw [he]
  · exact hid'
  · exact hne x hx

/-- One of each shape is left. -/
theorem distinctShapes_ne_nil {ids : List NodeId} {t : ShapeTable} (h : ids ≠ []) :
    (distinctShapes nodes ids [] t).1 ≠ [] := by
  obtain ⟨id, ids, rfl⟩ := List.exists_cons_of_ne_nil h
  simp [distinctShapes]

theorem stocked_dedupeEquivalent (h : nodes.Stocked F) :
    (dedupeEquivalent.run g root nodes).1.Stocked F := by
  refine stocked_applyEdits h (trims_dedupeEquivalent g root nodes) ?_
  generalize liveNodes nodes root = live
  generalize ShapeTable.empty nodes.size = t
  induction live generalizing t with
  | nil => simp [dedupeEdits]
  | cons x live ih =>
    simp only [dedupeEdits]
    split
    · rename_i hc
      split
      · exact ih _
      · intro y hy
        rcases List.mem_cons.1 hy with rfl | hy
        · refine distinctShapes_ne_nil fun hnil => ?_
          simp [Array.toList_eq_nil_iff.1 hnil] at hc
        · exact ih _ y hy
    · exact ih _

/-- Some alternative is beaten by none, or all are left. -/
theorem unbeaten_ne_nil {children : List NodeId} (h : children ≠ []) :
    unbeaten g nodes children ≠ [] := by
  simp only [unbeaten]
  split
  · exact h
  · rename_i hall
    intro hnil
    refine hall (List.all_eq_true.2 fun x hx => ?_)
    by_contra hx'
    have hleft := List.filter_eq_nil_iff.1 (List.map_eq_nil_iff.1 hnil) x hx
    simp [hx'] at hleft

theorem stocked_preferLongestList (h : nodes.Stocked F) :
    (preferLongestList.run g root nodes).1.Stocked F := by
  refine stocked_applyEdits h (trims_preferLongestList g root nodes) fun x hx => ?_
  obtain ⟨⟨n, id⟩, -, he⟩ := List.mem_filterMap.1 hx
  dsimp only at he
  split at he
  · rename_i hc
    split at he
    · cases he
    · obtain rfl := Option.some.inj he
      refine unbeaten_ne_nil fun hnil => ?_
      simp [Array.toList_eq_nil_iff.1 hnil] at hc
  · cases he

/-- Where no alternative of the set has an operator, precedence takes none of them away. -/
theorem childrenOf_resolveNode_of_plain {id id' : NodeId}
    (h : ∀ p ∈ childrenOf nodes id', isOperatorNode g nodes p = false) :
    childrenOf (resolveNode g nodes id) id' = childrenOf nodes id' := by
  rw [resolveNode]
  split
  · rename_i rule hk
    by_cases hid : id = id'
    · subst hid
      rw [childrenOf_setChildren_self (lt_size_of_isChoice (by rw [Node.isChoice, hk])),
        Array.toList_filter]
      refine List.filter_eq_self.2 fun p hp => ?_
      rw [keepsAlternative, h p hp]
      split <;> rfl
    · exact childrenOf_setChildren_ne hid
  · rfl

theorem stocked_resolvePrecedence (h : nodes.Stocked F)
    (hplain : ∀ id, F id → (node nodes id).isChoice = true → ∀ p ∈ childrenOf nodes id,
      isOperatorNode g nodes p = false) :
    (resolvePrecedence.run g root nodes).1.Stocked F := by
  have hall : ∀ (ids : List NodeId) (current : Arena) (changed : Bool), Trims nodes current →
      ∀ id, F id → (node nodes id).isChoice = true → childrenOf current id = childrenOf nodes id →
        childrenOf (resolveAll g ids current changed).1 id = childrenOf nodes id := by
    intro ids
    induction ids with
    | nil => exact fun _ _ _ _ _ _ he => he
    | cons id' ids ih =>
      intro current changed ht id hid hc he
      refine ih _ _ (ht.trans (trims_resolveNode g current id')) id hid hc ?_
      rw [childrenOf_resolveNode_of_plain fun p hp => ?_, he]
      rw [isOperatorNode, ht.kind_eq]
      exact hplain id hid hc p (he ▸ hp)
  refine h.trims (trims_resolvePrecedence g root nodes) fun id hid hc hne => ?_
  rw [show childrenOf (resolvePrecedence.run g root nodes).1 id = childrenOf nodes id from
    hall _ nodes false (.refl nodes) id hid hc rfl]
  exact hne

/-- A stocked set stays stocked up to the last pruning, if none of its alternatives has an operator or
precedence is off. -/
theorem stocked_selecting {precedence greedy : Bool} (h : nodes.Stocked F)
    (hplain : precedence = true → ∀ id, F id → (node nodes id).isChoice = true →
      ∀ p ∈ childrenOf nodes id, isOperatorNode g nodes p = false) :
    (runAll (selecting precedence greedy) g root nodes).1.Stocked F := by
  rw [runAll_eq]
  refine (List.foldlRecOn (motive := fun current => Trims nodes current ∧ current.Stocked F)
    _ _ ⟨.refl nodes, h⟩ fun current ⟨ht, hs⟩ pass hp => ?_).2
  rcases mem_selecting hp with rfl | ⟨hprecedence, rfl⟩ | rfl | ⟨-, rfl⟩
  · exact ⟨ht.trans (trims_pruneDead g root current), stocked_pruneDead hs⟩
  · refine ⟨ht.trans (trims_resolvePrecedence g root current),
      stocked_resolvePrecedence hs fun id hid hc p hp => ?_⟩
    rw [ht.toSameHeads.isChoice_eq] at hc
    rw [isOperatorNode, ht.kind_eq]
    exact hplain hprecedence id hid hc p (ht.mem_children hp)
  · exact ⟨ht.trans (trims_dedupeEquivalent g root current), stocked_dedupeEquivalent hs⟩
  · exact ⟨ht.trans (trims_preferLongestList g root current), stocked_preferLongestList hs⟩

/-! ## What the last pruning leaves -/

/-- The children of a choice are those that the last pruning leaves. -/
theorem childrenOf_standard {precedence greedy : Bool} {id : NodeId}
    (hid : (node nodes id).isPacked = false) :
    childrenOf (runAll (standard precedence greedy) g root nodes).1 id = childrenOf
      (pruneDead.run g root (runAll (selecting precedence greedy) g root nodes).1).1 id := by
  rw [runAll_standard]
  generalize hcurrent : (runAll (selecting precedence greedy) g root nodes).1 = current
  have ht : Trims nodes (pruneDead.run g root current).1 := by
    rw [← hcurrent]
    exact (trims_selecting precedence greedy).trans (trims_pruneDead g root _)
  rw [runAll_eq]
  simp only [List.foldl_cons, List.foldl_nil]
  rw [(relinks_linkParents _ _ _).childrenOf_eq]
  exact childrenOf_collapseAll _ (by rw [Node.isPacked, ht.kind_eq]; exact hid)

section

variable {rank : NodeId → Nat} (hl : nodes.Layered) (hrank : nodes.Ranked rank)
  (hε : (node nodes epsilonId).kind = .epsilon)
  (hleaf : ∀ id i, (node nodes id).kind = .terminal i → (tokens.get? i).isSome)
  {F : NodeId → Prop} (hF : nodes.Stocked F)
  (hnulled : ∀ id A alt dot, (node nodes id).kind = .nulled A alt dot → F id)
include hl hrank hε hleaf hF hnulled

/-- What the passes leave to the root of an arena without cycles stands for something. -/
theorem allReadings_standard_ne_nil {precedence greedy : Bool}
    (hplain : precedence = true → ∀ id, F id → (node nodes id).isChoice = true →
      ∀ p ∈ childrenOf nodes id, isOperatorNode g nodes p = false)
    (hroot : (node nodes root).isChoice = true)
    (hne : childrenOf (runAll (standard precedence greedy) g root nodes).1 root ≠ []) :
    (runAll (standard precedence greedy) g root nodes).1.Layered ∧
      (runAll (standard precedence greedy) g root nodes).1.Ranked rank ∧
      (runAll (standard precedence greedy) g root nodes).1.allReadings g tokens root ≠ [] := by
  rw [childrenOf_standard (Node.not_isPacked_of_isChoice hroot)] at hne
  rw [runAll_standard]
  have ht := @trims_selecting nodes g root precedence greedy
  have hstocked := @stocked_selecting nodes g root F precedence greedy hF hplain
  generalize (runAll (selecting precedence greedy) g root nodes).1 = current at ht hstocked hne
  have hlc := hl.trims ht
  have hrankc := hrank.trims ht
  have hleafc : ∀ id i, (node current id).kind = .terminal i → (tokens.get? i).isSome :=
    fun id i hk => hleaf id i (by rwa [← ht.kind_eq])
  have hprune := trims_pruneDead g root current
  have hrestacks := @restacks_collapse_linkParents (pruneDead.run g root current).1 g tokens root rank
    (hrankc.trims hprune) (hlc.trims hprune) (by rw [hprune.kind_eq, ht.kind_eq, hε])
  rw [runAll_eq]
  simp only [List.foldl_cons, List.foldl_nil]
  refine ⟨hrestacks.layered, hrestacks.ranked, ?_⟩
  rw [hrestacks.readings, allReadings, pruneDead_readings, hprune.size_eq]
  rw [← ht.toSameHeads.isChoice_eq] at hroot
  refine readings_ne_nil_of_pruned hlc hrankc hleafc (fun id A alt dot hk fuel hfuel => ?_) hroot
    (live_root (lt_size_of_isChoice hroot)) hne (Nat.lt_succ_of_le (hrankc.le_size root))
  exact hstocked.readings_ne_nil hlc hrankc (fun id i _ => hleafc id i)
    (hnulled id A alt dot (by rwa [← ht.kind_eq])) hfuel

end

end Pass

end ParseForest
