import ParseForest.Proofs.Forest.Comparing
import ParseForest.Proofs.Forest.Outlines
import ParseForest.Proofs.Forest.Stocked

/-!
# How far pruning cascades

Death passes from a choice that has lost its alternatives to the alternatives that hold it, and on to the
choices that own them. So an alternative that is left holds no choice without alternatives
(`Pass.children_ne_nil_of_held`). It does not pass through right-nullable parts, of which nothing owns the
alternatives that hold them: below such a part, and nowhere else, a choice may be left without alternatives
(`Pass.stockedBelow_pruneDead_iff`), and with it a forest that has no trees but a root with alternatives.
-/

namespace ParseForest

open Arena ParseForest.Derivation

namespace Arena

variable {nodes : Arena} {root id : NodeId} {F : NodeId → Prop}

/-- Every choice that can be reached has an alternative, the root excepted. -/
def StockedBelow (nodes : Arena) (root : NodeId) : Prop :=
  ∀ c, nodes.Reachable root c → (node nodes c).isChoice = true → c ≠ root → childrenOf nodes c ≠ []

/-- What holds choices and is not an alternative that pruning can take away: a right-nullable part, and the
root, unless it is a choice itself. -/
def Unpruned (nodes : Arena) (root id : NodeId) : Prop :=
  (∃ A alt dot, (node nodes id).kind = .nulled A alt dot) ∨ id = root ∧ (node nodes id).isChoice = false

/-! ## What is spelled -/

/-- A node of a stocked set spells something, if the set has no cycles. -/
theorem Stocked.exists_derives {rank : NodeId → Nat} (h : nodes.Stocked F)
    (hrank : ∀ id, F id → ∀ c ∈ childrenOf nodes id, rank c < rank id) (hid : F id) :
    ∃ d, nodes.Derives id d := by
  induction hn : rank id using Nat.strongRecOn generalizing id with
  | ind n ih =>
    have hchildren : ∀ c ∈ childrenOf nodes id, ∃ d, nodes.Derives c d := fun c hc =>
      ih _ (hn ▸ hrank id hid c hc) (h.closed id hid c hc) rfl
    by_cases hc : (node nodes id).isChoice = true
    · obtain ⟨p, hp⟩ := List.exists_mem_of_ne_nil _ (h.ne_nil id hid hc)
      exact (exists_derives_choice_iff hc).2 ⟨p, hp, hchildren p hp⟩
    · cases hk : (node nodes id).kind with
      | symbol A => simp [Node.isChoice, hk] at hc
      | intermediate A alt dot => simp [Node.isChoice, hk] at hc
      | packed A alt => exact (exists_derives_whole_iff (.inl (by rw [Node.isPacked, hk]))).2 hchildren
      | nulled A alt dot => exact (exists_derives_whole_iff (.inr ⟨A, alt, dot, hk⟩)).2 hchildren
      | terminal i => exact ⟨_, .leaf (.inl ⟨i, hk⟩)⟩
      | epsilon => exact ⟨_, .leaf (.inr hk)⟩

/-- What can be reached from the root of an arena spells something, if all choices below it have
alternatives. -/
theorem Rooted.exists_derives (h : nodes.Rooted root) (hid : nodes.Reachable root id)
    (hne : ∀ a, nodes.Reachable id a → (node nodes a).isChoice = true → childrenOf nodes a ≠ []) :
    ∃ d, nodes.Derives id d := by
  obtain ⟨rank, -, hrank, -⟩ := h.exists_rank
  have hF : nodes.Stocked (nodes.Reachable id) := ⟨fun a ha c hc => ha.child hc, hne⟩
  exact hF.exists_derives (fun a ha => hrank a (.inl (hid.trans ha))) .refl

/-- Where every choice below the root has an alternative, the root spells something, unless it is a choice
that has none itself. -/
theorem StockedBelow.exists_derives_iff (hs : nodes.StockedBelow root) (h : nodes.Rooted root) :
    (∃ d, nodes.Derives root d) ↔ ¬ ((node nodes root).isChoice = true ∧ childrenOf nodes root = []) := by
  constructor
  · rintro hd ⟨hc, hnil⟩
    obtain ⟨p, hp, -⟩ := (exists_derives_choice_iff hc).1 hd
    rw [hnil] at hp
    cases hp
  · refine fun hne => h.exists_derives .refl fun a ha hc => ?_
    by_cases hroot : a = root
    · subst hroot
      exact fun hnil => hne ⟨hc, hnil⟩
    · exact hs a ha hc hroot

/-- What can be reached from each other is the same, where no cycle can be reached. -/
theorem eq_root_of_reachable (hacyclic : ¬ nodes.Cyclic root) (hid : nodes.Reachable root id)
    (hroot : nodes.Reachable id root) : id = root := by
  rcases Relation.reflTransGen_iff_eq_or_transGen.1 hroot with heq | hbelow
  · exact heq.symm
  · exact absurd ⟨root, .refl, hbelow.trans_right hid⟩ hacyclic

end Arena

/-- A rooted forest has trees exactly if its root spells a derivation. -/
theorem Forest.treeCount_ne_zero_iff {f : Forest} (h : f.nodes.Rooted f.root) :
    f.treeCount ≠ 0 ↔ ∃ d, f.nodes.Derives f.root d := by
  obtain ⟨n, hn⟩ := exists_terminal_lt f.nodes
  obtain ⟨kept, rank, hr, ha, ht⟩ := exists_tallies h
  have hleaf : ∀ id i, (Arena.node kept id).kind = .terminal i → i < (TokenStream.numbered n).length :=
    fun id i hk => by rw [TokenStream.length_numbered]; exact hn id i (by rwa [← ha.kind_eq])
  have hcapped : ∀ k, capped k ≠ 0 ↔ k ≠ 0 := fun k => by rw [capped, countLimit]; omega
  have hlist : kept.allReadings f.grammar (.numbered n) f.root ≠ [] ↔ ∃ d, kept.Derives f.root d := by
    rw [Arena.allReadings, ← map_trees_derivations ht.layered hleaf, ne_eq, List.map_eq_nil_iff,
      List.eq_nil_iff_forall_not_mem, not_forall_not]
    exact exists_congr fun d => mem_derivations_iff hr (Nat.lt_succ_of_le (hr.le_size f.root))
  rw [treeCount, ht.count_eq (g := f.grammar) hr hleaf .refl, hcapped, ne_eq, List.length_eq_zero_iff, ← ne_eq,
    hlist]
  exact exists_congr fun d => ⟨ha.symm.derives .refl, ha.derives .refl⟩

namespace Pass

variable {nodes : Arena} {g : Grammar} {root : NodeId}

/-! ## What is dead -/

/-- What spells a derivation is not dead. -/
theorem not_dead_of_derives {p : NodeId} (h : ∃ d, nodes.Derives p d) :
    (deadNodes nodes root).getD p false = false := by
  by_contra hdead
  rw [deadNodes_eq] at hdead
  refine leastMarks_induction (P := fun p => ¬ ∃ d, nodes.Derives p d) (fun dead p hdead hp hderives => ?_)
    (eq_true_of_ne_false hdead) h
  simp only [isDead, Bool.and_eq_true] at hp
  obtain ⟨⟨-, hpacked⟩, hany⟩ := hp
  obtain ⟨c, hc, hc'⟩ := Array.any_eq_true'.1 hany
  obtain ⟨hchoice, hall⟩ := Bool.and_eq_true_iff.1 hc'
  have hderives := (exists_derives_whole_iff (.inl hpacked)).1 hderives c (Array.mem_toList_iff.2 hc)
  obtain ⟨q, hq, hderives⟩ := (exists_derives_choice_iff hchoice).1 hderives
  exact hdead q (Array.all_eq_true_iff_forall_mem.1 hall q (Array.mem_toList_iff.1 hq)) hderives

section

variable (h : nodes.Rooted root)
include h

theorem mem_children_pruneDead_iff {id p : NodeId} (hid : nodes.Reachable root id)
    (hc : (node nodes id).isChoice = true) : p ∈ childrenOf (pruneDead.run g root nodes).1 id ↔
      p ∈ childrenOf nodes id ∧ (deadNodes nodes root).getD p false = false := by
  rw [childrenOf_pruneDead, if_pos ⟨hc, (live_iff_reachable h.root_lt h.closed).2 hid⟩, List.mem_filter,
    Bool.not_eq_true']

/-- A choice that spells a derivation keeps an alternative. -/
theorem children_ne_nil_of_derives {c : NodeId} (hid : nodes.Reachable root c)
    (hc : (node nodes c).isChoice = true) (hd : ∃ d, nodes.Derives c d) :
    childrenOf (pruneDead.run g root nodes).1 c ≠ [] := by
  obtain ⟨q, hq, hd⟩ := (exists_derives_choice_iff hc).1 hd
  exact List.ne_nil_of_mem ((mem_children_pruneDead_iff h hid hc).2 ⟨hq, not_dead_of_derives hd⟩)

/-- A choice that an alternative holds that is left has an alternative. -/
theorem children_ne_nil_of_held {p c : NodeId}
    (hp : (pruneDead.run g root nodes).1.Reachable root p) (hpacked : (node nodes p).isPacked = true)
    (hne : p ≠ root) (hc : c ∈ childrenOf (pruneDead.run g root nodes).1 p)
    (hchoice : (node nodes c).isChoice = true) : childrenOf (pruneDead.run g root nodes).1 c ≠ [] := by
  have ht := trims_pruneDead g root nodes
  have hlive := ht.reachable hp
  rcases Relation.ReflTransGen.cases_tail hp with heq | ⟨owner, howner, hmem⟩
  · exact absurd heq hne
  · have hdead := ((mem_children_pruneDead_iff h (ht.reachable howner)
      (h.owner owner p (ht.mem_children hmem) hpacked)).1 hmem).2
    obtain ⟨q, hq, hdeadq⟩ := exists_not_dead hpacked
      ((live_iff_reachable h.root_lt h.closed).2 hlive) hdead (ht.mem_children hc) hchoice
    exact List.ne_nil_of_mem ((mem_children_pruneDead_iff h (hlive.child (ht.mem_children hc)) hchoice).2
      ⟨hq, hdeadq⟩)

/-- Pruning leaves every choice below the root an alternative exactly if it leaves nothing that it cannot take
away without a derivation. -/
theorem stockedBelow_pruneDead_iff (hleaf : ∀ id, nodes.Reachable root id →
      (∃ i, (node nodes id).kind = .terminal i) ∨ (node nodes id).kind = .epsilon → childrenOf nodes id = []) :
    (pruneDead.run g root nodes).1.StockedBelow root ↔ ∀ id,
      (pruneDead.run g root nodes).1.Reachable root id → nodes.Unpruned root id → ∃ d, nodes.Derives id d := by
  have ht := trims_pruneDead g root nodes
  constructor
  · intro hstocked id hid hun
    have h' := h.trims ht
    obtain ⟨d, hd⟩ := h'.exists_derives hid fun a ha hc => hstocked a (hid.trans ha) hc fun hroot => by
      -- the root is a choice then, and below itself only
      subst hroot
      obtain rfl := eq_root_of_reachable h'.acyclic hid ha
      rw [ht.toSameHeads.isChoice_eq] at hc
      rcases hun with ⟨A, alt, dot, hk⟩ | ⟨-, hun⟩
      · rw [Node.isChoice, hk] at hc
        cases hc
      · rw [hun] at hc
        cases hc
    exact ⟨d, ht.derives hd⟩
  · intro hun c hc hchoice hne
    rw [ht.toSameHeads.isChoice_eq] at hchoice
    rcases Relation.ReflTransGen.cases_tail hc with heq | ⟨a, ha, hmem⟩
    · exact absurd heq hne
    · have hca := ht.mem_children hmem
      have hwhole : (node nodes a).isPacked = true ∨ (∃ A alt dot, (node nodes a).kind = .nulled A alt dot) →
          nodes.Unpruned root a → childrenOf (pruneDead.run g root nodes).1 c ≠ [] := fun hk hua =>
        children_ne_nil_of_derives h (ht.reachable hc) hchoice
          ((exists_derives_whole_iff hk).1 (hun a ha hua) c hca)
      have hnot : (node nodes a).isChoice ≠ true := fun hk => by
        have hpacked := h.isPacked a hk c hca
        rw [Node.not_isPacked_of_isChoice hchoice] at hpacked
        cases hpacked
      cases hk : (node nodes a).kind with
      | symbol A => simp [Node.isChoice, hk] at hnot
      | intermediate A alt dot => simp [Node.isChoice, hk] at hnot
      | packed A alt =>
        have hpacked : (node nodes a).isPacked = true := by rw [Node.isPacked, hk]
        by_cases hroot : a = root
        · exact hwhole (.inl hpacked) (.inr ⟨hroot, by simpa using hnot⟩)
        · exact children_ne_nil_of_held h ha hpacked hroot hmem hchoice
      | nulled A alt dot => exact hwhole (.inr ⟨A, alt, dot, hk⟩) (.inl ⟨A, alt, dot, hk⟩)
      | terminal i =>
        rw [hleaf a (ht.reachable ha) (.inl ⟨i, hk⟩)] at hca
        cases hca
      | epsilon =>
        rw [hleaf a (ht.reachable ha) (.inr hk)] at hca
        cases hca

end

end Pass

/-! ## Forests -/

namespace Forest

/-- A forest is reported to be empty after a pass exactly if its root is a choice that has no alternative
left. -/
theorem transform_eq_emptyForest_iff {f : Forest} {pass : Pass} :
    (f.transform [pass]).2 = .error .emptyForest ↔
      ((f.after pass).node f.root).isChoice = true ∧ childrenOf (f.after pass).nodes f.root = [] := by
  rw [childrenOf, Array.toList_eq_nil_iff, ← Array.isEmpty_iff, ← Bool.and_eq_true]
  change (if _ then _ else _ : Forest × Except ParseError Bool).2 = _ ↔ _
  split
  · exact ⟨fun _ => ‹_›, fun _ => rfl⟩
  · rename_i hleft
    exact ⟨(fun he => by cases he), fun hempty => absurd hempty hleft⟩

/-- Pruning leaves no alternative, the root aside, that holds a choice without alternatives. It leaves every
choice below the root an alternative exactly if every right-nullable part that is left, and the root unless it
is a choice, spells a derivation. Then no trees are left exactly if the forest is reported to be empty, and
that it is exactly if the root is a choice that has lost its alternatives. -/
theorem pruneDead_leaves_stocked {f : Forest} (h : f.nodes.Rooted f.root)
    (hleaf : ∀ id, f.nodes.Reachable f.root id →
      (∃ i, (f.node id).kind = .terminal i) ∨ (f.node id).kind = .epsilon → childrenOf f.nodes id = []) :
    (∀ p, (f.after .pruneDead).nodes.Reachable f.root p → (f.node p).isPacked = true → p ≠ f.root →
      ∀ c ∈ childrenOf (f.after .pruneDead).nodes p, (f.node c).isChoice = true →
        childrenOf (f.after .pruneDead).nodes c ≠ []) ∧
    ((f.after .pruneDead).nodes.StockedBelow f.root ↔
      ∀ id, (f.after .pruneDead).nodes.Reachable f.root id → f.nodes.Unpruned f.root id →
        ∃ d, f.nodes.Derives id d) ∧
    ((f.after .pruneDead).nodes.StockedBelow f.root →
      ((f.after .pruneDead).treeCount = 0 ↔ (f.transform [.pruneDead]).2 = .error .emptyForest)) ∧
    ((f.transform [.pruneDead]).2 = .error .emptyForest ↔
      (f.node f.root).isChoice = true ∧ childrenOf (f.after .pruneDead).nodes f.root = []) := by
  have ht : Trims f.nodes (f.after .pruneDead).nodes := Pass.trims_pruneDead f.grammar f.root f.nodes
  have h' := h.trims ht
  have hchoice : ((f.after .pruneDead).node f.root).isChoice = (f.node f.root).isChoice :=
    ht.toSameHeads.isChoice_eq f.root
  refine ⟨fun p hp hpacked hne c hc => Pass.children_ne_nil_of_held (g := f.grammar) h hp hpacked hne hc,
    Pass.stockedBelow_pruneDead_iff (g := f.grammar) h hleaf, fun hstocked => ?_, ?_⟩
  · rw [transform_eq_emptyForest_iff, ← not_iff_not]
    exact (treeCount_ne_zero_iff (f := f.after .pruneDead) h').trans (hstocked.exists_derives_iff h')
  · rw [transform_eq_emptyForest_iff, hchoice]

/-! ## Examples -/

/-- One token, read by an alternative with a nullable symbol behind it, node 8, and by one, node 9, that leads
over node 4 to node 2, a symbol without alternatives. -/
def withered : Forest where
  nodes := #[
    ⟨.epsilon, none, #[], #[]⟩, ⟨.terminal 0, some ⟨0, 1⟩, #[], #[]⟩, ⟨.symbol 2, some ⟨0, 1⟩, #[], #[]⟩,
    ⟨.packed 1 0, none, #[2], #[]⟩, ⟨.symbol 1, some ⟨0, 1⟩, #[3], #[]⟩,
    ⟨.symbol 3, none, #[6], #[]⟩, ⟨.packed 3 0, none, #[0], #[]⟩, ⟨.nulled 0 0 1, none, #[5], #[]⟩,
    ⟨.packed 0 0, none, #[1, 7], #[]⟩, ⟨.packed 0 1, none, #[4], #[]⟩,
    ⟨.symbol 0, some ⟨0, 1⟩, #[8, 9], #[]⟩]
  root := 10
  tokens := .numbered 1
  grammar := ⟨#[⟨"S", .normal, #[⟨[.terminal 0, .rule 3], 1, none⟩, ⟨[.rule 1], 1, none⟩], false⟩,
    ⟨"A", .normal, #[⟨[.rule 2], 1, none⟩], false⟩, ⟨"B", .normal, #[], false⟩,
    ⟨"C", .normal, #[⟨[], 0, none⟩], true⟩], #[.ofText "a"], 0, 0, 0, 0⟩
  stats := ⟨0, 0, 0, 0, 0⟩

theorem withered_rooted : withered.nodes.Rooted withered.root :=
  .of_ranks ([0, 0, 0, 1, 2, 2, 1, 3, 4, 3, 5].getD · 0) (by decide) (by decide) (by decide) (by decide)

/-- Node 4 can be reached before pruning, and not afterwards; the forest is not empty then. -/
theorem pruneDead_leaves_stocked_withered : withered.nodes.Reachable 10 4 ∧
    ¬ (withered.after .pruneDead).nodes.Reachable 10 4 ∧
    (withered.transform [.pruneDead]).2 ≠ .error .emptyForest := by
  have h := withered_rooted
  have ht : Trims withered.nodes (withered.after .pruneDead).nodes :=
    Pass.trims_pruneDead withered.grammar 10 withered.nodes
  have h7 : ∃ d, withered.nodes.Derives 7 d :=
    ⟨_, .whole (.inr ⟨0, 0, 1, by decide⟩) (.cons (.choice (p := 6) (by decide) (by decide)
      (.whole (.inl (by decide)) (.cons (.leaf (.inr (by decide))) .nil))) .nil)⟩
  have h10 : ∃ d, withered.nodes.Derives 10 d := by
    obtain ⟨d, hd⟩ := h7
    exact ⟨_, .choice (p := 8) (by decide) (by decide) (.whole (.inl (by decide))
      (.cons (.leaf (.inl ⟨0, by decide⟩)) (.cons hd .nil)))⟩
  have hnone : ∀ id, 11 ≤ id → childrenOf withered.nodes id = [] := fun id hge => by
    rw [childrenOf, node_of_size_le hge]
    rfl
  have hkinds : ∀ id < 11, (withered.node id).isChoice = true ∨ (withered.node id).isPacked = true ∨ id = 7 ∨
      childrenOf withered.nodes id = [] := by decide
  have hkind : ∀ id, (withered.node id).isChoice = false → (withered.node id).isPacked = false →
      id = 7 ∨ childrenOf withered.nodes id = [] := fun id hc hp => by
    rcases Nat.lt_or_ge id 11 with hlt | hge
    · simpa [hc, hp] using hkinds id hlt
    · exact .inr (hnone id hge)
  obtain ⟨hheld, hiff, -, hempty⟩ := pruneDead_leaves_stocked h fun id hid hk => by
    have hleaf : (withered.node id).isChoice = false ∧ (withered.node id).isPacked = false := by
      rcases hk with ⟨i, hk⟩ | hk <;> simp [Node.isChoice, Node.isPacked, hk]
    refine (hkind id hleaf.1 hleaf.2).resolve_left ?_
    rintro rfl
    rcases hk with ⟨i, hk⟩ | hk <;> cases hk
  have hstocked := hiff.2 fun id hid hun => by
    rcases hun with ⟨A, alt, dot, hk⟩ | ⟨rfl, hc⟩
    · rcases hkind id (by simp [Forest.node, Node.isChoice, hk]) (by simp [Forest.node, Node.isPacked, hk]) with
        rfl | hnil
      · exact h7
      · exact ⟨.visit id [], .whole (.inr ⟨A, alt, dot, hk⟩) (by rw [hnil]; exact .nil)⟩
    · cases hc
  refine ⟨.tail (b := 9) (.tail .refl (by decide)) (by decide), fun hreach => ?_, fun herror => ?_⟩
  · -- an alternative of node 4 can only be node 3, which holds node 2
    obtain ⟨p, hp⟩ := List.exists_mem_of_ne_nil _
      (hstocked 4 hreach (by rw [ht.toSameHeads.isChoice_eq]; decide) (by decide))
    obtain rfl : p = 3 := List.mem_singleton.1 (ht.mem_children hp)
    have h2 : 2 ∈ childrenOf (withered.after .pruneDead).nodes 3 := by
      rw [ht.children_eq 3 (by decide)]
      decide
    obtain ⟨q, hq⟩ := List.exists_mem_of_ne_nil _
      (hheld 3 (hreach.child hp) (by decide) (by decide) 2 h2 (by decide))
    cases ht.mem_children hq
  · exact Pass.children_ne_nil_of_derives (g := withered.grammar) h .refl (by decide) h10 (hempty.1 herror).2

/-- One token with a nullable symbol behind it, node 1, that has lost its alternative. -/
def stranded : Forest where
  nodes := #[
    ⟨.epsilon, none, #[], #[]⟩, ⟨.symbol 1, none, #[], #[]⟩, ⟨.nulled 0 0 1, none, #[1], #[]⟩,
    ⟨.terminal 0, some ⟨0, 1⟩, #[], #[]⟩, ⟨.packed 0 0, none, #[3, 2], #[]⟩,
    ⟨.symbol 0, some ⟨0, 1⟩, #[4], #[]⟩]
  root := 5
  tokens := .numbered 1
  grammar := ⟨#[⟨"S", .normal, #[⟨[.terminal 0, .rule 1], 1, none⟩], false⟩,
    ⟨"B", .normal, #[⟨[], 0, none⟩], true⟩], #[.ofText "a"], 0, 0, 0, 0⟩
  stats := ⟨0, 0, 0, 0, 0⟩

/-- Pruning takes nothing away, though there is no tree, and the forest is not reported to be empty. -/
example : (stranded.after .pruneDead).treeCount = 0 ∧
    (stranded.transform [.pruneDead]).2.toOption = some false := by cbv

end Forest

end ParseForest
