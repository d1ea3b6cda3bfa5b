import Mathlib.Algebra.BigOperators.Group.List.Lemmas
import Mathlib.Algebra.Order.BigOperators.Group.List
import Mathlib.Algebra.Order.Group.Nat
import ParseForest.Proofs.Parser.Greedy
import ParseForest.Proofs.Parser.Indexing

/-!
# The ambiguity flag tells the truth

A forest is called ambiguous for one of its choices, wherever it is, while its trees are counted over all
of it: the counts of alternatives are added, those of the parts of a right-hand side multiplied. The two
agree where all choices in use have alternatives (`Arena.one_lt_length_allReadings_iff`). Then no count is
zero, so none gets less on the way from a choice up to the root, and without a choice between two
alternatives all counts are one.

In a parse candidates may have been turned down, and the passes take alternatives away. But the normal form
that the passes leave has an alternative for every choice in use, and where no rule derives itself there are
no cycles. So a forest that has been through the passes is called ambiguous exactly if it has two trees or
more (`Parser.isAmbiguous_iff_two_le_treeCount`).
-/

namespace ParseForest

namespace Arena

variable {nodes : Arena} {g : Grammar} {tokens : TokenStream} {rank : NodeId → Nat} {root id : NodeId}

/-- The node stands for all of its children together. -/
def IsWhole (nodes : Arena) (id : NodeId) : Prop :=
  (node nodes id).isPacked = true ∨ ∃ A alt dot, (node nodes id).kind = .nulled A alt dot

/-- Only choices, packed nodes and what derives nothing have children. -/
def LeavesEnd (nodes : Arena) : Prop := ∀ id, ∀ c ∈ childrenOf nodes id,
  (node nodes id).isChoice = true ∨ nodes.IsWhole id

section

variable (hr : nodes.Ranked rank)
include hr

/-- The alternatives of a choice add up. -/
theorem length_allReadings_choice (hl : nodes.Layered) (hc : (node nodes id).isChoice = true) :
    (nodes.allReadings g tokens id).length =
      ((childrenOf nodes id).map fun p => (nodes.allReadings g tokens p).length).sum := by
  rcases Node.isChoice_iff.1 hc with ⟨A, hk⟩ | ⟨A, alt, dot, hk⟩
  · rw [allReadings_symbol hr hk, List.length_flatMap]
    refine congrArg List.sum (List.map_congr_left fun p hp => ?_)
    obtain ⟨B, alt, hpk⟩ := Node.isPacked_iff.1 (hl.isPacked id hc p hp)
    rw [hpk]
    exact List.length_map _
  · rw [allReadings_intermediate hr hk, List.length_flatMap]

/-- Parts multiply. -/
theorem length_allReadings_whole (hw : nodes.IsWhole id) : (nodes.allReadings g tokens id).length =
    ((childrenOf nodes id).map fun c => (nodes.allReadings g tokens c).length).prod := by
  have hcombine : nodes.allReadings g tokens id =
      combine ((childrenOf nodes id).map (nodes.allReadings g tokens)) := by
    rcases hw with hp | ⟨A, alt, dot, hk⟩
    · exact allReadings_packed hr hp
    · exact allReadings_nulled hr hk
  rw [hcombine, length_combine, List.map_map]
  rfl

omit hr in
theorem length_allReadings_leaf (hc : ¬ (node nodes id).isChoice = true) (hw : ¬ nodes.IsWhole id) :
    (nodes.allReadings g tokens id).length ≤ 1 := by
  cases hk : (node nodes id).kind with
  | symbol A => exact absurd (by rw [Node.isChoice, hk]) hc
  | intermediate A alt dot => exact absurd (by rw [Node.isChoice, hk]) hc
  | packed A alt => exact absurd (.inl (by rw [Node.isPacked, hk])) hw
  | nulled A alt dot => exact absurd (.inr ⟨A, alt, dot, hk⟩) hw
  | terminal i =>
    rw [allReadings_terminal hk, List.length_map]
    exact Option.length_toList_le
  | epsilon => rw [allReadings_epsilon hk, List.length_singleton]

/-- Without a choice between two alternatives there are no two trees. -/
theorem length_allReadings_le_one (hl : nodes.Layered)
    (hone : ∀ id, nodes.Reachable root id → (node nodes id).isChoice = true →
      (childrenOf nodes id).length ≤ 1) : (nodes.allReadings g tokens root).length ≤ 1 := by
  induction hn : rank root using Nat.strongRecOn generalizing root with
  | ind n ih =>
    subst hn
    have hchild : ∀ c ∈ childrenOf nodes root, (nodes.allReadings g tokens c).length ≤ 1 := fun c hc =>
      ih _ (hr.lt root c hc) (fun id hid => hone id (.head hc hid)) rfl
    by_cases hc : (node nodes root).isChoice = true
    · have hfew := hone root .refl hc
      rw [length_allReadings_choice hr hl hc]
      match hch : childrenOf nodes root, hfew with
      | [], _ => exact Nat.zero_le 1
      | [p], _ =>
        rw [List.map_singleton, List.sum_singleton]
        exact hchild p (hch ▸ .head _)
    · by_cases hw : nodes.IsWhole root
      · rw [length_allReadings_whole hr hw]
        refine (List.prod_le_pow_card _ 1 fun n hn => ?_).trans (Nat.le_of_eq (Nat.one_pow _))
        obtain ⟨c, hc, rfl⟩ := List.mem_map.1 hn
        exact hchild c hc
      · exact length_allReadings_leaf hc hw

section

variable {S : NodeId → Prop} (hl : nodes.Layered) (hends : nodes.LeavesEnd) (hS : nodes.Stocked S)
  (hleaf : ∀ id i, S id → (node nodes id).kind = .terminal i → (tokens.get? i).isSome)
include hl hS hleaf

theorem length_allReadings_pos (hid : S id) : 0 < (nodes.allReadings g tokens id).length :=
  List.length_pos_iff.2 (hS.readings_ne_nil hl hr hleaf hid (Nat.lt_succ_of_le (hr.le_size id)))

/-- A choice between two alternatives has two trees at least, since each alternative has one. -/
theorem one_lt_length_allReadings_choice (hid : S id) (hc : (node nodes id).isChoice = true)
    (hmany : 1 < (childrenOf nodes id).length) : 1 < (nodes.allReadings g tokens id).length := by
  have hpos : ∀ n ∈ (childrenOf nodes id).map fun p => (nodes.allReadings g tokens p).length, 1 ≤ n := by
    intro n hn
    obtain ⟨p, hp, rfl⟩ := List.mem_map.1 hn
    exact length_allReadings_pos hr hl hS hleaf (hS.closed id hid p hp)
  have hle := List.length_le_sum_of_one_le _ hpos
  rw [List.length_map, ← length_allReadings_choice hr hl hc] at hle
  exact Nat.lt_of_lt_of_le hmany hle

include hends

/-- No node has fewer trees than one of its children. -/
theorem length_allReadings_le {c : NodeId} (hid : S id) (hc : c ∈ childrenOf nodes id) :
    (nodes.allReadings g tokens c).length ≤ (nodes.allReadings g tokens id).length := by
  have hmem : (nodes.allReadings g tokens c).length ∈
      (childrenOf nodes id).map fun c => (nodes.allReadings g tokens c).length :=
    List.mem_map_of_mem hc
  rcases hends id c hc with hchoice | hw
  · rw [length_allReadings_choice hr hl hchoice]
    exact List.le_sum_of_mem hmem
  · have hpos := length_allReadings_pos (g := g) hr hl hS hleaf hid
    rw [length_allReadings_whole hr hw] at hpos ⊢
    exact Nat.le_of_dvd hpos (List.dvd_prod hmem)

theorem length_allReadings_le_of_reachable (hroot : S root) (hid : nodes.Reachable root id) :
    S id ∧ (nodes.allReadings g tokens id).length ≤ (nodes.allReadings g tokens root).length := by
  induction hid with
  | refl => exact ⟨hroot, Nat.le_refl _⟩
  | tail _ hc ih =>
    exact ⟨hS.closed _ ih.1 _ hc, (length_allReadings_le hr hl hends hS hleaf ih.1 hc).trans ih.2⟩

/-- The root stands for two trees if some choice in use is between two alternatives. -/
theorem one_lt_length_allReadings_iff (hroot : S root) : 1 < (nodes.allReadings g tokens root).length ↔
    ∃ id, nodes.Reachable root id ∧ (node nodes id).isChoice = true ∧ 1 < (childrenOf nodes id).length := by
  constructor
  · intro hmany
    by_contra hnone
    simp only [not_exists, not_and, Nat.not_lt] at hnone
    exact Nat.not_lt.2 (length_allReadings_le_one hr hl hnone) hmany
  · rintro ⟨id, hid, hc, hmany⟩
    obtain ⟨hin, hle⟩ := length_allReadings_le_of_reachable (g := g) hr hl hends hS hleaf hroot hid
    exact Nat.lt_of_lt_of_le (one_lt_length_allReadings_choice hr hl hS hleaf hin hc hmany) hle

end

end

end Arena

namespace Forest

open Arena

variable {f : Forest}

/-- Where all choices in use have alternatives and there are no cycles, the flag says that there are two
trees. -/
theorem isAmbiguous_iff_of_stocked {rank : NodeId → Nat} (hr : f.nodes.Ranked rank)
    (hl : f.nodes.Layered) (hends : f.nodes.LeavesEnd)
    (hS : f.nodes.Stocked fun id => f.nodes.Reachable f.root id)
    (hleaf : ∀ id i, (Arena.node f.nodes id).kind = .terminal i → i < f.tokens.length) {A : RuleId}
    (hroot : (Arena.node f.nodes f.root).kind = .symbol A) :
    f.isAmbiguous = true ↔ 2 ≤ f.treeCount := by
  have hlt : f.root < f.nodes.size := lt_size_of_isChoice (by rw [Node.isChoice, hroot])
  have hsome : ∀ id i, f.nodes.Reachable f.root id → (Arena.node f.nodes id).kind = .terminal i →
      (f.tokens.get? i).isSome := fun id i _ hk => by
    rw [TokenStream.get?, Array.getElem?_eq_getElem (hleaf id i hk)]
    rfl
  have hlimit : 2 ≤ countLimit := by decide
  rw [isAmbiguous_iff hlt hl.closed, treeCount_eq hr hl hleaf hroot, capped, Nat.le_min,
    ← one_lt_length_allReadings_iff (g := f.grammar) hr hl hends hS hsome .refl]
  exact ⟨fun h => ⟨h, hlimit⟩, fun h => h.1⟩

end Forest

/-! ## Forests of parses -/

variable {σ : Type}

namespace Engine

variable {input : ParseInput σ} {e : Engine σ} {root : NodeId} {user : σ} (hr : input.Ready)
  (h : Arrives input user e root)
include hr h

/-- The passes leave children to choices, packed nodes and what derives nothing only. -/
theorem Arrives.leavesEnd_passed : (passed input e root).LeavesEnd := by
  obtain ⟨nodes, htrims, hpassed⟩ := exists_trimmedTo input e root
  have hheads := (h.narrows_passed hr).toSameHeads
  intro id c hc
  rw [hheads.isChoice_eq, Arena.IsWhole, hheads.isPacked_eq, hheads.kind_eq]
  by_cases hp : (Arena.node e.nodes id).isPacked = true
  · exact .inr (.inl hp)
  · -- other nodes hold nothing that they did not hold before
    have hsame : Arena.childrenOf (passed input e root) id = Arena.childrenOf nodes id := by
      rcases hpassed with he | he <;> rw [he]
      rw [(Pass.relinks_linkParents _ _ _).childrenOf_eq]
      refine Pass.childrenOf_collapseAll _ ?_
      rw [htrims.toSameHeads.isPacked_eq]
      simpa using hp
    rw [hsame] at hc
    exact ((h.formed hr).arranged hr.epsilon).inner_cases id c (htrims.mem_children hc)

/-- Where no rule derives itself, a forest in normal form is ambiguous if it has two trees. -/
theorem Arrives.isAmbiguous_iff (hcyclic : ¬ input.grammar.Cyclic)
    (hnormal : (passed input e root).IsNormal root) {f : Forest}
    (hf : f = ⟨passed input e root, root, input.tokens, input.grammar, e.stats⟩) :
    f.isAmbiguous = true ↔ 2 ≤ f.treeCount := by
  subst hf
  have hnarrows := h.narrows_passed hr
  obtain ⟨nodes, htrimmed⟩ := exists_trimmedTo input e root
  obtain ⟨rank, hrank⟩ := (h.formed hr).exists_ranked hr.epsilon hr.wellFormed hcyclic
  have hrestacks := h.restacks hr htrimmed hrank
  refine Forest.isAmbiguous_iff_of_stocked hrestacks.ranked hrestacks.layered (h.leavesEnd_passed hr)
    ⟨fun id hid c hc => hid.child hc, fun id hid hc => ?_⟩ (fun id i hk => ?_)
    ((hnarrows.kind_eq root).trans (h.kind_root hr))
  · obtain ⟨p, hp, -⟩ := hnormal.choice id hid hc
    exact List.ne_nil_of_mem hp
  · exact (h.formed hr).lt_length_of_terminal ((hnarrows.kind_eq id).symm.trans hk)

end Engine

namespace Parser

variable {g : Grammar} {lexer : LexerDescription} {c : CompiledGrammar} {config : ParserConfig}
  {user : List (Disambiguator σ)} {tokens : TokenStream} {s : σ} {f : Forest}

/-- If no rule of the grammar derives itself, a forest that has been through the passes is called ambiguous
exactly if it has two trees or more, whatever the tokens and the disambiguators are. -/
theorem isAmbiguous_iff_two_le_treeCount (hg : g.Built) (hcyclic : ¬ g.Cyclic)
    (hc : CompiledGrammar.ofGrammar g lexer = .ok c) (hon : config.transforms = true)
    (hf : (parseTokens ⟨c, config, user⟩ tokens s).1 = .ok f) :
    f.isAmbiguous = true ↔ 2 ≤ f.treeCount := by
  have hr := CompiledGrammar.ready hg hc config user tokens.ensureEof
  obtain ⟨e, root, harr, he, hnormal⟩ := Engine.exists_arrives_isNormal hr hon hf
  obtain ⟨rfl, -⟩ := CompiledGrammar.parts_of_ofGrammar hc
  exact harr.isAmbiguous_iff hr hcyclic hnormal he

/-- Three items make an ambiguous forest. -/
theorem isAmbiguous_iff_two_le_treeCount_items : ∃ c f, CompiledGrammar.ofGrammar .list .empty = .ok c ∧
    (parseTokens ⟨c, plainConfig, ([] : List (Disambiguator Unit))⟩ (.items 3) ()).1 = .ok f ∧
    (f.isAmbiguous = true ↔ 2 ≤ f.treeCount) ∧ 2 ≤ f.treeCount := by
  obtain ⟨c, f, hc, hf, -, hmem⟩ := exists_trees_threeItems
  refine ⟨c, f, hc, hf,
    isAmbiguous_iff_two_le_treeCount Grammar.list_built Grammar.list_not_cyclic hc rfl hf, ?_⟩
  have hboth : [Tree.threeItems true, Tree.threeItems false] ⊆ f.trees := fun t ht =>
    (hmem t).2 (by simpa using ht)
  have hnodup : [Tree.threeItems true, Tree.threeItems false].Nodup := by simp [Tree.threeItems]
  exact (List.subperm_of_subset hnodup hboth).length_le.trans f.length_trees_le

end Parser

end ParseForest
