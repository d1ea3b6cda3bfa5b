import ParseForest.Proofs.Forest.Comparing
import ParseForest.Proofs.Forest.Outlines
import Mathlib.Data.List.Pairwise

/-!
# What the cleanup passes preserve

In a rooted forest pruning and collapsing change neither the number of trees nor the tree at any number;
deduplication changes no outline of a derivation, takes only alternatives away that come after one of their
shape, and finds nothing more in a second run; and linking fills in parents (`Forest.cleanup_preserves`).
-/

namespace ParseForest

open Arena

/-- The ranks below the root serve for shapes. -/
theorem Arena.Rooted.exists_shapesRanked {nodes : Arena} {root : NodeId} (h : nodes.Rooted root) :
    ∃ rank, ShapeTable.ShapesRanked nodes (nodes.Reachable root) rank ∧
      ∀ id, nodes.Reachable root id → ∀ c ∈ childrenOf nodes id, rank c < rank id := by
  obtain ⟨rank, hle, hlt, -⟩ := h.exists_rank
  refine ⟨rank, ⟨fun id hid c hc => hid.child hc, fun id hid => ?_, fun id hid c hc => hlt id (.inl hid) c hc.1,
    hle⟩, fun id hid => hlt id (.inl hid)⟩
  exact hid.of_closed (P := (· < nodes.size)) (fun id _ c hc => h.closed id c hc) h.root_lt

namespace Pass

variable {nodes : Arena} {g : Grammar} {root : NodeId}

/-- Pruning changes nothing that the root stands for. -/
theorem rooted_pruneDead (h : nodes.Rooted root) : (pruneDead.run g root nodes).1.Rooted root ∧
    SameHeads nodes (pruneDead.run g root nodes).1 ∧ ∀ g' tokens,
      (pruneDead.run g root nodes).1.allReadings g' tokens root = nodes.allReadings g' tokens root := by
  have htrims := trims_pruneDead g root nodes
  refine ⟨h.trims htrims, htrims.toSameHeads, fun g' tokens => ?_⟩
  rw [allReadings, htrims.size_eq]
  exact @pruneDead_readings nodes g' tokens root _ _

/-- Collapsing changes nothing that the root stands for. -/
theorem rooted_collapse (h : nodes.Rooted root) : (collapse.run g root nodes).1.Rooted root ∧
    SameHeads nodes (collapse.run g root nodes).1 ∧ ∀ g' tokens,
      (collapse.run g root nodes).1.allReadings g' tokens root = nodes.allReadings g' tokens root := by
  change (collapseAll ((liveNodes nodes root).map Prod.snd) nodes false).1.Rooted root ∧
    SameHeads nodes (collapseAll ((liveNodes nodes root).map Prod.snd) nodes false).1 ∧ ∀ g' tokens,
      (collapseAll ((liveNodes nodes root).map Prod.snd) nodes false).1.allReadings g' tokens root =
        nodes.allReadings g' tokens root
  have hids : ∀ id ∈ (liveNodes nodes root).map Prod.snd, nodes.InUse root id := by
    intro id hid
    obtain ⟨⟨n, id⟩, hlive, rfl⟩ := List.mem_map.1 hid
    exact .inl ((live_iff_reachable h.root_lt h.closed).1 (mem_liveNodes_iff.1 hlive).2.2)
  generalize (liveNodes nodes root).map Prod.snd = ids at hids
  obtain ⟨kept, rank, ha, hl, hr⟩ := h.exists_ranked
  have hroot : nodes.InUse root root := .inl .refl
  -- the arena with ranks is collapsed along with the other one
  have ha' := ha.collapseAll (.inr rfl) hids false
  have hrestacks := fun g' tokens => @restacks_collapseAll kept g' tokens rank hr hl
    ((ha.kind_eq _).trans h.epsilon) ids false
  obtain ⟨hheads, hlayered⟩ := @collapseAll_induction (fun current => SameHeads nodes current ∧ current.Layered)
    (fun current id hneeds hc => ⟨hc.1.trans (sameHeads_setChildren _ _),
      layered_flatChildren hc.2 ((hc.1.kind_eq _).trans h.epsilon) (Bool.and_eq_true_iff.1 hneeds).1⟩)
    ids nodes false ⟨.refl nodes, h.toLayered⟩
  refine ⟨⟨hlayered, hheads.size_eq ▸ h.root_lt, (hheads.kind_eq _).trans h.epsilon, ?_,
    ha'.acyclic (hrestacks g (.numbered 0)).ranked hroot⟩, hheads, fun g' tokens => ?_⟩
  · rw [childrenOf_collapseAll _ (by rw [Node.isPacked, h.epsilon])]
    exact h.leaf
  · rw [allReadings, ← ha'.readings _ hroot, ← ha'.size_eq, ← allReadings, (hrestacks g' tokens).readings,
      allReadings, ha.size_eq, ha.readings _ hroot, ← allReadings]

section

variable (h : nodes.Rooted root)
include h

/-- Deduplication leaves the first alternative of each shape to what can be reached. -/
theorem deduplicates_of_rooted :
    Deduplicates (nodes.Reachable root) nodes (dedupeEquivalent.run g root nodes).1 := by
  obtain ⟨rank, hr, -⟩ := h.exists_shapesRanked
  refine deduplicates_dedupeEquivalent hr fun id => ?_
  rw [live_iff_reachable h.root_lt h.closed]
  exact ⟨fun hid => ⟨hr.lt_size id hid, hid⟩, And.right⟩

/-- Deduplication changes no outline of a derivation of the root. -/
theorem exists_outline_dedupeEquivalent_iff (o : Outline) :
    (∃ d, (dedupeEquivalent.run g root nodes).1.Derives root d ∧ d.outline nodes = o) ↔
      ∃ d, nodes.Derives root d ∧ d.outline nodes = o := by
  obtain ⟨rank, hr, hrank⟩ := h.exists_shapesRanked
  have hdedupe := @deduplicates_of_rooted nodes g root h
  constructor
  · rintro ⟨d, hd, rfl⟩
    exact ⟨d, hdedupe.toTrims.derives hd, rfl⟩
  · rintro ⟨d, hd, rfl⟩
    exact hdedupe.exists_outline_eq h.toLayered hr.closed hrank .refl hd

/-- A second run of deduplication changes nothing. -/
theorem dedupeEquivalent_idempotent :
    dedupeEquivalent.run g root (dedupeEquivalent.run g root nodes).1 =
      ((dedupeEquivalent.run g root nodes).1, false) := by
  obtain ⟨rank, hr, hrank⟩ := h.exists_shapesRanked
  have hdedupe := @deduplicates_of_rooted nodes g root h
  generalize (dedupeEquivalent.run g root nodes).1 = nodes' at hdedupe
  have h' := h.trims hdedupe.toTrims
  obtain ⟨rank', hr', -⟩ := h'.exists_shapesRanked
  refine dedupeEquivalent_eq_self hr' (fun id => ?_) fun id hid hc => ?_
  · rw [live_iff_reachable h'.root_lt h'.closed]
    exact ⟨fun hid => ⟨hr'.lt_size id hid, hid⟩, And.right⟩
  · have hid := hdedupe.toTrims.reachable hid
    rw [hdedupe.toSameHeads.isChoice_eq] at hc
    refine (hdedupe.pairwise id hid hc).imp_of_mem fun {p q} hp hq hne hsame => hne ?_
    have hp := hdedupe.mem_children hp
    exact hdedupe.sameShape h.toLayered hr.closed hrank (.inl (h.isPacked id hc p hp)) (hid.child hp)
      (hid.child (hdedupe.mem_children hq)) hsame

end

end Pass

/-! ## Forests -/

namespace Forest

/-- The cleanup passes preserve trees. Pruning and collapsing leave their number and the tree at every number
as they are. Deduplication leaves the outlines of derivations, and so the trees, as they are; it takes away
only alternatives that come after one of their shape, and nothing when it is run again. And linking changes
nothing but parents. -/
theorem cleanup_preserves {f : Forest} (h : f.nodes.Rooted f.root) :
    (∀ pass ∈ [Pass.pruneDead, Pass.collapse], (f.after pass).treeCount = f.treeCount ∧
      ∀ i, (f.after pass).treeAt? i = f.treeAt? i) ∧
    ((∀ o, (∃ d, (f.after .dedupeEquivalent).nodes.Derives f.root d ∧ d.outline f.nodes = o) ↔
        ∃ d, f.nodes.Derives f.root d ∧ d.outline f.nodes = o) ∧
      (∀ ts, (∃ d, (f.after .dedupeEquivalent).nodes.Derives f.root d ∧
          d.trees f.nodes f.grammar f.tokens = ts) ↔
        ∃ d, f.nodes.Derives f.root d ∧ d.trees f.nodes f.grammar f.tokens = ts) ∧
      Pass.Deduplicates (f.nodes.Reachable f.root) f.nodes (f.after .dedupeEquivalent).nodes ∧
      Pass.dedupeEquivalent.run f.grammar f.root (f.after .dedupeEquivalent).nodes =
        ((f.after .dedupeEquivalent).nodes, false)) ∧
    (Pass.Relinks f.nodes (f.after .linkParents).nodes ∧
      (Pass.linkParents.run f.grammar f.root f.nodes).2 = false) := by
  have houtlines := Pass.exists_outline_dedupeEquivalent_iff (g := f.grammar) h
  refine ⟨fun pass hpass => ?_, ⟨houtlines, fun ts => ?_, Pass.deduplicates_of_rooted (g := f.grammar) h,
    Pass.dedupeEquivalent_idempotent (g := f.grammar) h⟩,
    Pass.relinks_linkParents f.grammar f.root f.nodes, rfl⟩
  · simp only [List.mem_cons, List.not_mem_nil, or_false] at hpass
    rcases hpass with rfl | rfl
    · obtain ⟨h', hheads, hread⟩ := Pass.rooted_pruneDead (g := f.grammar) h
      exact trees_congr h h' hheads (hread f.grammar)
    · obtain ⟨h', hheads, hread⟩ := Pass.rooted_collapse (g := f.grammar) h
      exact trees_congr h h' hheads (hread f.grammar)
  · constructor
    · rintro ⟨d, hd, rfl⟩
      obtain ⟨d', hd', houtline⟩ := (houtlines (d.outline f.nodes)).1 ⟨d, hd, rfl⟩
      exact ⟨d', hd', Derivation.trees_eq_of_outline_eq d' d houtline⟩
    · rintro ⟨d, hd, rfl⟩
      obtain ⟨d', hd', houtline⟩ := (houtlines (d.outline f.nodes)).2 ⟨d, hd, rfl⟩
      exact ⟨d', hd', Derivation.trees_eq_of_outline_eq d' d houtline⟩

/-! ## An example -/

/-- Two tokens that are read in one way by two alternatives, nodes 4 and 5, which have intermediate nodes of
their own; a third one, node 6, is dead. -/
def twofold : Forest where
  nodes := #[
    ⟨.epsilon, none, #[], #[]⟩, ⟨.terminal 0, some ⟨0, 1⟩, #[], #[]⟩, ⟨.terminal 1, some ⟨1, 2⟩, #[], #[]⟩,
    ⟨.symbol 0, some ⟨0, 2⟩, #[4, 5, 6], #[]⟩,
    ⟨.packed 0 0, none, #[1, 7], #[]⟩, ⟨.packed 0 0, none, #[1, 8], #[]⟩, ⟨.packed 0 1, none, #[9], #[]⟩,
    ⟨.intermediate 0 0 1, some ⟨1, 2⟩, #[10], #[]⟩, ⟨.intermediate 0 0 1, some ⟨1, 2⟩, #[11], #[]⟩,
    ⟨.symbol 1, some ⟨0, 2⟩, #[], #[]⟩,
    ⟨.packed 0 0, none, #[2], #[]⟩, ⟨.packed 0 0, none, #[2], #[]⟩]
  root := 3
  tokens := .numbered 2
  grammar := ⟨#[⟨"pair", .normal, #[⟨[.terminal 0, .terminal 1], 1, none⟩, ⟨[.rule 1], 1, none⟩], false⟩,
    ⟨"none", .normal, #[], false⟩], #[.ofText "a", .ofText "b"], 0, 0, 0, 0⟩
  stats := ⟨0, 0, 0, 0, 0⟩

theorem twofold_rooted : twofold.nodes.Rooted twofold.root :=
  .of_ranks ([0, 0, 0, 5, 4, 4, 4, 3, 3, 1, 2, 2].getD · 0) (by decide) (by decide) (by decide) (by decide)

/-- The first two alternatives are of one shape. -/
theorem twofold_sameShape : twofold.nodes.SameShape 4 5 := by
  refine ⟨fun a b => (a, b) ∈ [(4, 5), (7, 8), (10, 11)], fun a b hab => ?_, .head _⟩
  simp only [List.mem_cons, List.not_mem_nil, or_false, Prod.mk.injEq] at hab
  have hleaf : ∀ c ∈ [1, 2], ¬ twofold.nodes.IsPart c := by
    intro c hc hpart
    simp only [List.mem_cons, List.not_mem_nil, or_false] at hc
    rcases hc with rfl | rfl <;> rcases hpart with ⟨A, alt, dot, hk⟩ | ⟨A, alt, dot, hk⟩ <;> cases hk
  rcases hab with ⟨rfl, rfl⟩ | ⟨rfl, rfl⟩ | ⟨rfl, rfl⟩
  · refine ⟨by decide, by decide, fun ⟨A, alt, dot, hk⟩ => (by cases hk), fun _ => ?_⟩
    exact .cons (.inr ⟨hleaf 1 (by decide), rfl⟩) (.cons (.inl ⟨.inl ⟨0, 0, 1, by decide⟩, by decide⟩) .nil)
  · exact ⟨by decide, by decide, fun _ => by decide, fun h => absurd ⟨0, 0, 1, by decide⟩ h⟩
  · refine ⟨by decide, by decide, fun ⟨A, alt, dot, hk⟩ => (by cases hk), fun _ => ?_⟩
    exact .cons (.inr ⟨hleaf 2 (by decide), rfl⟩) .nil

/-- Pruning and collapsing go on counting the two trees, and deduplication takes the second alternative
away. -/
theorem cleanup_preserves_twofold :
    (twofold.after .pruneDead).treeCount = twofold.treeCount ∧
    (twofold.after .collapse).treeAt? 1 = twofold.treeAt? 1 ∧
    5 ∉ childrenOf (twofold.after .dedupeEquivalent).nodes 3 ∧
    (Pass.dedupeEquivalent.run twofold.grammar 3 (twofold.after .dedupeEquivalent).nodes).2 = false := by
  obtain ⟨hsame, ⟨-, -, hdedupe, htwice⟩, -⟩ := cleanup_preserves twofold_rooted
  refine ⟨(hsame _ (.head _)).1, (hsame _ (.tail _ (.head _))).2 1, fun hmem => ?_, congrArg Prod.snd htwice⟩
  rcases hdedupe.earlier 3 .refl (by decide) [] 4 [5, 6] (by decide) with hfirst | ⟨q, hq, -⟩
  · have hsymm : Std.Symm fun p q => ¬ twofold.nodes.SameShape p q := ⟨fun _ _ h hs => h hs.symm⟩
    exact (hdedupe.pairwise 3 .refl (by decide)).forall hfirst hmem (by decide) twofold_sameShape
  · cases hq

end Forest

end ParseForest
