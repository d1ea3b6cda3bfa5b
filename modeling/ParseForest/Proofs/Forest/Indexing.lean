import ParseForest.Proofs.Forest.Derivations
import ParseForest.Proofs.Forest.Enumerating

/-!
# Numbering is a bijection

Whatever cycles a forest has, its numbers go up through the list of the trees that are counted, which has
no repetitions: so every number below the count is that of a tree, and different numbers are those of
different trees (`Forest.treeAt?_isSome_iff`, `Forest.treeAt?_injective`). If no cycle can be reached from
the root, the list is that of all derivations that the forest spells (`Forest.exists_derivations`).
-/

namespace ParseForest

open Arena

namespace TreeIndex

theorem cappedSum_pos {ns : List Nat} {n : Nat} (hn : n ∈ ns) (hpos : 0 < n) : 0 < cappedSum ns := by
  have hlimit : 0 < countLimit := by decide
  induction ns with
  | nil => cases hn
  | cons m ns ih =>
    rw [cappedSum_cons, capped]
    rcases List.mem_cons.1 hn with rfl | hn
    · omega
    · have := ih hn
      omega

theorem cappedProduct_pos {ns : List Nat} (h : ∀ n ∈ ns, 0 < n) : 0 < cappedProduct ns := by
  induction ns with
  | nil => exact Nat.zero_lt_one
  | cons n ns ih =>
    rw [cappedProduct_cons, capped]
    exact Nat.lt_min.2 ⟨Nat.mul_pos (h n (.head _)) (ih fun m hm => h m (.tail _ hm)), by decide⟩

namespace Surveyed

variable {nodes : Arena} {g : Grammar} {tokens : TokenStream} {index : TreeIndex} {root id : NodeId}
  (h : index.Surveyed nodes root [])
include h

/-- Taking away what is counted as nothing narrows an arena to what is counted. -/
theorem narrows_kept (hl : nodes.Layered) :
    Narrows g tokens (fun id => 0 < index.count id) nodes (index.kept nodes) := by
  refine narrows_of_parts (sameHeads_kept index nodes) (layered_kept hl)
    (fun id _ c hc => h.pos_of_mem_kept hc) (fun id hc => ?_) fun p hp hk ts hts => ?_
  · rw [childrenOf_kept_choice hc]
    exact List.filter_sublist
  · rwa [childrenOf_kept_whole hk, if_pos hp] at hts

section

variable (hl : nodes.Layered) (hacyclic : ¬ nodes.Cyclic root)
include hl hacyclic

/-- Without cycles what has been surveyed and spells a derivation is counted, and the derivation is
kept. -/
theorem derives_kept {d : Derivation} (hd : nodes.Derives id d) :
    id < nodes.size ∧ index.mark id = .finished →
      0 < index.count id ∧ (index.kept nodes).Derives id d := by
  have hheads := sameHeads_kept index nodes
  have htallies := h.tallies hl hacyclic
  refine derives_induction (P := fun id d => id < nodes.size ∧ index.mark id = .finished →
      0 < index.count id ∧ (index.kept nodes).Derives id d)
    (Q := fun cs ds => (∀ c ∈ cs, c < nodes.size ∧ index.mark c = .finished) →
      (∀ c ∈ cs, 0 < index.count c) ∧ (index.kept nodes).DerivesAll cs ds)
    ?leaf ?choice ?whole ?nil ?cons hd
  case leaf =>
    intro id hk hid
    rw [htallies.count id hid]
    refine ⟨?_, .leaf (by rwa [hheads.kind_eq])⟩
    rcases hk with ⟨i, hk⟩ | hk <;> rw [countOf, hk] <;> exact Nat.zero_lt_one
  case choice =>
    intro id p d hc hp ih hid
    obtain ⟨hpos, hkept⟩ := ih (htallies.closed id hid p hp)
    rw [htallies.count id hid, h.countOf_choice hc]
    refine ⟨cappedSum_pos (List.mem_map_of_mem hp) hpos, .choice (by rwa [hheads.isChoice_eq]) ?_ hkept⟩
    rw [childrenOf_kept_choice hc]
    exact List.mem_filter.2 ⟨hp, by simpa using hpos⟩
  case whole =>
    intro id ds hk ih hid
    obtain ⟨hpos, hkept⟩ := ih (htallies.closed id hid)
    have hcount : 0 < index.count id := by
      rw [htallies.count id hid, countOf_whole (htallies.isCyclic id hid) hk]
      refine cappedProduct_pos fun n hn => ?_
      obtain ⟨c, hc, rfl⟩ := List.mem_map.1 hn
      exact hpos c hc
    refine ⟨hcount, .whole (by rwa [hheads.isPacked_eq, hheads.kind_eq]) ?_⟩
    rwa [childrenOf_kept_whole hk, if_pos hcount]
  case nil => exact fun _ => ⟨fun c hc => absurd hc List.not_mem_nil, .nil⟩
  case cons =>
    intro c cs d ds ih ih' hcs
    obtain ⟨hpos, hkept⟩ := ih (hcs c (.head _))
    obtain ⟨hpos', hkept'⟩ := ih' fun b hb => hcs b (.tail _ hb)
    refine ⟨fun b hb => ?_, .cons hkept hkept'⟩
    rcases List.mem_cons.1 hb with rfl | hb
    · exact hpos
    · exact hpos' b hb

end

/-- A derivation of what is kept is one of the arena. -/
theorem derives_of_kept {d : Derivation} (hd : (index.kept nodes).Derives id d) :
    (node nodes id).isChoice = true ∨ 0 < index.count id → nodes.Derives id d := by
  have hheads := sameHeads_kept index nodes
  refine derives_induction
    (P := fun id d => (node nodes id).isChoice = true ∨ 0 < index.count id → nodes.Derives id d)
    (Q := fun cs ds => (∀ c ∈ cs, 0 < index.count c) → nodes.DerivesAll cs ds)
    ?leaf ?choice ?whole ?nil ?cons hd
  case leaf =>
    intro id hk _
    rw [hheads.kind_eq] at hk
    exact .leaf hk
  case choice =>
    intro id p d hc hp ih _
    rw [hheads.isChoice_eq] at hc
    exact .choice hc (mem_children_of_kept hp) (ih (.inr (h.pos_of_mem_kept hp)))
  case whole =>
    intro id ds hk ih hid
    rw [hheads.isPacked_eq, hheads.kind_eq] at hk
    have hcount : 0 < index.count id := by
      refine hid.resolve_left fun hc => ?_
      rw [Node.isPacked_iff] at hk
      rcases hk with ⟨A, alt, hk⟩ | ⟨A, alt, dot, hk⟩ <;> rw [Node.isChoice, hk] at hc <;> cases hc
    have hds := ih fun c hc => h.pos_of_mem_kept hc
    rw [childrenOf_kept_whole hk, if_pos hcount] at hds
    exact .whole hk hds
  case nil => exact fun _ => .nil
  case cons =>
    intro c cs d ds ih ih' hcs
    exact .cons (ih (.inr (hcs c (.head _)))) (ih' fun b hb => hcs b (.tail _ hb))

end Surveyed

end TreeIndex

/-! ## Forests -/

namespace Forest

variable {f : Forest}

variable (howned : f.nodes.Owned) (hε : (Arena.node f.nodes epsilonId).kind = .epsilon)
  (hsep : f.nodes.Separates f.grammar f.tokens fun _ => True)
  (hleaf : ∀ id i, (Arena.node f.nodes id).kind = .terminal i → i < f.tokens.length)
  {A : RuleId} (hroot : (Arena.node f.nodes f.root).kind = .symbol A)
include howned hsep hroot

omit hε hleaf in
/-- The survey of the forest. -/
theorem surveyed : f.treeIndex.Surveyed f.nodes f.root [] ∧ f.root < f.nodes.size ∧
    f.treeIndex.mark f.root = .finished := by
  have hlt : f.root < f.nodes.size := lt_size_of_kind (by rw [hroot]; simp)
  obtain ⟨hs, hm⟩ := TreeIndex.surveyed_ofArena hsep.toLayered howned (by rw [Node.isPacked, hroot]) hlt
  exact ⟨hs, hlt, hm⟩

include hε hleaf

/-- The numbers of a forest with trees go through the list of the trees that are counted. -/
theorem enumerates (hpos : 0 < f.treeCount) : ∃ rank, (f.treeIndex.kept f.nodes).Ranked rank ∧
    Enumerates f.treeCount ((f.treeIndex.kept f.nodes).allReadings f.grammar f.tokens f.root)
      (fun i => (f.treeAt? i).map fun t => [t]) ∧
    ((f.treeIndex.kept f.nodes).allReadings f.grammar f.tokens f.root).Nodup := by
  obtain ⟨hs, -, -⟩ := surveyed howned hsep hroot
  have hl := hsep.toLayered
  obtain ⟨rank, hrank⟩ := hs.exists_ranked hl hε
  have htallies := hs.tallies_kept hl
  have hleaf' : ∀ id i, (Arena.node (f.treeIndex.kept f.nodes) id).kind = .terminal i →
      i < f.tokens.length := fun id i hk => hleaf id i ((htallies.kind_eq id).symm.trans hk)
  refine ⟨rank, hrank, ?_,
    (hsep.narrows (fun _ _ => trivial) (hs.narrows_kept hl)).nodup_readings _ hpos⟩
  have hfuel : rank f.root < f.nodes.size + 1 := by
    have hle := hrank.le_size f.root
    rw [htallies.size_eq] at hle
    exact Nat.lt_succ_of_le hle
  refine (htallies.treeFrom_spec hrank hleaf' hfuel hpos (.inr ⟨A, hroot⟩)).congr fun i hi => ?_
  rw [treeAt?_of_lt hi]
  rfl

/-- The numbers below the count are those of trees. -/
theorem treeAt?_isSome_iff (i : Nat) : (f.treeAt? i).isSome ↔ i < f.treeCount := by
  constructor
  · intro hsome
    by_contra hge
    rw [treeAt?_of_le (Nat.not_lt.1 hge)] at hsome
    cases hsome
  · intro hi
    obtain ⟨-, -, henum, -⟩ := enumerates howned hε hsep hleaf hroot (Nat.zero_lt_of_lt hi)
    obtain ⟨_, -, hsome⟩ := henum.exists_mem hi
    obtain ⟨t, ht, -⟩ := Option.map_eq_some_iff.1 hsome
    rw [ht]
    rfl

/-- Different numbers below the count are those of different trees. -/
theorem treeAt?_injective {i j : Nat} (hi : i < f.treeCount) (hj : j < f.treeCount)
    (heq : f.treeAt? i = f.treeAt? j) : i = j := by
  obtain ⟨-, -, henum, hnodup⟩ := enumerates howned hε hsep hleaf hroot (Nat.zero_lt_of_lt hi)
  exact henum.injective hnodup hi hj (by rw [heq])

/-- Without cycles below the root the count is the number of derivations that the forest spells, up to the
limit; and up to there every derivation has one number. -/
theorem exists_derivations (hacyclic : ¬ f.nodes.Cyclic f.root) :
    ∃ ds : List Derivation, ds.Nodup ∧ (∀ d, d ∈ ds ↔ f.nodes.Derives f.root d) ∧
      f.treeCount = min countLimit ds.length ∧ (ds.length ≤ countLimit → ∀ d ∈ ds,
        ∃! i, ∃ t, f.treeAt? i = some t ∧ [t] = d.trees f.nodes f.grammar f.tokens) := by
  obtain ⟨hs, hlt, hm⟩ := surveyed howned hsep hroot
  have hl := hsep.toLayered
  have hchoice : (Arena.node f.nodes f.root).isChoice = true := by rw [Node.isChoice, hroot]
  rcases Nat.eq_zero_or_pos f.treeCount with hzero | hpos
  · -- nothing is spelled
    refine ⟨[], .nil, fun d => ⟨fun hd => absurd hd List.not_mem_nil, fun hd => ?_⟩,
      hzero.trans (Nat.min_zero _).symm, fun _ d hd => absurd hd List.not_mem_nil⟩
    have hcount := (hs.derives_kept hl hacyclic hd ⟨hlt, hm⟩).1
    exact absurd hzero (Nat.ne_of_gt hcount)
  obtain ⟨rank, hrank, henum, hnodup⟩ := enumerates howned hε hsep hleaf hroot hpos
  have hheads := TreeIndex.sameHeads_kept f.treeIndex f.nodes
  have hmap := @Derivation.map_trees_derivations (f.treeIndex.kept f.nodes) f.grammar f.tokens
    (TreeIndex.layered_kept hl) (fun id i hk => hleaf id i ((hheads.kind_eq id).symm.trans hk))
    ((f.treeIndex.kept f.nodes).size + 1) f.root
  rw [List.map_congr_left fun d _ => Derivation.trees_congr hheads d] at hmap
  generalize hds : Derivation.derivations (f.treeIndex.kept f.nodes)
    ((f.treeIndex.kept f.nodes).size + 1) f.root = ds at hmap
  rw [allReadings, ← hmap] at henum hnodup
  have hcount : f.treeCount = capped ds.length := by rw [henum.1, List.length_map]
  refine ⟨ds, hnodup.of_map _, fun d => ?_, hcount.trans (Nat.min_comm _ _), fun hlimit d hd => ?_⟩
  · rw [← hds, Derivation.mem_derivations_iff hrank (Nat.lt_succ_of_le (hrank.le_size f.root))]
    exact ⟨fun h => hs.derives_of_kept h (.inl hchoice), fun h =>
      (hs.derives_kept hl hacyclic h ⟨hlt, hm⟩).2⟩
  · obtain ⟨k, hk, rfl⟩ := List.getElem_of_mem hd
    have hexact : f.treeCount =
        (ds.map (Derivation.trees f.nodes f.grammar f.tokens)).length := by
      rw [hcount, List.length_map]
      exact Nat.min_eq_left hlimit
    have hlast : k < (ds.map (Derivation.trees f.nodes f.grammar f.tokens)).length := by
      rwa [List.length_map]
    have hget := henum.2 k (hexact ▸ hlast)
    rw [List.getElem?_map, List.getElem?_eq_getElem hk] at hget
    refine ⟨k, Option.map_eq_some_iff.1 hget, fun j hj => ?_⟩
    have hj := Option.map_eq_some_iff.2 hj
    have hlt : j < f.treeCount := by
      by_contra hge
      simp [treeAt?_of_le (Nat.not_lt.1 hge)] at hj
    exact henum.injective hnodup hlt (hexact ▸ hlast) (hj.trans hget.symm)

end Forest

end ParseForest
