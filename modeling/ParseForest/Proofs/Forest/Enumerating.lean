import ParseForest.Proofs.Forest.Kept

/-!
# Trees by number

The numbers below the count of a node go up through the list of its trees (`Enumerates`), whether or not
there are more trees than the limit: so each is that of a tree, and no two are those of the same place. An
alternative is chosen by the numbers that the counts before it leave, and the digits of a number are
numbers for the children, the first changing fastest, as in the combinations of their lists
(`TreeIndex.treeFrom_spec`).
-/

namespace ParseForest

open Arena

/-! ## Going through a list -/

/-- The list is counted right, up to the limit, and the numbers below the count are answered by what stands
there in the list. -/
def Enumerates {α : Type} (n : Nat) (xs : List α) (f : Nat → Option α) : Prop :=
  n = capped xs.length ∧ ∀ i < n, f i = xs[i]?

/-- Lists of one length put one after the other: the quotient tells the list, and the remainder the
place in it. -/
theorem getElem?_flatMap_of_length {α β : Type} {f : α → List β} {k : Nat} (hk : 0 < k)
    (hf : ∀ a, (f a).length = k) (as : List α) (i : Nat) :
    (as.flatMap f)[i]? = (as[i / k]?).bind fun a => (f a)[i % k]? := by
  induction as generalizing i with
  | nil => rfl
  | cons a as ih =>
    rw [List.flatMap_cons]
    by_cases hi : i < k
    · rw [List.getElem?_append_left (by rw [hf]; exact hi), Nat.div_eq_of_lt hi, Nat.mod_eq_of_lt hi]
      rfl
    · have hle : k ≤ i := Nat.not_lt.1 hi
      rw [List.getElem?_append_right (by rw [hf]; exact hle), hf, ih, Nat.mod_eq_sub_mod hle,
        Nat.div_eq_sub_div hk hle, List.getElem?_cons_succ]

namespace Enumerates

variable {α β γ : Type} {n m : Nat} {xs : List α} {ys : List β} {f f' : Nat → Option α} {g : Nat → Option β}

theorem congr (h : Enumerates n xs f) (heq : ∀ i < n, f' i = f i) : Enumerates n xs f' :=
  ⟨h.1, fun i hi => (heq i hi).trans (h.2 i hi)⟩

theorem le_length (h : Enumerates n xs f) : n ≤ xs.length := by
  rw [h.1]
  exact Nat.min_le_left _ _

theorem nil (f : Nat → Option α) : Enumerates 0 [] f := ⟨rfl, fun _ hi => absurd hi (Nat.not_lt_zero _)⟩

theorem singleton {x : α} (h : f 0 = some x) : Enumerates 1 [x] f := by
  refine ⟨rfl, fun i hi => ?_⟩
  obtain rfl := Nat.lt_one_iff.1 hi
  exact h

theorem map (h : Enumerates n xs f) (φ : α → β) : Enumerates n (xs.map φ) fun i => (f i).map φ := by
  refine ⟨by rw [List.length_map]; exact h.1, fun i hi => ?_⟩
  rw [List.getElem?_map, ← h.2 i hi]

/-- One list after the other. -/
theorem append {ys : List α} (h : Enumerates n xs f) (h' : Enumerates m ys f') :
    Enumerates (capped (n + m)) (xs ++ ys) fun i => if i < n then f i else f' (i - n) := by
  refine ⟨by rw [h.1, h'.1, capped_add, List.length_append], fun i hi => ?_⟩
  dsimp only
  split
  · rename_i hin
    rw [h.2 i hin, List.getElem?_append_left (Nat.lt_of_lt_of_le hin h.le_length)]
  · -- whoever comes after the first list has seen all of it: there was no limit
    rename_i hin
    have hn := h.1
    simp only [capped] at hi hn
    have hlength : n = xs.length := by omega
    rw [h'.2 (i - n) (by omega), List.getElem?_append_right (by omega), hlength]

/-- Every pair, the first element changing fastest. -/
theorem product (h : Enumerates n xs f) (h' : Enumerates m ys g) (φ : α → β → γ) :
    Enumerates (capped (n * m)) (ys.flatMap fun y => xs.map (φ · y)) fun i =>
      (f (i % n)).bind fun x => (g (i / n)).map (φ x) := by
  have hlength : (ys.flatMap fun y => xs.map (φ · y)).length = xs.length * ys.length := by
    simp [List.length_flatMap, Nat.mul_comm]
  refine ⟨by rw [h.1, h'.1, capped_mul, hlength], fun i hi => ?_⟩
  have hlt : i < n * m := Nat.lt_of_lt_of_le hi (Nat.min_le_left _ _)
  have hn : 0 < n := Nat.pos_of_ne_zero fun h => by simp [h] at hlt
  have hk : 0 < xs.length := Nat.lt_of_lt_of_le hn h.le_length
  have hdigits : i / n = i / xs.length ∧ i % n = i % xs.length := by
    rcases Nat.eq_or_lt_of_le h.le_length with heq | hcut
    · rw [heq]
      exact ⟨rfl, rfl⟩
    · -- the first list reaches the limit, and the number is a place in it
      have hin : i < n := by
        have hn := h.1
        simp only [capped] at hi hn
        omega
      rw [Nat.div_eq_of_lt hin, Nat.div_eq_of_lt (Nat.lt_trans hin hcut), Nat.mod_eq_of_lt hin,
        Nat.mod_eq_of_lt (Nat.lt_trans hin hcut)]
      exact ⟨rfl, rfl⟩
  dsimp only
  rw [getElem?_flatMap_of_length hk fun y => List.length_map _, h.2 _ (Nat.mod_lt i hn),
    h'.2 _ (Nat.div_lt_of_lt_mul hlt), hdigits.1, hdigits.2]
  have hmod := Nat.mod_lt i hk
  cases ys[i / xs.length]? <;> simp [hmod]

/-- Every number is answered. -/
theorem exists_mem (h : Enumerates n xs f) {i : Nat} (hi : i < n) : ∃ x ∈ xs, f i = some x :=
  have hlt := Nat.lt_of_lt_of_le hi h.le_length
  ⟨_, List.getElem_mem hlt, (h.2 i hi).trans (List.getElem?_eq_getElem hlt)⟩

/-- Where the list does not repeat itself, different numbers have different answers. -/
theorem injective (h : Enumerates n xs f) (hnodup : xs.Nodup) {i j : Nat} (hi : i < n) (hj : j < n)
    (heq : f i = f j) : i = j := by
  rw [h.2 i hi, h.2 j hj] at heq
  exact (List.getElem?_inj (Nat.lt_of_lt_of_le hi h.le_length) hnodup).1 heq

end Enumerates

namespace TreeIndex

variable {nodes kept : Arena} {g : Grammar} {tokens : TokenStream} {index : TreeIndex}

/-- A choice goes through the lists of its alternatives. -/
theorem enumerates_chooseAmong {β : Type} {F : NodeId → List β} {pick : NodeId → Nat → Option β}
    {ps : List NodeId} (hcyclic : ∀ p ∈ ps, index.isCyclic p = false)
    (h : ∀ p ∈ ps, Enumerates (index.count p) (F p) (pick p)) :
    Enumerates (cappedSum (ps.map index.count)) (ps.flatMap F) fun i =>
      (index.chooseAmong i ps).bind fun x => pick x.1 x.2 := by
  induction ps with
  | nil => exact .nil _
  | cons p ps ih =>
    have hrest := ih (fun q hq => hcyclic q (.tail _ hq)) fun q hq => h q (.tail _ hq)
    rw [List.map_cons, cappedSum_cons, List.flatMap_cons]
    refine ((h p (.head _)).append hrest).congr fun i _ => ?_
    rw [chooseAmong, hcyclic p (.head _), if_neg Bool.false_ne_true]
    split <;> rfl

/-- The digits of a number go through the combinations. -/
theorem enumerates_digits {part : NodeId × Nat → Option (List (NodeId × Nat))}
    {read : NodeId × Nat → Option Tree} {L : NodeId → List (List Tree)} {cs : List NodeId}
    (h : ∀ c ∈ cs, Enumerates (index.count c) (L c) fun j => (part (c, j)).bind (·.mapM read)) :
    Enumerates (cappedProduct (cs.map index.count)) (combine (cs.map L)) fun i =>
      ((index.digits i cs).mapM part).bind (·.flatten.mapM read) := by
  induction cs with
  | nil => exact .singleton rfl
  | cons c cs ih =>
    have hrest := ih fun d hd => h d (.tail _ hd)
    rw [List.map_cons, cappedProduct_cons, List.map_cons, combine]
    refine ((h c (.head _)).product hrest (· ++ ·)).congr fun i hi => ?_
    have hradix : max (index.count c) 1 = index.count c := by
      refine Nat.max_eq_left (Nat.pos_of_ne_zero fun hzero => ?_)
      rw [hzero, Nat.zero_mul] at hi
      exact absurd hi (Nat.not_lt_zero i)
    simp only [digits, hradix, List.mapM_cons]
    cases part (c, i % index.count c) with
    | none => rfl
    | some es =>
      cases (index.digits (i / index.count c) cs).mapM part with
      | none => cases hes : es.mapM read <;> simp [hes]
      | some parts =>
        simp only [Option.bind_eq_bind, Option.bind_some, Option.pure_def, List.flatten_cons,
          List.mapM_append]
        cases es.mapM read <;> cases parts.flatten.mapM read <;> rfl

section

variable {S : NodeId → Prop} {rank : NodeId → Nat} (h : index.Tallies nodes kept S)
  (hr : kept.Ranked rank)
include h hr

omit hr in
/-- The numbers of a choice go through what its alternatives stand for. -/
theorem Tallies.enumerates_choose {β : Type} {F : NodeId → List β} {pick : NodeId → Nat → Option β}
    {id : NodeId} (hid : S id) (hc : (node nodes id).isChoice = true)
    (hpick : ∀ p ∈ childrenOf kept id, Enumerates (index.count p) (F p) (pick p)) :
    Enumerates (index.count id) ((childrenOf kept id).flatMap F) fun i =>
      (index.choose nodes id i).bind fun x => pick x.1 x.2 := by
  have hcyclic : ∀ p ∈ childrenOf kept id, index.isCyclic p = false := fun p hp =>
    h.isCyclic p (h.closed id hid p hp)
  have hcount : index.count id = cappedSum ((childrenOf kept id).map index.count) := by
    rw [h.count id hid, countOf_choice (by rwa [h.toSameHeads.isChoice_eq]),
      List.filter_eq_self.2 fun p hp => by rw [hcyclic p hp]; rfl]
  rw [hcount]
  refine (enumerates_chooseAmong hcyclic hpick).congr fun i _ => ?_
  rw [h.choose id hid hc]

/-- The numbers of an alternative, or of what derives nothing, go through what it stands for. -/
theorem Tallies.elements_spec {read : NodeId × Nat → Option Tree} {fuel : Nat} {p : NodeId}
    (hfuel : rank p < fuel) (hp : S p) (hk : (node nodes p).isPacked = true ∨
      ∃ A alt dot, (node nodes p).kind = .nulled A alt dot)
    (hread : ∀ c, rank c < rank p → S c →
      ((∃ i, (node nodes c).kind = .terminal i) ∨ ∃ A, (node nodes c).kind = .symbol A) →
      Enumerates (index.count c) (kept.allReadings g tokens c) fun j => (read (c, j)).map fun t => [t]) :
    Enumerates (index.count p) (kept.allReadings g tokens p) fun i =>
      (index.elements nodes fuel p i).bind (·.mapM read) := by
  induction fuel generalizing p with
  | zero => omega
  | succ fuel ih =>
    have hheads := h.toSameHeads
    have hk' : (node kept p).isPacked = true ∨ ∃ A alt dot, (node kept p).kind = .nulled A alt dot := by
      rwa [hheads.isPacked_eq, hheads.kind_eq]
    have hcombine : kept.allReadings g tokens p =
        combine ((childrenOf kept p).map (kept.allReadings g tokens)) := by
      rcases hk' with hpacked | ⟨A, alt, dot, hk'⟩
      · exact allReadings_packed hr hpacked
      · exact allReadings_nulled hr hk'
    have hpart : ∀ c ∈ childrenOf kept p, Enumerates (index.count c) (kept.allReadings g tokens c)
        fun j => (index.part nodes fuel (c, j)).bind (·.mapM read) := by
      intro c hcp
      have hS := h.closed p hp c hcp
      have hrank := hr.lt p c hcp
      have hleaf : ((∃ i, (node nodes c).kind = .terminal i) ∨ ∃ A, (node nodes c).kind = .symbol A) →
          Enumerates (index.count c) (kept.allReadings g tokens c) fun j =>
            (some [(c, j)]).bind (·.mapM read) := by
        intro hkc
        refine (hread c hrank hS hkc).congr fun j _ => ?_
        rw [Option.bind_some, List.mapM_cons]
        cases read (c, j) <;> rfl
      cases hkc : (node nodes c).kind with
      | symbol A => exact (hleaf (.inr ⟨A, hkc⟩)).congr fun j _ => by simp only [part, hkc]
      | terminal k => exact (hleaf (.inl ⟨k, hkc⟩)).congr fun j _ => by simp only [part, hkc]
      | packed A alt =>
        -- the children of what is no choice are not packed
        have hchoice := h.layered.owner p c hcp (by rw [hheads.isPacked_eq, Node.isPacked, hkc])
        rw [hheads.isChoice_eq, Node.isChoice] at hchoice
        rw [Node.isPacked_iff] at hk
        rcases hk with ⟨B, b, hk⟩ | ⟨B, b, d, hk⟩ <;> rw [hk] at hchoice <;> cases hchoice
      | epsilon =>
        rw [h.count c hS, countOf, hheads.kind_eq, hkc,
          allReadings_epsilon ((hheads.kind_eq c).trans hkc)]
        exact .singleton (by simp only [part, hkc]; rfl)
      | nulled A alt dot =>
        refine (ih (by omega) hS (.inr ⟨A, alt, dot, hkc⟩) fun d hd =>
          hread d (Nat.lt_trans hd hrank)).congr fun j _ => ?_
        simp only [part, hkc]
      | intermediate A alt dot =>
        have hc : (node nodes c).isChoice = true := by rw [Node.isChoice, hkc]
        rw [allReadings_intermediate hr ((hheads.kind_eq c).trans hkc)]
        have hpick : ∀ q ∈ childrenOf kept c, Enumerates (index.count q) (kept.allReadings g tokens q)
            fun j => (index.elements nodes fuel q j).bind (·.mapM read) := by
          intro q hq
          have hrankq := hr.lt c q hq
          have hpacked := h.layered.isPacked c (by rwa [hheads.isChoice_eq]) q hq
          rw [hheads.isPacked_eq] at hpacked
          exact ih (by omega) (h.closed c hS q hq) (.inl hpacked) fun d hd => hread d (by omega)
        refine (h.enumerates_choose hS hc hpick).congr fun j _ => ?_
        simp only [part, hkc]
        cases index.choose nodes c j <;> rfl
    have hcount : index.count p = cappedProduct ((childrenOf kept p).map index.count) := by
      rw [h.count p hp, countOf_whole (h.isCyclic p hp) hk']
    rw [hcount, hcombine]
    refine (enumerates_digits hpart).congr fun i _ => ?_
    rw [elements_succ, h.children p hp hk]
    cases (index.digits i (childrenOf nodes p)).mapM (index.part nodes fuel) <;> rfl

/-- The numbers of a node go through the trees that it stands for. -/
theorem Tallies.treeFrom_spec (hleaf : ∀ id i, (node kept id).kind = .terminal i → i < tokens.length)
    {fuel : Nat} {id : NodeId} (hfuel : rank id < fuel) (hid : S id)
    (hk : (∃ i, (node nodes id).kind = .terminal i) ∨ ∃ A, (node nodes id).kind = .symbol A) :
    Enumerates (index.count id) (kept.allReadings g tokens id) fun i =>
      (index.treeFrom nodes g tokens fuel id i).map fun t => [t] := by
  have hheads := h.toSameHeads
  induction fuel generalizing id with
  | zero => omega
  | succ fuel ih =>
    rcases hk with ⟨k, hk⟩ | ⟨A, hk⟩
    · have hkept := (hheads.kind_eq id).trans hk
      obtain ⟨tok, htok⟩ : ∃ tok, tokens.get? k = some tok :=
        ⟨_, Array.getElem?_eq_getElem (hleaf id k hkept)⟩
      rw [h.count id hid, countOf, hkept, allReadings_terminal hkept, htok]
      exact .singleton (by simp only [treeFrom, hk, htok]; rfl)
    · have hc : (node nodes id).isChoice = true := by rw [Node.isChoice, hk]
      have hpacked : ∀ p ∈ childrenOf kept id, (node nodes p).isPacked = true := by
        intro p hp
        rw [← hheads.isPacked_eq]
        exact h.layered.isPacked id (by rwa [hheads.isChoice_eq]) p hp
      rw [allReadings_symbol hr ((hheads.kind_eq id).trans hk)]
      refine Enumerates.congr (@Tallies.enumerates_choose nodes kept index S h _ _
        (fun p j => (index.ruleTree nodes g tokens fuel A p j).map fun t => [t]) id hid hc
        fun p hp => ?_) fun i _ => ?_
      · obtain ⟨B, alt, hpk⟩ := Node.isPacked_iff.1 (hpacked p hp)
        have hrank := hr.lt id p hp
        have helements := @Tallies.elements_spec nodes kept g tokens index S rank h hr
          (fun x => index.treeFrom nodes g tokens fuel x.1 x.2) (nodes.size + 1) p
          (Nat.lt_succ_of_le (h.size_eq ▸ hr.le_size p)) (h.closed id hid p hp) (.inl (hpacked p hp))
          fun c hcr hS hkc => ih (by omega) hS hkc
        rw [hheads.kind_eq, hpk]
        refine (helements.map fun ts => [Tree.rule (g.rule A).name A alt ts]).congr fun j _ => ?_
        rw [ruleTree_eq hpk]
        cases index.elements nodes (nodes.size + 1) p j with
        | none => rfl
        | some es => rw [Option.bind_some, Option.bind_some, Option.map_map]; rfl
      · rw [treeFrom_symbol hk]
        cases index.choose nodes id i <;> rfl

end

end TreeIndex

/-! ## Forests -/

theorem filterMap_range_getElem? {α : Type} (as : List α) :
    (List.range as.length).filterMap (as[·]?) = as := by
  induction as with
  | nil => rfl
  | cons a as ih =>
    rw [List.length_cons, List.range_succ_eq_map, List.filterMap_cons, List.filterMap_map]
    simp only [List.getElem?_cons_zero, Function.comp_def, List.getElem?_cons_succ, ih]

namespace Forest

/-- No more trees are listed than are counted. -/
theorem length_trees_le (f : Forest) : f.trees.length ≤ f.treeCount := by
  rw [trees, firstTrees]
  refine (List.length_filterMap_le _ _).trans ?_
  rw [List.length_range]
  exact Nat.min_le_left _ _

variable {f : Forest}

/-- The flag says that a choice that can be reached has two alternatives. -/
theorem isAmbiguous_iff (hroot : f.root < f.nodes.size)
    (hclosed : ∀ id, ∀ c ∈ childrenOf f.nodes id, c < f.nodes.size) : f.isAmbiguous = true ↔
      ∃ id, f.nodes.Reachable f.root id ∧ (Arena.node f.nodes id).isChoice = true ∧
        1 < (childrenOf f.nodes id).length := by
  simp only [isAmbiguous, liveNodes, List.any_eq_true, Prod.exists, Pass.mem_liveNodes_iff,
    live_iff_reachable hroot hclosed, Bool.and_eq_true, decide_eq_true_eq]
  constructor
  · rintro ⟨_, id, ⟨-, rfl, hid⟩, hc, hmany⟩
    exact ⟨id, hid, hc, hmany⟩
  · rintro ⟨id, hid, hc, hmany⟩
    exact ⟨_, id, ⟨lt_size_of_isChoice hc, rfl, hid⟩, hc, hmany⟩

theorem treeAt?_of_lt {i : Nat} (hi : i < f.treeCount) : f.treeAt? i = f.treeUnder f.treeIndex i :=
  if_pos hi

theorem treeAt?_of_le {i : Nat} (hi : f.treeCount ≤ i) : f.treeAt? i = none :=
  if_neg (Nat.not_lt.2 hi)

variable {rank : NodeId → Nat} (hr : f.nodes.Ranked rank) (hl : f.nodes.Layered)
  (hleaf : ∀ id i, (Arena.node f.nodes id).kind = .terminal i → i < f.tokens.length)
  {A : RuleId} (hroot : (Arena.node f.nodes f.root).kind = .symbol A)
include hr hl hleaf hroot

/-- The numbers of a forest without cycles go through the list of its trees. -/
theorem enumerates_of_ranked :
    Enumerates f.treeCount (f.nodes.allReadings f.grammar f.tokens f.root) fun i =>
      (f.treeUnder f.treeIndex i).map fun t => [t] := by
  have hlt : f.root < f.nodes.size := lt_size_of_kind (by rw [hroot]; simp)
  obtain ⟨hs, hm⟩ := TreeIndex.surveyed_of_acyclic hl (hr.not_cyclic f.root) hlt
  exact (hs.tallies hl (hr.not_cyclic f.root)).treeFrom_spec hr hleaf
    (Nat.lt_succ_of_le (hr.le_size f.root)) ⟨hlt, hm⟩ (.inr ⟨A, hroot⟩)

/-- The trees of a forest without cycles are counted right, up to the limit. -/
theorem treeCount_eq :
    f.treeCount = capped (f.nodes.allReadings f.grammar f.tokens f.root).length :=
  (enumerates_of_ranked hr hl hleaf hroot).1

/-- Every number below the count is that of the tree that stands there in the list. -/
theorem treeUnder_spec {i : Nat} (hi : i < f.treeCount) : ∃ t, f.treeUnder f.treeIndex i = some t ∧
    (f.nodes.allReadings f.grammar f.tokens f.root)[i]? = some [t] := by
  have henum := enumerates_of_ranked hr hl hleaf hroot
  obtain ⟨_, -, hsome⟩ := henum.exists_mem hi
  obtain ⟨t, ht, -⟩ := Option.map_eq_some_iff.1 hsome
  refine ⟨t, ht, ?_⟩
  have hget := henum.2 i hi
  dsimp only at hget
  rw [← hget, ht]
  rfl

/-- The trees are the first in the list of the root, as many as there are numbers. -/
theorem map_trees_eq_take : f.trees.map (fun t => [t]) =
    (f.nodes.allReadings f.grammar f.tokens f.root).take countLimit := by
  have hcount := treeCount_eq hr hl hleaf hroot
  have hlength : f.treeCount =
      ((f.nodes.allReadings f.grammar f.tokens f.root).take countLimit).length := by
    rw [hcount, capped, List.length_take, Nat.min_comm]
  have hmin : min f.treeCount (f.treeIndex.count f.root) = f.treeCount := Nat.min_self _
  have hcongr : ∀ i ∈ List.range f.treeCount, (f.treeUnder f.treeIndex i).map (fun t => [t]) =
      ((f.nodes.allReadings f.grammar f.tokens f.root).take countLimit)[i]? := by
    intro i hi
    obtain ⟨t, ht, hexact⟩ := treeUnder_spec hr hl hleaf hroot (List.mem_range.1 hi)
    rw [ht, List.getElem?_take_of_lt (Nat.lt_of_lt_of_le (List.mem_range.1 hi)
      (hcount ▸ Nat.min_le_right _ _)), hexact]
    rfl
  rw [trees, firstTrees, hmin, List.map_filterMap, List.filterMap_congr hcongr, hlength,
    filterMap_range_getElem?]

/-- If there are no more trees than the limit, the trees are those in the list of the root. -/
theorem map_trees_eq (h : (f.nodes.allReadings f.grammar f.tokens f.root).length ≤ countLimit) :
    f.trees.map (fun t => [t]) = f.nodes.allReadings f.grammar f.tokens f.root := by
  rw [map_trees_eq_take hr hl hleaf hroot, List.take_of_length_le h]

/-- As long as the count is below the limit, the trees are those for which the root stands. -/
theorem mem_trees_iff (hcount : f.treeCount < countLimit) {t : Tree} :
    t ∈ f.trees ↔ f.nodes.Reads f.grammar f.tokens f.root t := by
  have hfew : (f.nodes.allReadings f.grammar f.tokens f.root).length ≤ countLimit := by
    rw [treeCount_eq hr hl hleaf hroot, capped] at hcount
    omega
  rw [← mem_allReadings_iff hr hl (.inr ⟨_, hroot⟩), ← map_trees_eq hr hl hleaf hroot hfew,
    List.mem_map_of_injective fun _ _ heq => (List.cons.inj heq).1]

/-- If the root stands for a tree, there are trees. -/
theorem trees_ne_nil (h : f.nodes.allReadings f.grammar f.tokens f.root ≠ []) :
    1 ≤ f.treeCount ∧ f.trees ≠ [] := by
  have hpos : 0 < f.treeCount := by
    rw [treeCount_eq hr hl hleaf hroot, capped]
    exact Nat.lt_min.2 ⟨List.length_pos_iff.2 h, by decide⟩
  refine ⟨hpos, ?_⟩
  obtain ⟨t, ht, -⟩ := treeUnder_spec hr hl hleaf hroot hpos
  refine List.ne_nil_of_mem (List.mem_filterMap.2 ⟨0, List.mem_range.2 ?_, ht⟩)
  exact Nat.lt_min.2 ⟨hpos, hpos⟩

end Forest

end ParseForest
