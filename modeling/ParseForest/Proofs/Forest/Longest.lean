import Mathlib.Order.WellFoundedSet
import ParseForest.Proofs.Forest.Settling

/-!
# The longest lists are those that nothing beats

Being greedier is a strict order on right-hand sides (`Arena.greedier_irrefl`, `Arena.greedier_trans`),
although it looks at one place only: of two first differences the earlier one decides, and where both are
at the same place, widths do. So among finitely many alternatives there is one that no other beats
(`Pass.exists_unbeaten`), and the pass for longest lists keeps exactly the unbeaten ones
(`Pass.childrenOf_preferLongestList`); that it keeps all where each is beaten never matters. Which ones are
unbeaten does not depend on their order, since a right-hand side of an alternative is never read off the
choice to which the alternative belongs (`Arena.Unwinds.sequences_setChildren`).
-/

namespace ParseForest

namespace Arena

variable {g : Grammar} {nodes nodes' : Arena}

/-! ## A strict order -/

theorem wider_eq_true_iff {x y : NodeId} : wider g nodes x y = true ↔
    ∃ A, (node nodes x).kind = .symbol A ∧ (node nodes y).kind = .symbol A ∧
      (g.rule A).kind.isRepetition = true ∧ (g.rule A).nullable = true ∧
      (node nodes y).width < (node nodes x).width := by
  rw [wider]
  split
  · rename_i A B hx hy
    simp only [Bool.and_eq_true, beq_iff_eq, decide_eq_true_eq]
    constructor
    · rintro ⟨⟨⟨rfl, hrepetition⟩, hnullable⟩, hlt⟩
      exact ⟨A, hx, hy, hrepetition, hnullable, hlt⟩
    · rintro ⟨C, hxC, hyC, hrepetition, hnullable, hlt⟩
      obtain rfl : A = C := NodeKind.symbol.inj (hx.symm.trans hxC)
      obtain rfl : B = A := NodeKind.symbol.inj (hy.symm.trans hyC)
      exact ⟨⟨⟨rfl, hrepetition⟩, hnullable⟩, hlt⟩
  · rename_i hnot
    simp only [Bool.false_eq_true, false_iff]
    rintro ⟨A, hx, hy, -⟩
    exact hnot A A hx hy

theorem wider_irrefl (x : NodeId) : ¬ wider g nodes x x = true := by
  rw [wider_eq_true_iff]
  rintro ⟨A, -, -, -, -, hlt⟩
  exact Nat.lt_irrefl _ hlt

theorem wider_trans {x y z : NodeId} (hxy : wider g nodes x y = true) (hyz : wider g nodes y z = true) :
    wider g nodes x z = true := by
  obtain ⟨A, hx, hy, hrepetition, hnullable, hlt⟩ := wider_eq_true_iff.1 hxy
  obtain ⟨B, hy', hz, -, -, hlt'⟩ := wider_eq_true_iff.1 hyz
  obtain rfl : A = B := NodeKind.symbol.inj (hy.symm.trans hy')
  exact wider_eq_true_iff.2 ⟨A, hx, hz, hrepetition, hnullable, Nat.lt_trans hlt' hlt⟩

theorem greedier_irrefl (s : Sequence) : ¬ greedier g nodes s s = true := by
  induction s with
  | nil => exact Bool.false_ne_true
  | cons x s ih => rwa [greedier, if_pos rfl]

/-- Where two right-hand sides go on after a common node, the rest decides. -/
theorem greedier_cons_self (x : NodeId) (s t : Sequence) :
    greedier g nodes (x :: s) (x :: t) = greedier g nodes s t := if_pos rfl

theorem greedier_cons_of_ne {x y : NodeId} (h : x ≠ y) (s t : Sequence) :
    greedier g nodes (x :: s) (y :: t) = wider g nodes x y := if_neg h

theorem greedier_trans {r s t : Sequence} (hrs : greedier g nodes r s = true)
    (hst : greedier g nodes s t = true) : greedier g nodes r t = true := by
  induction r generalizing s t with
  | nil => cases hrs
  | cons x r ih =>
    cases s with
    | nil => cases hrs
    | cons y s =>
      cases t with
      | nil => cases hst
      | cons z t =>
        by_cases hxy : x = y <;> by_cases hyz : y = z
        · -- both differences come later
          subst hxy hyz
          rw [greedier_cons_self] at hrs hst ⊢
          exact ih hrs hst
        · -- the second difference is here, the first one comes later
          subst hxy
          rw [greedier_cons_of_ne hyz] at hst ⊢
          exact hst
        · subst hyz
          rw [greedier_cons_of_ne hxy] at hrs ⊢
          exact hrs
        · rw [greedier_cons_of_ne hxy] at hrs
          rw [greedier_cons_of_ne hyz] at hst
          have hxz := wider_trans hrs hst
          rwa [greedier_cons_of_ne]
          rintro rfl
          exact wider_irrefl x hxz

/-- Only kinds and spans are looked at. -/
theorem SameHeads.greedier_eq (h : SameHeads nodes nodes') (s t : Sequence) :
    greedier g nodes' s t = greedier g nodes s t := by
  induction s generalizing t with
  | nil => rw [greedier, greedier] <;> simp
  | cons x s ih =>
    cases t with
    | nil => rfl
    | cons y t =>
      have hwidth : ∀ id, (node nodes' id).width = (node nodes id).width := fun id => by
        rw [Node.width, Node.width, h.span_eq]
      simp only [greedier, ih, wider, h.kind_eq, hwidth]

/-- A greedier right-hand side has a node with tokens. -/
theorem exists_width_of_greedier {s t : Sequence} (h : greedier g nodes s t = true) :
    ∃ x ∈ s, 0 < (node nodes x).width := by
  induction s generalizing t with
  | nil => cases h
  | cons x s ih =>
    cases t with
    | nil => cases h
    | cons y t =>
      rw [greedier] at h
      split at h
      · obtain ⟨z, hz, hwidth⟩ := ih h
        exact ⟨z, .tail _ hz, hwidth⟩
      · obtain ⟨A, -, -, -, -, hlt⟩ := wider_eq_true_iff.1 h
        exact ⟨x, .head _, Nat.zero_lt_of_lt hlt⟩

/-! ## Right-hand sides that do not depend on the order of alternatives -/

/-- Alternatives are packed nodes, and intermediate nodes are only held by others that start further to the
left in the right-hand side. -/
structure Unwinds (nodes : Arena) : Prop where
  closed : ∀ id, ∀ c ∈ childrenOf nodes id, c < nodes.size
  isPacked : ∀ id, (node nodes id).isChoice = true → ∀ p ∈ childrenOf nodes id,
    (node nodes p).isPacked = true
  deeper : ∀ id A alt dot, (node nodes id).kind = .intermediate A alt dot → ∀ p ∈ childrenOf nodes id,
    ∀ c ∈ childrenOf nodes p, ∀ B alt' dot', (node nodes c).kind = .intermediate B alt' dot' → dot < dot'

/-- If both are intermediate nodes, the second one starts further to the right. -/
def IsPast (nodes : Arena) (id c : NodeId) : Prop := ∀ A alt dot B alt' dot',
  (node nodes id).kind = .intermediate A alt dot → (node nodes c).kind = .intermediate B alt' dot' →
    dot < dot'

namespace Unwinds

variable (h : nodes.Unwinds)
include h

theorem isPast {id p c : NodeId} (hp : p ∈ childrenOf nodes id) (hc : c ∈ childrenOf nodes p) :
    nodes.IsPast id c :=
  fun A alt dot B alt' dot' hk hk' => h.deeper id A alt dot hk p hp c hc B alt' dot' hk'

variable {id : NodeId} (hid : (node nodes id).isChoice = true) (children : Array NodeId)
include hid

/-- What lies past a choice unfolds without a look at its alternatives. -/
theorem expandChildren_setChildren (cap fuel : Nat) {cs : List NodeId} (hcs : ∀ c ∈ cs, nodes.IsPast id c) :
    expandChildren (setChildren nodes id children) cap fuel cs = expandChildren nodes cap fuel cs := by
  have hheads : SameHeads nodes (setChildren nodes id children) := sameHeads_setChildren id children
  induction fuel generalizing cs with
  | zero => rfl
  | succ fuel ih =>
    rw [expandChildren, expandChildren]
    refine List.foldl_ext _ _ _ fun fronts c hc => ?_
    simp only [extend, hheads.kind_eq]
    split
    · rename_i B alt dot hk
      have hne : id ≠ c := by
        rintro rfl
        exact Nat.lt_irrefl _ (hcs id hc B alt dot B alt dot hk hk)
      rw [childrenOf_setChildren_ne hne]
      refine continueUpTo_congr (fun p hp => ?_) cap fronts
      have hpacked := h.isPacked c (by rw [Node.isChoice, hk]) p hp
      have hnep : id ≠ p := by
        rintro rfl
        rw [Node.not_isPacked_of_isChoice hid] at hpacked
        cases hpacked
      rw [childrenOf_setChildren_ne hnep]
      refine ih fun c' hc' A' alt' dot' B' alt'' dot'' hk' hk'' => ?_
      exact Nat.lt_trans (hcs c hc A' alt' dot' B alt dot hk' hk)
        (h.deeper c B alt dot hk p hp c' hc' B' alt'' dot'' hk'')
    · rename_i B alt dot hk
      have hne : id ≠ c := by
        rintro rfl
        rw [Node.isChoice, hk] at hid
        cases hid
      rw [childrenOf_setChildren_ne hne]
    · rfl
    · rfl

/-- The right-hand sides of an alternative do not depend on the order of the alternatives of its choice. -/
theorem sequences_setChildren (cap : Nat) {p : NodeId} (hp : p ∈ childrenOf nodes id) :
    sequences (setChildren nodes id children) cap p = sequences nodes cap p := by
  have hne : id ≠ p := by
    rintro rfl
    have hpacked := h.isPacked id hid id hp
    rw [Node.not_isPacked_of_isChoice hid] at hpacked
    cases hpacked
  rw [sequences, sequences, childrenOf_setChildren_ne hne, sequencesOf, sequencesOf, size_setChildren]
  exact h.expandChildren_setChildren hid children _ _ fun c hc => h.isPast hp hc

end Unwinds

end Arena

namespace Pass

open Arena

variable {g : Grammar} {nodes : Arena} {root : NodeId}

/-! ## Beating -/

/-- Whether the first right-hand side of a packed node is greedier than that of another one. -/
def beats (g : Grammar) (nodes : Arena) (q p : NodeId) : Bool :=
  (firstSequence? nodes p).any fun mine =>
    (firstSequence? nodes q).any fun theirs => greedier g nodes theirs mine

theorem beats_eq_true_iff {q p : NodeId} : beats g nodes q p = true ↔
    ∃ theirs mine, firstSequence? nodes q = some theirs ∧ firstSequence? nodes p = some mine ∧
      greedier g nodes theirs mine = true := by
  simp only [beats, Option.any_eq_true]
  exact ⟨fun ⟨mine, hmine, theirs, htheirs, h⟩ => ⟨theirs, mine, htheirs, hmine, h⟩,
    fun ⟨theirs, mine, htheirs, hmine, h⟩ => ⟨mine, hmine, theirs, htheirs, h⟩⟩

theorem beats_irrefl (g : Grammar) (nodes : Arena) (p : NodeId) : ¬ beats g nodes p p = true := by
  rw [beats_eq_true_iff]
  rintro ⟨theirs, mine, htheirs, hmine, h⟩
  obtain rfl : theirs = mine := Option.some.inj (htheirs.symm.trans hmine)
  exact greedier_irrefl theirs h

theorem beats_trans {r q p : NodeId} (hrq : beats g nodes r q = true) (hqp : beats g nodes q p = true) :
    beats g nodes r p = true := by
  obtain ⟨s, t, hs, ht, hst⟩ := beats_eq_true_iff.1 hrq
  obtain ⟨t', u, ht', hu, htu⟩ := beats_eq_true_iff.1 hqp
  obtain rfl : t = t' := Option.some.inj (ht.symm.trans ht')
  exact beats_eq_true_iff.2 ⟨s, u, hs, hu, greedier_trans hst htu⟩

instance isStrictOrder_beats (g : Grammar) (nodes : Arena) :
    IsStrictOrder NodeId fun q p => beats g nodes q p = true where
  irrefl := beats_irrefl g nodes
  trans _ _ _ := beats_trans

/-- What has no tokens below it beats nothing. -/
theorem beats_eq_false_of_closed {U : NodeId → Prop} (hU : ∀ id, U id → ∀ c ∈ childrenOf nodes id, U c)
    (hwidth : ∀ id, U id → (node nodes id).width = 0) {q : NodeId} (hq : U q) (p : NodeId) :
    beats g nodes q p = false := by
  refine Bool.eq_false_iff.2 fun h => ?_
  obtain ⟨theirs, mine, htheirs, -, hgreedier⟩ := beats_eq_true_iff.1 h
  obtain ⟨x, hx, hpos⟩ := exists_width_of_greedier hgreedier
  have hflattens := flattens_of_mem_sequencesOf (List.mem_of_head? htheirs)
  exact hpos.ne' (hwidth x (hflattens.mem_of_closed hU (hU q hq) x hx))

/-- Of finitely many alternatives one is beaten by none. -/
theorem exists_unbeaten (g : Grammar) (nodes : Arena) {children : List NodeId} (h : children ≠ []) :
    ∃ p ∈ children, ∀ q ∈ children, beats g nodes q p = false := by
  have hwf : {p | p ∈ children}.WellFoundedOn fun q p => beats g nodes q p = true :=
    children.finite_toSet.wellFoundedOn
  obtain ⟨p, hp⟩ := List.exists_mem_of_ne_nil children h
  obtain ⟨⟨p, hp⟩, -, hmin⟩ := hwf.has_min Set.univ ⟨⟨p, hp⟩, trivial⟩
  exact ⟨p, hp, fun q hq => Bool.eq_false_iff.2 (hmin ⟨q, hq⟩ trivial)⟩

/-- Whether no other alternative beats this one. -/
def isUnbeaten (g : Grammar) (nodes : Arena) (children : List NodeId) (p : NodeId) : Bool :=
  children.all fun q => !beats g nodes q p

/-- That an alternative is not compared with itself makes no difference. -/
theorem isBeaten_eq {children : List NodeId} {j : Nat} {p : NodeId} (hj : children[j]? = some p) :
    isBeaten g nodes (children.map (firstSequence? nodes)) j (firstSequence? nodes p) =
      !isUnbeaten g nodes children p := by
  rw [isUnbeaten, List.not_all_eq_any_not]
  simp only [Bool.not_not]
  cases hmine : firstSequence? nodes p with
  | none => simp [isBeaten, beats, hmine]
  | some mine =>
    rw [Bool.eq_iff_iff]
    simp only [isBeaten, List.any_eq_true, Prod.exists, List.mem_zipIdx_iff_getElem?, List.getElem?_map,
      Option.map_eq_some_iff, Bool.and_eq_true, bne_iff_ne, Option.any_eq_true, beats_eq_true_iff]
    constructor
    · rintro ⟨first, i, ⟨q, hq, rfl⟩, -, theirs, htheirs, hgreedier⟩
      exact ⟨q, List.mem_of_getElem? hq, theirs, mine, htheirs, hmine, hgreedier⟩
    · rintro ⟨q, hq, theirs, mine', htheirs, hmine', hgreedier⟩
      obtain rfl : mine = mine' := Option.some.inj (hmine.symm.trans hmine')
      obtain ⟨i, hi⟩ := List.getElem?_of_mem hq
      refine ⟨_, i, ⟨q, hi, rfl⟩, ?_, theirs, htheirs, hgreedier⟩
      rintro rfl
      obtain rfl : q = p := Option.some.inj (hi.symm.trans hj)
      obtain rfl : theirs = mine := Option.some.inj (htheirs.symm.trans hmine)
      exact greedier_irrefl theirs hgreedier

/-- The alternatives that are left are those that none beats: it is never the case that each is beaten. -/
theorem unbeaten_eq_filter (children : List NodeId) :
    unbeaten g nodes children = children.filter (isUnbeaten g nodes children) := by
  have hmarked : ((children.zip (children.map (firstSequence? nodes))).zipIdx.map fun x =>
      (x.1.1, isBeaten g nodes (children.map (firstSequence? nodes)) x.2 x.1.2)) =
      children.map fun p => (p, !isUnbeaten g nodes children p) := by
    refine List.ext_getElem (by simp) fun i hi hi' => ?_
    have hlt : i < children.length := by simpa using hi'
    simp only [List.getElem_map, List.getElem_zipIdx, List.getElem_zip, Nat.zero_add]
    rw [isBeaten_eq (List.getElem?_eq_getElem hlt)]
  change (if List.all (List.map _ _) Prod.snd = true then children
    else (List.filter _ (List.map _ _)).map Prod.fst) = _
  rw [hmarked]
  split
  · rename_i hall
    by_cases hnil : children = []
    · rw [hnil]
      rfl
    · obtain ⟨p, hp, hunbeaten⟩ := exists_unbeaten g nodes hnil
      have hbeaten : isUnbeaten g nodes children p = false := by
        simpa using List.all_eq_true.1 hall _ (List.mem_map_of_mem hp)
      rw [isUnbeaten, List.all_eq_false] at hbeaten
      obtain ⟨q, hq, hbeats⟩ := hbeaten
      exact absurd (hunbeaten q hq) (by simpa using hbeats)
  · rw [List.filter_map, List.map_map]
    simp [Function.comp_def]

/-! ## The pass -/

/-- Below two alternatives there is nothing to compare. -/
theorem filter_isUnbeaten_of_length_lt {children : List NodeId} (h : children.length < 2) :
    children.filter (isUnbeaten g nodes children) = children := by
  match children, h with
  | [], _ => rfl
  | [p], _ => simp [isUnbeaten, Bool.eq_false_iff.2 (beats_irrefl g nodes p)]

/-- What becomes of one node. -/
def longestEdit (g : Grammar) (nodes : Arena) (x : Node × NodeId) : Option (NodeId × Array NodeId) :=
  if x.1.isChoice && 2 ≤ x.1.children.size then
    let keep := unbeaten g nodes x.1.children.toList
    if keep.length = x.1.children.size then none else some (x.2, keep.toArray)
  else none

theorem longestEdit_fst {x : Node × NodeId} {y : NodeId × Array NodeId}
    (h : longestEdit g nodes x = some y) : y.1 = x.2 := by
  simp only [longestEdit] at h
  split at h
  · split at h
    · cases h
    · exact (congrArg Prod.fst (Option.some.inj h)).symm
  · cases h

/-- A choice that is not edited has no beaten alternative. -/
theorem children_longestEdit {id : NodeId} (hc : (node nodes id).isChoice = true) :
    ((longestEdit g nodes (node nodes id, id)).map fun y => y.2.toList).getD (childrenOf nodes id) =
      (childrenOf nodes id).filter (isUnbeaten g nodes (childrenOf nodes id)) := by
  simp only [longestEdit, hc, Bool.true_and]
  change ((if decide (2 ≤ (childrenOf nodes id).length) = true then
    (if (unbeaten g nodes (childrenOf nodes id)).length = (childrenOf nodes id).length then none
      else some (id, (unbeaten g nodes (childrenOf nodes id)).toArray)) else none).map _).getD _ = _
  rw [unbeaten_eq_filter]
  split
  · split
    · rename_i hlength
      exact (List.filter_sublist.eq_of_length hlength).symm
    · rfl
  · rename_i hfew
    exact (filter_isUnbeaten_of_length_lt (by simpa using hfew)).symm

section

variable (hroot : root < nodes.size) (hclosed : ∀ id, ∀ c ∈ childrenOf nodes id, c < nodes.size)
  {id : NodeId}
include hroot hclosed

/-- Of a choice in use the alternatives are left that none beats, in their order. -/
theorem childrenOf_preferLongestList (hid : nodes.Reachable root id)
    (hc : (node nodes id).isChoice = true) : childrenOf (preferLongestList.run g root nodes).1 id =
      (childrenOf nodes id).filter (isUnbeaten g nodes (childrenOf nodes id)) := by
  change childrenOf (applyEdits nodes ((liveNodes nodes root).filterMap (longestEdit g nodes))).1 id = _
  rw [childrenOf_applyEdits_liveNodes fun _ _ => longestEdit_fst,
    if_pos ⟨(live_iff_reachable hroot hclosed).2 hid, lt_size_of_isChoice hc⟩, children_longestEdit hc]

/-- Nothing else is touched. -/
theorem childrenOf_preferLongestList_of_not
    (h : ¬ (nodes.Reachable root id ∧ (node nodes id).isChoice = true)) :
    childrenOf (preferLongestList.run g root nodes).1 id = childrenOf nodes id := by
  change childrenOf (applyEdits nodes ((liveNodes nodes root).filterMap (longestEdit g nodes))).1 id = _
  rw [childrenOf_applyEdits_liveNodes fun _ _ => longestEdit_fst]
  split
  · rename_i hid
    have hc : (node nodes id).isChoice = false :=
      Bool.eq_false_iff.2 fun hc => h ⟨(live_iff_reachable hroot hclosed).1 hid.1, hc⟩
    rw [longestEdit, hc]
    rfl
  · rfl

/-- What has no tokens below it stands for what it stood for. -/
theorem readings_preferLongestList {tokens : TokenStream} {U : NodeId → Prop}
    (hU : ∀ id, U id → ∀ c ∈ childrenOf nodes id, U c) (hwidth : ∀ id, U id → (node nodes id).width = 0)
    (fuel : Nat) (hid : U id) : (preferLongestList.run g root nodes).1.readings g tokens fuel id =
      nodes.readings g tokens fuel id := by
  have hheads := (trims_preferLongestList g root nodes).toSameHeads
  have hchildren : ∀ id, U id →
      childrenOf (preferLongestList.run g root nodes).1 id = childrenOf nodes id := by
    intro id hid
    by_cases h : nodes.Reachable root id ∧ (node nodes id).isChoice = true
    · rw [childrenOf_preferLongestList hroot hclosed h.1 h.2, List.filter_eq_self]
      refine fun p _ => List.all_eq_true.2 fun q hq => ?_
      rw [beats_eq_false_of_closed hU hwidth (hU id hid q hq), Bool.not_false]
    · exact childrenOf_preferLongestList_of_not hroot hclosed h
  induction fuel generalizing id with
  | zero => rfl
  | succ fuel ih =>
    have hmap := List.map_congr_left fun c hc => ih (hU id hid c hc)
    simp only [readings, hheads.kind_eq, hchildren id hid]
    cases hk : (node nodes id).kind with
    | symbol A =>
      refine List.flatMap_congr fun p hp => ?_
      rw [ih (hU id hid p hp)]
    | intermediate A alt dot => rw [List.flatMap_def, List.flatMap_def, hmap]
    | packed A alt => rw [hmap]
    | nulled A alt dot => rw [hmap]
    | terminal i => rfl
    | epsilon => rfl

end

/-! ## The order of alternatives -/

/-- In another order the alternatives beat each other as before. -/
theorem beats_setChildren (h : nodes.Unwinds) {id : NodeId} (hid : (node nodes id).isChoice = true)
    (children : Array NodeId) {p q : NodeId} (hp : p ∈ childrenOf nodes id) (hq : q ∈ childrenOf nodes id) :
    beats g (setChildren nodes id children) q p = beats g nodes q p := by
  simp only [beats, firstSequence?, h.sequences_setChildren hid children _ hp,
    h.sequences_setChildren hid children _ hq, (sameHeads_setChildren id children).greedier_eq]

/-- The alternatives that none beats, whatever the order. -/
theorem perm_filter_isUnbeaten (h : nodes.Unwinds) {id : NodeId} (hid : (node nodes id).isChoice = true)
    {children : Array NodeId} (hperm : children.toList.Perm (childrenOf nodes id)) :
    (children.toList.filter (isUnbeaten g (setChildren nodes id children) children.toList)).Perm
      ((childrenOf nodes id).filter (isUnbeaten g nodes (childrenOf nodes id))) := by
  have hsame : ∀ p ∈ children.toList, isUnbeaten g (setChildren nodes id children) children.toList p =
      isUnbeaten g nodes (childrenOf nodes id) p := by
    intro p hp
    rw [isUnbeaten, isUnbeaten, hperm.all_eq, Bool.eq_iff_iff, List.all_eq_true, List.all_eq_true]
    refine forall₂_congr fun q hq => ?_
    rw [beats_setChildren h hid children (hperm.mem_iff.1 hp) hq]
  rw [List.filter_congr hsame]
  exact hperm.filter _

/-- A choice with its alternatives in another order reaches what it reached. -/
theorem reachable_setChildren {id : NodeId} {children : Array NodeId} (hlt : id < nodes.size)
    (hperm : children.toList.Perm (childrenOf nodes id)) {a : NodeId} (ha : nodes.Reachable root a) :
    (setChildren nodes id children).Reachable root a := by
  refine ha.of_closed (fun a ha c hc => ha.child ?_) .refl
  by_cases he : id = a
  · subst he
    rw [childrenOf_setChildren_self hlt]
    exact hperm.mem_iff.2 hc
  · rwa [childrenOf_setChildren_ne he]

/-- What is kept of a choice does not depend on the order of its alternatives. -/
theorem perm_preferLongestList (h : nodes.Unwinds) (hroot : root < nodes.size) {id : NodeId}
    {children : Array NodeId} (hid : nodes.Reachable root id) (hc : (node nodes id).isChoice = true)
    (hperm : children.toList.Perm (childrenOf nodes id)) :
    (childrenOf (preferLongestList.run g root (setChildren nodes id children)).1 id).Perm
      (childrenOf (preferLongestList.run g root nodes).1 id) := by
  have hlt : id < nodes.size := lt_size_of_isChoice hc
  have hheads : SameHeads nodes (setChildren nodes id children) := sameHeads_setChildren id children
  have hclosed : ∀ a, ∀ c ∈ childrenOf (setChildren nodes id children) a,
      c < (setChildren nodes id children).size := by
    intro a c hc
    rw [hheads.size_eq]
    by_cases he : id = a
    · subst he
      rw [childrenOf_setChildren_self hlt] at hc
      exact h.closed id c (hperm.mem_iff.1 hc)
    · rw [childrenOf_setChildren_ne he] at hc
      exact h.closed a c hc
  rw [childrenOf_preferLongestList hroot h.closed hid hc,
    childrenOf_preferLongestList (hheads.size_eq ▸ hroot) hclosed (reachable_setChildren hlt hperm hid)
      (by rwa [hheads.isChoice_eq]), childrenOf_setChildren_self hlt]
  exact perm_filter_isUnbeaten h hc hperm

/-- Greedy comparison is a strict order, so it never empties a choice. Right-hand sides are never greedier
than themselves, and greedier ones than greedier ones are greedier; of the alternatives of a node there is
one that none beats; the pass leaves a choice in use exactly the alternatives that none beats, in their
order, and every other node as it is; and the order of its alternatives does not matter for what a choice
keeps. -/
theorem preferLongestList_keeps_unbeaten (h : nodes.Unwinds) (hroot : root < nodes.size) :
    (∀ s, greedier g nodes s s = false) ∧
    (∀ r s t, greedier g nodes r s = true → greedier g nodes s t = true → greedier g nodes r t = true) ∧
    (∀ id, childrenOf nodes id ≠ [] →
      ∃ p ∈ childrenOf nodes id, ∀ q ∈ childrenOf nodes id, beats g nodes q p = false) ∧
    (∀ id, nodes.Reachable root id → (node nodes id).isChoice = true →
      childrenOf (preferLongestList.run g root nodes).1 id =
        (childrenOf nodes id).filter fun p => (childrenOf nodes id).all fun q => !beats g nodes q p) ∧
    (∀ id, ¬ (nodes.Reachable root id ∧ (node nodes id).isChoice = true) →
      childrenOf (preferLongestList.run g root nodes).1 id = childrenOf nodes id) ∧
    ∀ id (children : Array NodeId), nodes.Reachable root id → (node nodes id).isChoice = true →
      children.toList.Perm (childrenOf nodes id) →
      (childrenOf (preferLongestList.run g root (setChildren nodes id children)).1 id).Perm
        (childrenOf (preferLongestList.run g root nodes).1 id) :=
  ⟨fun s => Bool.eq_false_iff.2 (greedier_irrefl s), fun _ _ _ => greedier_trans,
    fun _ => exists_unbeaten g nodes,
    fun _ => childrenOf_preferLongestList hroot h.closed,
    fun _ => childrenOf_preferLongestList_of_not hroot h.closed,
    fun _ _ => perm_preferLongestList h hroot⟩

/-! ## An example -/

/-- Pairs of lists, either of which may be empty. -/
def pairs : Grammar where
  rules := #[⟨"pair", .normal, #[⟨[.rule 1, .rule 1], 0, none⟩], true⟩,
    ⟨"items", .list, #[⟨[.terminal 0], 1, none⟩, ⟨[], 0, none⟩], true⟩]
  terminals := #[.ofText "a"]
  start := 0
  first := 0
  eofRule := 0
  eof := 0

/-- The pairs of `a`: in node 6 the first list is empty, in node 7 the second one. -/
def pairsOfOne : Arena := #[
  ⟨.epsilon, none, #[], #[]⟩,
  ⟨.symbol 1, some ⟨0, 1⟩, #[4], #[]⟩, ⟨.symbol 1, none, #[5], #[]⟩,
  ⟨.symbol 0, some ⟨0, 1⟩, #[6, 7], #[]⟩,
  ⟨.packed 1 0, none, #[8], #[]⟩, ⟨.packed 1 1, none, #[0], #[]⟩,
  ⟨.packed 0 0, none, #[2, 9], #[]⟩, ⟨.packed 0 0, none, #[1, 10], #[]⟩,
  ⟨.terminal 0, some ⟨0, 1⟩, #[], #[]⟩,
  ⟨.intermediate 0 0 1, some ⟨0, 1⟩, #[11], #[]⟩, ⟨.nulled 0 0 1, none, #[2], #[]⟩,
  ⟨.packed 0 0, none, #[1], #[]⟩]

theorem pairsOfOne_unwinds : pairsOfOne.Unwinds := by
  have hlt : ∀ {id c}, c ∈ childrenOf pairsOfOne id → id < 12 := fun {id c} hc =>
    Nat.lt_of_not_le fun hle => by
      rw [childrenOf, node_of_size_le hle] at hc
      cases hc
  refine ⟨fun id c hc => ?_, fun id hchoice p hp => ?_, fun id A alt dot hk p hp c hc B alt' dot' hk' => ?_⟩
  · have hall : ∀ id < 12, ∀ c ∈ childrenOf pairsOfOne id, c < pairsOfOne.size := by decide
    exact hall id (hlt hc) c hc
  · have hall : ∀ id < 12, (node pairsOfOne id).isChoice = true → ∀ p ∈ childrenOf pairsOfOne id,
        (node pairsOfOne p).isPacked = true := by decide
    exact hall id (hlt hp) hchoice p hp
  · have hall : ∀ id < 12, (node pairsOfOne id).isChoice = true → (node pairsOfOne id).isSymbol = false →
        ∀ p ∈ childrenOf pairsOfOne id, ∀ c ∈ childrenOf pairsOfOne p,
        (node pairsOfOne c).isSymbol = true := by decide
    have hsymbol := hall id (hlt hp) (by rw [Node.isChoice, hk]) (by rw [Node.isSymbol, hk]) p hp c hc
    rw [Node.isSymbol, hk'] at hsymbol
    cases hsymbol

/-- The pair stays of which the first list is longer, whichever of the two comes first. -/
theorem preferLongestList_keeps_unbeaten_pairs :
    childrenOf (preferLongestList.run pairs 3 pairsOfOne).1 3 = [7] ∧
    (childrenOf (preferLongestList.run pairs 3 (setChildren pairsOfOne 3 #[7, 6])).1 3).Perm
      (childrenOf (preferLongestList.run pairs 3 pairsOfOne).1 3) := by
  have hroot : 3 < pairsOfOne.size := by decide
  obtain ⟨-, -, -, hkept, -, horder⟩ :=
    preferLongestList_keeps_unbeaten (g := pairs) pairsOfOne_unwinds hroot
  refine ⟨(hkept 3 .refl (by decide)).trans (by decide +kernel), horder 3 #[7, 6] .refl (by decide) ?_⟩
  exact .swap 6 7 []

end Pass

end ParseForest
