import ParseForest.Proofs.Forest.Dying
import ParseForest.Proofs.Forest.Readings
import Mathlib.Data.List.Flatten

/-!
# Pruning takes no tree away

A dead packed node stands for nothing (`Pass.readings_of_dead`), so taking it away changes no list of
trees (`Pass.pruneDead_readings`). Conversely an alternative that is left stands for something, provided
that the arena has no cycles (`Pass.readings_ne_nil_of_not_dead`).
-/

namespace ParseForest

namespace Arena

variable {nodes : Arena}

/-- What is below a node stays below it when alternatives are taken away. -/
theorem Ranked.trims {nodes' : Arena} {rank : NodeId → Nat} (hr : nodes.Ranked rank)
    (h : Trims nodes nodes') : nodes'.Ranked rank := by
  refine ⟨fun id c hc => hr.lt id c (h.mem_children hc), fun id => ?_, hr.epsilon⟩
  rw [h.size_eq]
  exact hr.le_size id

/-- Choices and packed nodes go on alternating when alternatives are taken away. -/
theorem Layered.trims {nodes' : Arena} (hl : nodes.Layered) (h : Trims nodes nodes') : nodes'.Layered := by
  refine ⟨fun id c hc => ?_, fun id hc p hp => ?_, fun id p hp hpk => ?_⟩
  · rw [h.size_eq]
    exact hl.closed id c (h.mem_children hc)
  · rw [h.toSameHeads.isChoice_eq] at hc
    rw [h.toSameHeads.isPacked_eq]
    exact hl.isPacked id hc p (h.mem_children hp)
  · rw [h.toSameHeads.isPacked_eq] at hpk
    rw [h.toSameHeads.isChoice_eq]
    exact hl.owner id p (h.mem_children hp) hpk

end Arena

namespace Pass

open Arena

variable {nodes nodes' : Arena} {g : Grammar} {tokens : TokenStream} {root : NodeId}

/-! ## Edits -/

theorem childrenOf_applyEdits_of_not_mem {edits : List (NodeId × Array NodeId)} {id : NodeId}
    (h : ∀ x ∈ edits, x.1 ≠ id) :
    childrenOf (applyEdits nodes edits).1 id = childrenOf nodes id := by
  simp only [applyEdits]
  induction edits generalizing nodes with
  | nil => rfl
  | cons x edits ih =>
    rw [List.foldl_cons, ih fun y hy => h y (.tail _ hy)]
    exact childrenOf_setChildren_ne (h x (.head _))

theorem childrenOf_applyEdits_of_mem {edits : List (NodeId × Array NodeId)}
    (hnodup : (edits.map Prod.fst).Nodup) {x : NodeId × Array NodeId} (hx : x ∈ edits)
    (hlt : x.1 < nodes.size) : childrenOf (applyEdits nodes edits).1 x.1 = x.2.toList := by
  simp only [applyEdits]
  induction edits generalizing nodes with
  | nil => cases hx
  | cons y edits ih =>
    obtain ⟨hnot, hnodup⟩ := List.nodup_cons.1 hnodup
    rw [List.foldl_cons]
    rcases List.mem_cons.1 hx with rfl | hx
    · have hrest := @childrenOf_applyEdits_of_not_mem (setChildren nodes x.1 x.2) edits x.1
        fun y hy he => hnot (he ▸ List.mem_map_of_mem hy)
      simp only [applyEdits] at hrest
      rw [hrest]
      exact childrenOf_setChildren_self hlt
    · exact ih hnodup hx (by rw [size_setChildren]; exact hlt)

theorem nodup_filterMap_liveNodes {f : Node × NodeId → Option (NodeId × Array NodeId)}
    (h : ∀ x y, f x = some y → y.1 = x.2) :
    (((liveNodes nodes root).filterMap f).map Prod.fst).Nodup := by
  have hsub : List.Sublist (((liveNodes nodes root).filterMap f).map Prod.fst)
      ((liveNodes nodes root).map Prod.snd) := by
    generalize liveNodes nodes root = live
    induction live with
    | nil => exact .slnil
    | cons x live ih =>
      rw [List.filterMap_cons]
      cases hf : f x with
      | none => exact ih.cons _
      | some y =>
        rw [List.map_cons, List.map_cons, h x y hf]
        exact ih.cons_cons _
  exact hsub.nodup nodup_liveNodes

/-- Edits that are made of each node that can be reached, for itself. -/
theorem childrenOf_applyEdits_liveNodes {edit : Node × NodeId → Option (NodeId × Array NodeId)}
    (hedit : ∀ x y, edit x = some y → y.1 = x.2) (id : NodeId) :
    childrenOf (applyEdits nodes ((liveNodes nodes root).filterMap edit)).1 id =
      if (live nodes root).getD id false = true ∧ id < nodes.size then
        ((edit (node nodes id, id)).map fun y => y.2.toList).getD (childrenOf nodes id)
      else childrenOf nodes id := by
  have hnone : (∀ x ∈ (liveNodes nodes root).filterMap edit, x.1 ≠ id) →
      childrenOf (applyEdits nodes ((liveNodes nodes root).filterMap edit)).1 id = childrenOf nodes id :=
    childrenOf_applyEdits_of_not_mem
  split
  · rename_i hid
    have hmem := mem_liveNodes_iff.2 ⟨hid.2, rfl, hid.1⟩
    cases he : edit (node nodes id, id) with
    | none =>
      refine hnone fun x hx hxid => ?_
      obtain ⟨⟨n, i⟩, hlive, hx⟩ := List.mem_filterMap.1 hx
      obtain ⟨-, rfl, -⟩ := mem_liveNodes_iff.1 hlive
      obtain rfl : i = id := (hedit _ x hx).symm.trans hxid
      cases he.symm.trans hx
    | some y =>
      obtain rfl := (hedit _ y he).symm
      exact childrenOf_applyEdits_of_mem (nodup_filterMap_liveNodes hedit)
        (List.mem_filterMap.2 ⟨_, hmem, he⟩) hid.2
  · rename_i hid
    refine hnone fun x hx hxid => hid ?_
    obtain ⟨⟨n, i⟩, hlive, hx⟩ := List.mem_filterMap.1 hx
    obtain ⟨hlt, -, hmark⟩ := mem_liveNodes_iff.1 hlive
    obtain rfl : i = id := (hedit _ x hx).symm.trans hxid
    exact ⟨hmark, hlt⟩

/-! ## What is taken away -/

/-- Taking away alternatives that stand for nothing changes no list. -/
theorem readings_of_trims (h : Trims nodes nodes') (hkeep : ∀ id, (node nodes id).isChoice = true →
      ∃ keep : NodeId → Bool, childrenOf nodes' id = (childrenOf nodes id).filter keep ∧
        ∀ p ∈ childrenOf nodes id, keep p = false → ∀ fuel, nodes.readings g tokens fuel p = [])
    (fuel : Nat) (id : NodeId) :
    nodes'.readings g tokens fuel id = nodes.readings g tokens fuel id := by
  induction fuel generalizing id with
  | zero => rfl
  | succ fuel ih =>
    have hfun : nodes'.readings g tokens fuel = nodes.readings g tokens fuel := funext ih
    have hflat : ∀ {β : Type} (f : NodeId → List β) (keep : NodeId → Bool) (ps : List NodeId),
        (∀ p ∈ ps, keep p = false → f p = []) → (ps.filter keep).flatMap f = ps.flatMap f := by
      intro β f keep ps hps
      induction ps with
      | nil => rfl
      | cons p ps ihps =>
        have ihps := ihps fun q hq => hps q (.tail _ hq)
        cases hp : keep p with
        | true => rw [List.filter_cons_of_pos (by simpa using hp), List.flatMap_cons, List.flatMap_cons,
            ihps]
        | false =>
          rw [List.filter_cons_of_neg (by simp [hp]), List.flatMap_cons, hps p (.head _) hp, ihps]
          rfl
    simp only [readings, h.kind_eq, hfun]
    cases hk : (node nodes id).kind with
    | symbol A =>
      obtain ⟨keep, hchildren, hdead⟩ := hkeep id (by rw [Node.isChoice, hk])
      simp only [hchildren]
      refine hflat _ keep _ fun p hp hkp => ?_
      rw [hdead p hp hkp fuel]
      cases (node nodes p).kind <;> rfl
    | intermediate A alt dot =>
      obtain ⟨keep, hchildren, hdead⟩ := hkeep id (by rw [Node.isChoice, hk])
      simp only [hchildren]
      exact hflat _ keep _ fun p hp hkp => hdead p hp hkp fuel
    | packed A alt =>
      simp only [h.children_eq id (by rw [Node.isChoice, hk]; exact Bool.false_ne_true)]
    | nulled A alt dot =>
      simp only [h.children_eq id (by rw [Node.isChoice, hk]; exact Bool.false_ne_true)]
    | terminal i => rfl
    | epsilon => rfl

/-- With fewer parts in each place fewer lists are put together. -/
theorem combine_sublist {xs ys : List (List (List Tree))} (h : List.Forall₂ List.Sublist xs ys) :
    (combine xs).Sublist (combine ys) := by
  induction h with
  | nil => exact .refl _
  | cons hparts _ ih => exact (ih.flatMap _).trans (.flatMap_right _ fun back _ => hparts.map _)
/-- Taking alternatives away leaves a part of every list. -/
theorem readings_sublist (h : Trims nodes nodes') (fuel : Nat) (id : NodeId) :
    (nodes'.readings g tokens fuel id).Sublist (nodes.readings g tokens fuel id) := by
  induction fuel generalizing id with
  | zero => exact .refl _
  | succ fuel ih =>
    have hcombine : (node nodes id).isChoice = false →
        (combine ((childrenOf nodes' id).map (nodes'.readings g tokens fuel))).Sublist
          (combine ((childrenOf nodes id).map (nodes.readings g tokens fuel))) := fun hc => by
      rw [h.children_eq id (by simp [hc])]
      refine combine_sublist (List.forall₂_map_left_iff.2 (List.forall₂_map_right_iff.2 ?_))
      exact List.forall₂_same.2 fun c _ => ih c
    simp only [readings, h.kind_eq]
    cases hk : (node nodes id).kind with
    | symbol A =>
      refine ((h.sublist id).flatMap _).trans (.flatMap_right _ fun p _ => ?_)
      cases (node nodes p).kind with
      | packed B alt => exact (ih p).map _
      | symbol | intermediate | nulled | terminal | epsilon => exact .refl _
    | intermediate A alt dot => exact ((h.sublist id).flatMap _).trans (.flatMap_right _ fun p _ => ih p)
    | packed A alt => exact hcombine (by rw [Node.isChoice, hk])
    | nulled A alt dot => exact hcombine (by rw [Node.isChoice, hk])
    | terminal i => exact .refl _
    | epsilon => exact .refl _
theorem combine_eq_nil {xs : List (List (List Tree))} (h : [] ∈ xs) : combine xs = [] := by
  induction xs with
  | nil => cases h
  | cons x xs ih =>
    rcases List.mem_cons.1 h with rfl | h
    · simp [combine]
    · rw [combine, ih h]
      rfl

theorem combine_ne_nil {xs : List (List (List Tree))} (h : ∀ x ∈ xs, x ≠ []) : combine xs ≠ [] := by
  induction xs with
  | nil => exact List.cons_ne_nil _ _
  | cons x xs ih =>
    obtain ⟨ts, hts⟩ := List.exists_mem_of_ne_nil _ (ih fun y hy => h y (.tail _ hy))
    obtain ⟨us, hus⟩ := List.exists_mem_of_ne_nil _ (h x (.head _))
    exact List.ne_nil_of_mem (mem_combine_cons_iff.2 ⟨us, hus, ts, hts, rfl⟩)

/-- A dead packed node stands for nothing. -/
theorem readings_of_dead {p : NodeId} (h : (deadNodes nodes root).getD p false = true) (fuel : Nat) :
    nodes.readings g tokens fuel p = [] := by
  revert fuel
  rw [deadNodes_eq] at h
  refine leastMarks_induction (P := fun p => ∀ fuel, nodes.readings g tokens fuel p = [])
    (fun dead p hdead hp fuel => ?_) h
  simp only [isDead, Bool.and_eq_true] at hp
  obtain ⟨⟨-, hpacked⟩, hany⟩ := hp
  obtain ⟨c, hc, hdeadc⟩ := Array.any_eq_true'.1 hany
  obtain ⟨hchoice, hall⟩ := Bool.and_eq_true_iff.1 hdeadc
  have hnone : ∀ fuel, nodes.readings g tokens fuel c = [] := by
    intro fuel
    cases fuel with
    | zero => rfl
    | succ fuel =>
      have hps : ∀ q ∈ childrenOf nodes c, nodes.readings g tokens fuel q = [] := fun q hq =>
        hdead q (Array.all_eq_true_iff_forall_mem.1 hall q (Array.mem_toList_iff.1 hq)) fuel
      rcases Node.isChoice_iff.1 hchoice with ⟨A, hk⟩ | ⟨A, alt, dot, hk⟩ <;> simp only [readings, hk]
      · refine List.flatMap_eq_nil_iff.2 fun q hq => ?_
        rw [hps q hq]
        cases (node nodes q).kind <;> rfl
      · exact List.flatMap_eq_nil_iff.2 hps
  cases fuel with
  | zero => rfl
  | succ fuel =>
    rw [readings_packed hpacked]
    refine combine_eq_nil (List.mem_map.2 ⟨c, ?_, hnone fuel⟩)
    exact Array.mem_toList_iff.2 hc

/-- Pruning leaves to a choice that can be reached the alternatives that are not dead. -/
theorem childrenOf_pruneDead (id : NodeId) : childrenOf (pruneDead.run g root nodes).1 id =
    if (node nodes id).isChoice = true ∧ (live nodes root).getD id false = true then
      (childrenOf nodes id).filter fun p => !(deadNodes nodes root).getD p false
    else childrenOf nodes id := by
  change childrenOf (applyEdits nodes (pruneEdits nodes root)).1 id = _
  rw [pruneEdits, childrenOf_applyEdits_liveNodes]
  · dsimp only
    by_cases hc : (node nodes id).isChoice = true
    · have hlt := lt_size_of_isChoice hc
      simp only [hc, hlt, and_true, true_and, Bool.true_and]
      split
      · split
        · rw [Option.map_some, Option.getD_some, Array.toList_filter]
          rfl
        · -- the choice has no dead alternative
          rename_i hany
          refine (List.filter_eq_self.2 fun p hp => ?_).symm
          by_contra hdead
          exact hany (Array.any_eq_true'.2 ⟨p, Array.mem_toList_iff.1 hp, by simpa using hdead⟩)
      · rfl
    · simp [hc]
  · rintro ⟨n, i⟩ y hy
    dsimp only at hy
    split at hy
    · exact (congrArg Prod.fst (Option.some.inj hy)).symm
    · cases hy

/-- Pruning changes no list of trees. -/
theorem pruneDead_readings (fuel : Nat) (id : NodeId) :
    (pruneDead.run g root nodes).1.readings g tokens fuel id = nodes.readings g tokens fuel id := by
  refine readings_of_trims (trims_pruneDead g root nodes) (fun id _ => ?_) fuel id
  rw [childrenOf_pruneDead]
  split
  · exact ⟨_, rfl, fun p _ hp fuel => readings_of_dead (by simpa using hp) fuel⟩
  · exact ⟨fun _ => true, by simp, by simp⟩

/-! ## What is left -/

/-- A choice in an alternative that can be reached and is not dead has an alternative that is not dead. -/
theorem exists_not_dead {p c : NodeId} (hp : (node nodes p).isPacked = true)
    (hlive : (live nodes root).getD p false = true) (hdead : (deadNodes nodes root).getD p false = false)
    (hc : c ∈ childrenOf nodes p) (hchoice : (node nodes c).isChoice = true) :
    ∃ q ∈ childrenOf nodes c, (deadNodes nodes root).getD q false = false := by
  by_contra hnone
  have hall : ∀ q ∈ childrenOf nodes c, (deadNodes nodes root).getD q false = true := by
    intro q hq
    by_contra hq'
    exact hnone ⟨q, hq, by simpa using hq'⟩
  rw [deadNodes_eq] at hall hdead
  have hholds : isDead nodes (live nodes root)
      (leastMarks nodes.size (isDead nodes (live nodes root))) p = true := by
    simp only [isDead, Bool.and_eq_true]
    refine ⟨⟨hlive, hp⟩, Array.any_eq_true'.2 ⟨c, Array.mem_toList_iff.1 hc, ?_⟩⟩
    refine Bool.and_eq_true_iff.2 ⟨hchoice, Array.all_eq_true_iff_forall_mem.2 fun q hq => ?_⟩
    exact hall q (Array.mem_toList_iff.2 hq)
  rw [leastMarks_closed (lt_size_of_isPacked hp) hholds] at hdead
  cases hdead

section

variable {rank : NodeId → Nat} (hl : nodes.Layered) (hrank : nodes.Ranked rank)
  (hleaf : ∀ id i, (node nodes id).kind = .terminal i → (tokens.get? i).isSome)
  (hnulled : ∀ id A alt dot, (node nodes id).kind = .nulled A alt dot →
    ∀ fuel, rank id < fuel → nodes.readings g tokens fuel id ≠ [])
include hl hrank hleaf hnulled

omit hrank hleaf hnulled in
/-- A choice stands for something if one of its alternatives does. -/
theorem readings_choice_ne_nil {id p : NodeId} (hc : (node nodes id).isChoice = true)
    (hp : p ∈ childrenOf nodes id) {fuel : Nat} (h : nodes.readings g tokens fuel p ≠ []) :
    nodes.readings g tokens (fuel + 1) id ≠ [] := by
  obtain ⟨ts, hts⟩ := List.exists_mem_of_ne_nil _ h
  rcases Node.isChoice_iff.1 hc with ⟨A, hk⟩ | ⟨A, alt, dot, hk⟩
  · obtain ⟨B, alt, hpk⟩ := Node.isPacked_iff.1 (hl.isPacked id hc p hp)
    exact List.ne_nil_of_mem ((mem_readings_symbol_iff hl hk).2 ⟨p, hp, B, alt, ts, hpk, hts, rfl⟩)
  · refine List.ne_nil_of_mem (a := ts) ?_
    simp only [readings, hk, List.mem_flatMap]
    exact ⟨p, hp, hts⟩

/-- An alternative that is not dead stands for something. -/
theorem readings_ne_nil_of_not_dead {id p : NodeId} (hc : (node nodes id).isChoice = true)
    (hp : p ∈ childrenOf nodes id) (hlive : (live nodes root).getD p false = true)
    (hdead : (deadNodes nodes root).getD p false = false) {fuel : Nat} (hfuel : rank p < fuel) :
    nodes.readings g tokens fuel p ≠ [] := by
  induction fuel using Nat.strongRecOn generalizing id p with
  | ind fuel ih =>
    have hpacked := hl.isPacked id hc p hp
    obtain ⟨fuel, rfl⟩ : ∃ n, fuel = n + 1 := ⟨fuel - 1, by omega⟩
    rw [readings_packed hpacked]
    refine combine_ne_nil fun x hx => ?_
    obtain ⟨c, hcp, rfl⟩ := List.mem_map.1 hx
    have hrc := hrank.lt p c hcp
    obtain ⟨fuel, rfl⟩ : ∃ n, fuel = n + 1 := ⟨fuel - 1, by omega⟩
    have hlivec := live_child hlive hcp (hl.closed p c hcp)
    by_cases hcc : (node nodes c).isChoice = true
    · obtain ⟨q, hq, hdeadq⟩ := exists_not_dead hpacked hlive hdead hcp hcc
      have hrq := hrank.lt c q hq
      have hliveq := live_child hlivec hq (hl.closed c q hq)
      exact readings_choice_ne_nil hl hcc hq
        (ih fuel (by omega) hcc hq hliveq hdeadq (by omega))
    · have hcpacked := hl.inner id hc p hp c hcp
      cases hk : (node nodes c).kind with
      | symbol A => simp [Node.isChoice, hk] at hcc
      | intermediate A alt dot => simp [Node.isChoice, hk] at hcc
      | packed A alt => simp [Node.isPacked, hk] at hcpacked
      | nulled A alt dot => exact hnulled c A alt dot hk _ (by omega)
      | terminal i =>
        obtain ⟨tok, htok⟩ := Option.isSome_iff_exists.1 (hleaf c i hk)
        simp [readings, hk, htok]
      | epsilon => simp [readings, hk]

/-- A choice that keeps an alternative when it is pruned stands for something. -/
theorem readings_ne_nil_of_pruned {id : NodeId} (hc : (node nodes id).isChoice = true)
    (hlive : (live nodes root).getD id false = true)
    (hne : childrenOf (pruneDead.run g root nodes).1 id ≠ []) {fuel : Nat} (hfuel : rank id < fuel) :
    nodes.readings g tokens fuel id ≠ [] := by
  rw [childrenOf_pruneDead, if_pos ⟨hc, hlive⟩] at hne
  obtain ⟨p, hp⟩ := List.exists_mem_of_ne_nil _ hne
  obtain ⟨hp, hdead⟩ := List.mem_filter.1 hp
  have hlivep := live_child hlive hp (hl.closed id p hp)
  have hrp := hrank.lt id p hp
  obtain ⟨fuel, rfl⟩ : ∃ n, fuel = n + 1 := ⟨fuel - 1, by omega⟩
  exact readings_choice_ne_nil hl hc hp (readings_ne_nil_of_not_dead hl hrank hleaf hnulled hc hp
    hlivep (by simpa using hdead) (by omega))

end

end Pass

end ParseForest
