import Mathlib.Data.List.Nodup
import Mathlib.Data.Finset.Card
import ParseForest.Proofs.Forest.Flattening

/-!
# The cap only cuts off

Children stand for one right-hand side per selection, which says for each intermediate node that is met
on the way down which of its alternatives is taken (`Arena.Selects`). Without a cap these are listed in
one order, the later of two intermediate nodes changing more slowly (`Arena.flattenings`); with a cap the
first ones of that list are looked at (`Arena.expandChildren_eq_take`). It does not matter that the cap is
set to every part of the list as well: where there is something to be continued, each continuation is worth
at least one right-hand side, and so the first ones need none but the first ones
(`take_flatMap_take`).

The fuel is enough where intermediate nodes lead only to those that start further to the right
(`Arena.Deepens`), since a selection then is no deeper than there are nodes (`Arena.Deepens.depth_le`).
-/

namespace ParseForest

/-! ## First entries -/

section

variable {α β : Type} {n : Nat}

/-- To take what there is room for from two lists, one after the other. -/
theorem take_append_take (xs ys : List α) :
    xs.take n ++ ys.take (n - (xs.take n).length) = (xs ++ ys).take n := by
  have hroom : n - (xs.take n).length = n - xs.length := by
    rw [List.length_take]
    omega
  rw [hroom, List.take_append]

/-- The first entries depend on none but the first entries of each part. -/
theorem take_flatMap_congr {f g : α → List β} {xs : List α}
    (h : ∀ x ∈ xs, (f x).take n = (g x).take n) : (xs.flatMap f).take n = (xs.flatMap g).take n := by
  induction xs with
  | nil => rfl
  | cons x xs ih =>
    have hx := h x (.head _)
    have hroom : n - (f x).length = n - (g x).length := by
      have hlen := congrArg List.length hx
      simp only [List.length_take] at hlen
      omega
    have hrest := congrArg (List.take (n - (g x).length)) (ih fun y hy => h y (.tail _ hy))
    simp only [List.take_take, Nat.min_eq_left (Nat.sub_le _ _)] at hrest
    rw [List.flatMap_cons, List.flatMap_cons, List.take_append, List.take_append, hx, hroom, hrest]

/-- If every part has an entry, the first entries are in the first parts. -/
theorem take_flatMap_take {f : α → List β} (hf : ∀ x, f x ≠ []) (xs : List α) :
    ((xs.take n).flatMap f).take n = (xs.flatMap f).take n := by
  induction xs generalizing n with
  | nil => rw [List.take_nil]
  | cons x xs ih =>
    cases n with
    | zero => rfl
    | succ n =>
      have hle : n + 1 - (f x).length ≤ n := by
        have := List.length_pos_iff.2 (hf x)
        omega
      have hrest := congrArg (List.take (n + 1 - (f x).length)) (@ih n)
      simp only [List.take_take, Nat.min_eq_left hle] at hrest
      rw [List.take_succ_cons, List.flatMap_cons, List.flatMap_cons, List.take_append, List.take_append,
        hrest]

end

theorem joinUpTo_eq_take (room : Nat) (fronts backs : List Sequence) :
    joinUpTo room fronts backs = (backs.flatMap fun back => fronts.map (· ++ back)).take room := by
  induction backs generalizing room with
  | nil => rw [joinUpTo, List.flatMap_nil, List.take_nil]
  | cons back backs ih =>
    rw [joinUpTo]
    split
    · rename_i hroom
      rw [hroom, List.take_zero]
    · simp only [ih, List.map_take]
      rw [take_append_take, List.flatMap_cons]

theorem continueUpTo_eq_take (expand : NodeId → List Sequence) (room : Nat) (fronts : List Sequence)
    (ps : List NodeId) : continueUpTo expand room fronts ps =
      (ps.flatMap fun p => (expand p).flatMap fun back => fronts.map (· ++ back)).take room := by
  induction ps generalizing room with
  | nil => rw [continueUpTo, List.flatMap_nil, List.take_nil]
  | cons p ps ih =>
    rw [continueUpTo]
    split
    · rename_i hroom
      rw [hroom, List.take_zero]
    · simp only [ih, joinUpTo_eq_take]
      rw [take_append_take, List.flatMap_cons]

/-- To continue the first fronts by the first backs of each alternative gives the first of all. -/
theorem continueUpTo_take {expand all : NodeId → List Sequence} {cap : Nat} {ps : List NodeId}
    (h : ∀ p ∈ ps, expand p = (all p).take cap) (fronts : List Sequence) :
    continueUpTo expand cap (fronts.take cap) ps =
      ((ps.flatMap all).flatMap fun back => fronts.map (· ++ back)).take cap := by
  rw [continueUpTo_eq_take, List.flatMap_assoc]
  refine take_flatMap_congr fun p hp => ?_
  rw [h p hp]
  calc (((all p).take cap).flatMap fun back => (fronts.take cap).map (· ++ back)).take cap
      = (((all p).take cap).flatMap fun back => fronts.map (· ++ back)).take cap :=
        take_flatMap_congr fun back _ => by rw [List.map_take, List.take_take, Nat.min_self]
    _ = ((all p).flatMap fun back => fronts.map (· ++ back)).take cap := by
        cases fronts with
        | nil => simp only [List.map_nil, List.flatMap_eq_nil_iff.2 fun _ _ => rfl]
        | cons front fronts => exact take_flatMap_take (fun back => List.cons_ne_nil _ _) _

/-! ## Selections -/

/-- Which alternative is taken of each intermediate node that is met below some children. -/
inductive Selection
  /-- No children -/
  | nil
  /-- The first child is no intermediate node -/
  | skip (rest : Selection)
  /-- The first child is an intermediate node, of which alternative `i` is taken -/
  | pick (i : Nat) (inner rest : Selection)
deriving DecidableEq

namespace Selection

/-- The selection for the children after the first. -/
def tail : Selection → Selection
  | nil => nil
  | skip rest => rest
  | pick _ _ rest => rest

/-- How deep intermediate nodes are nested. -/
def depth : Selection → Nat
  | nil => 0
  | skip rest => rest.depth
  | pick _ inner rest => max (inner.depth + 1) rest.depth

end Selection

namespace Arena

section

variable (nodes : Arena)

/-- What a child that is no intermediate node gives to a right-hand side. -/
def own (child : NodeId) : Sequence :=
  match (node nodes child).kind with
  | .nulled _ _ _ => childrenOf nodes child
  | .epsilon => []
  | _ => [child]

/-- The right-hand side for which the children stand under a selection. -/
inductive Selects : List NodeId → Selection → Sequence → Prop
  | nil : Selects [] .nil []
  | skip {c : NodeId} {cs : List NodeId} {x : Selection} {s : Sequence} (hk : ¬ nodes.IsIntermediate c)
      (h : Selects cs x s) : Selects (c :: cs) (.skip x) (own nodes c ++ s)
  | pick {c p : NodeId} {cs : List NodeId} {i : Nat} {x y : Selection} {s t : Sequence}
      (hk : nodes.IsIntermediate c) (hp : (childrenOf nodes c)[i]? = some p)
      (h : Selects (childrenOf nodes p) x s) (hs : Selects cs y t) :
      Selects (c :: cs) (.pick i x y) (s ++ t)

/-- Puts the selections for a child before one for the children after it, `inner` giving those of each
alternative. -/
def select (inner : NodeId → List (Selection × Sequence)) (child : NodeId)
    (rest : Selection × Sequence) : List (Selection × Sequence) :=
  match (node nodes child).kind with
  | .intermediate _ _ _ => (childrenOf nodes child).zipIdx.flatMap fun (packed, i) =>
      (inner packed).map fun (x, s) => (.pick i x rest.1, s ++ rest.2)
  | _ => [(.skip rest.1, own nodes child ++ rest.2)]

/-- All selections for a list of children with their right-hand sides, as deep as the fuel goes. -/
def selections : Nat → List NodeId → List (Selection × Sequence)
  | 0, _ => []
  | fuel + 1, children =>
    children.foldr
      (fun child rests =>
        rests.flatMap (select nodes (fun packed => selections fuel (childrenOf nodes packed)) child))
      [(.nil, [])]

/-- All selections for a list of children with their right-hand sides. -/
def flattenings (children : List NodeId) : List (Selection × Sequence) :=
  selections nodes (nodes.size + 1) children

/-- Intermediate nodes lead only to intermediate nodes that start further to the right. -/
def Deepens : Prop := ∀ id A alt dot, (node nodes id).kind = .intermediate A alt dot →
  ∀ p ∈ childrenOf nodes id, ∀ c ∈ childrenOf nodes p, ∀ B alt' dot',
    (node nodes c).kind = .intermediate B alt' dot' → dot < dot'

end

variable {nodes : Arena}

theorem own_of_single {c : NodeId} (hk : ¬ nodes.IsPart c) (hne : (node nodes c).kind ≠ .epsilon) :
    own nodes c = [c] := by
  rw [own]
  split
  · rename_i A alt dot h
    exact absurd (.inr ⟨A, alt, dot, h⟩) hk
  · rename_i h
    exact absurd h hne
  · rfl

/-- The children stand for the right-hand sides of the selections. -/
theorem flattens_iff_exists_selects {cs : List NodeId} {s : Sequence} :
    nodes.Flattens cs s ↔ ∃ x, nodes.Selects cs x s := by
  constructor
  · intro h
    induction h with
    | nil => exact ⟨_, .nil⟩
    | @epsilon c cs s hk _ ih =>
      obtain ⟨x, hx⟩ := ih
      have := Selects.skip (c := c) (by simp [IsIntermediate, hk]) hx
      rw [own, hk] at this
      exact ⟨_, this⟩
    | @nulled c cs s A alt dot hk _ ih =>
      obtain ⟨x, hx⟩ := ih
      have := Selects.skip (c := c) (by simp [IsIntermediate, hk]) hx
      rw [own, hk] at this
      exact ⟨_, this⟩
    | intermediate hk hp _ _ ih ih' =>
      obtain ⟨x, hx⟩ := ih
      obtain ⟨y, hy⟩ := ih'
      obtain ⟨i, hi⟩ := List.mem_iff_getElem?.1 hp
      exact ⟨_, .pick ⟨_, _, _, hk⟩ hi hx hy⟩
    | single hk hne _ ih =>
      obtain ⟨x, hx⟩ := ih
      have := Selects.skip (fun h => hk (.inl h)) hx
      rw [own_of_single hk hne] at this
      exact ⟨_, this⟩
  · rintro ⟨x, h⟩
    induction h with
    | nil => exact .nil
    | @skip c cs x s hk _ ih =>
      rw [own]
      split
      · rename_i A alt dot h
        exact .nulled h ih
      · rename_i h
        exact .epsilon h ih
      · rename_i hnulled hepsilon
        refine .single ?_ hepsilon ih
        rintro (h | ⟨A, alt, dot, h⟩)
        · exact hk h
        · exact hnulled _ _ _ h
    | pick hk hp _ _ ih ih' =>
      obtain ⟨A, alt, dot, hk⟩ := hk
      exact .intermediate hk (List.mem_of_getElem? hp) ih ih'

/-! ## The list without a cap -/

section

variable {inner : NodeId → List (Selection × Sequence)} {child : NodeId} {rest : Selection × Sequence}

theorem select_of_intermediate (hk : nodes.IsIntermediate child) : select nodes inner child rest =
    (childrenOf nodes child).zipIdx.flatMap fun (packed, i) =>
      (inner packed).map fun (x, s) => (.pick i x rest.1, s ++ rest.2) := by
  obtain ⟨A, alt, dot, hk⟩ := hk
  rw [select, hk]

theorem select_of_not_intermediate (hk : ¬ nodes.IsIntermediate child) :
    select nodes inner child rest = [(.skip rest.1, own nodes child ++ rest.2)] := by
  rw [select]
  split
  · rename_i A alt dot h
    exact absurd ⟨A, alt, dot, h⟩ hk
  · rfl

theorem tail_of_mem_select {e : Selection × Sequence} (h : e ∈ select nodes inner child rest) :
    e.1.tail = rest.1 := by
  by_cases hk : nodes.IsIntermediate child
  · rw [select_of_intermediate hk] at h
    simp only [List.mem_flatMap, List.mem_map] at h
    obtain ⟨_, -, _, -, rfl⟩ := h
    rfl
  · rw [select_of_not_intermediate hk, List.mem_singleton] at h
    rw [h]
    rfl

end

theorem selections_nil (fuel : Nat) : selections nodes (fuel + 1) [] = [(.nil, [])] := rfl

theorem selections_cons (fuel : Nat) (c : NodeId) (cs : List NodeId) :
    selections nodes (fuel + 1) (c :: cs) = (selections nodes (fuel + 1) cs).flatMap
      (select nodes (fun packed => selections nodes fuel (childrenOf nodes packed)) c) := rfl

/-- The list has the selections that the fuel is enough for. -/
theorem mem_selections_iff {fuel : Nat} {cs : List NodeId} {x : Selection} {s : Sequence} :
    (x, s) ∈ selections nodes fuel cs ↔ nodes.Selects cs x s ∧ x.depth < fuel := by
  induction fuel generalizing cs x s with
  | zero => simp [selections]
  | succ fuel ih =>
    induction cs generalizing x s with
    | nil =>
      rw [selections_nil, List.mem_singleton]
      constructor
      · rintro ⟨⟩
        exact ⟨.nil, Nat.succ_pos _⟩
      · rintro ⟨⟨⟩, -⟩
        rfl
    | cons c cs ihcs =>
      rw [selections_cons, List.mem_flatMap]
      by_cases hk : nodes.IsIntermediate c
      · simp only [select_of_intermediate hk, List.mem_flatMap, List.mem_map, Prod.exists, Prod.mk.injEq]
        constructor
        · rintro ⟨y, t, hrest, p, i, hp, x, s, hx, rfl, rfl⟩
          rw [List.mem_zipIdx_iff_getElem?] at hp
          obtain ⟨hrest, hdepth⟩ := ihcs.1 hrest
          obtain ⟨hx, hinner⟩ := ih.1 hx
          exact ⟨.pick hk hp hx hrest, max_lt (Nat.succ_lt_succ hinner) hdepth⟩
        · rintro ⟨h, hdepth⟩
          cases h with
          | skip hnot => exact absurd hk hnot
          | @pick _ p _ i x y s t _ hp hx hrest =>
            obtain ⟨hinner, hdepth⟩ := max_lt_iff.1 hdepth
            exact ⟨y, t, ihcs.2 ⟨hrest, hdepth⟩, p, i, List.mem_zipIdx_iff_getElem?.2 hp, x, s,
              ih.2 ⟨hx, Nat.lt_of_succ_lt_succ hinner⟩, rfl, rfl⟩
      · simp only [select_of_not_intermediate hk, List.mem_singleton, Prod.exists, Prod.mk.injEq]
        constructor
        · rintro ⟨y, t, hrest, rfl, rfl⟩
          obtain ⟨hrest, hdepth⟩ := ihcs.1 hrest
          exact ⟨.skip hk hrest, hdepth⟩
        · rintro ⟨h, hdepth⟩
          cases h with
          | skip _ hrest => exact ⟨_, _, ihcs.2 ⟨hrest, hdepth⟩, rfl, rfl⟩
          | pick hin => exact absurd hin hk

/-- A child has different selections before those for the children after it. -/
theorem nodup_fst_select {inner : NodeId → List (Selection × Sequence)}
    (hinner : ∀ p, ((inner p).map Prod.fst).Nodup) (c : NodeId) (rest : Selection × Sequence) :
    ((select nodes inner c rest).map Prod.fst).Nodup := by
  by_cases hk : nodes.IsIntermediate c
  · rw [select_of_intermediate hk, List.map_flatMap, List.nodup_flatMap]
    constructor
    · rintro ⟨p, i⟩ -
      have := (hinner p).map (f := fun x => Selection.pick i x rest.1) fun x y h => by cases h; rfl
      simpa only [List.map_map, Function.comp_def] using this
    · have hindices : ((childrenOf nodes c).zipIdx.map Prod.snd).Nodup := by
        rw [List.zipIdx_map_snd]
        exact List.nodup_range'
      refine (List.pairwise_map.1 hindices).imp fun {a b} hne z hz hz' => hne ?_
      simp only [List.mem_map] at hz hz'
      obtain ⟨_, ⟨_, -, rfl⟩, rfl⟩ := hz
      obtain ⟨_, ⟨_, -, rfl⟩, h⟩ := hz'
      exact (Selection.pick.inj h).1.symm
  · rw [select_of_not_intermediate hk]
    exact List.nodup_singleton _

/-- No selection is listed twice. -/
theorem nodup_fst_selections (fuel : Nat) (cs : List NodeId) :
    ((selections nodes fuel cs).map Prod.fst).Nodup := by
  induction fuel generalizing cs with
  | zero => exact List.nodup_nil
  | succ fuel ih =>
    induction cs with
    | nil => exact List.nodup_singleton _
    | cons c cs ihcs =>
      rw [selections_cons, List.map_flatMap, List.nodup_flatMap]
      refine ⟨fun rest _ => nodup_fst_select (fun p => ih _) c rest, ?_⟩
      refine (List.pairwise_map.1 ihcs).imp fun {a b} hne z hz hz' => hne ?_
      obtain ⟨e, he, rfl⟩ := List.mem_map.1 hz
      obtain ⟨e', he', h⟩ := List.mem_map.1 hz'
      rw [← tail_of_mem_select he, ← tail_of_mem_select he', h]

/-! ## With a cap -/

/-- The right-hand sides that a child stands for, `all` giving those of each alternative. -/
def ownSequences (nodes : Arena) (all : NodeId → List Sequence) (child : NodeId) : List Sequence :=
  match (node nodes child).kind with
  | .intermediate _ _ _ => (childrenOf nodes child).flatMap all
  | _ => [own nodes child]

/-- To continue the first fronts by a child gives the first of all. -/
theorem extend_take {expand all : NodeId → List Sequence} {cap : Nat}
    (h : ∀ p, expand p = (all p).take cap) (fronts : List Sequence) (c : NodeId) :
    extend nodes expand cap (fronts.take cap) c =
      ((ownSequences nodes all c).flatMap fun back => fronts.map (· ++ back)).take cap := by
  rw [extend, ownSequences, own]
  cases (node nodes c).kind with
  | intermediate A alt dot => exact continueUpTo_take (fun p _ => h p) fronts
  | nulled A alt dot => simp only [List.flatMap_singleton, List.map_take]
  | epsilon => simp only [List.flatMap_singleton, List.append_nil, List.map_id']
  | symbol A => simp only [List.flatMap_singleton, List.map_take]
  | packed A alt => simp only [List.flatMap_singleton, List.map_take]
  | terminal i => simp only [List.flatMap_singleton, List.map_take]

theorem map_snd_select {inner : NodeId → List (Selection × Sequence)} (c : NodeId)
    (rest : Selection × Sequence) : (select nodes inner c rest).map Prod.snd =
      (ownSequences nodes (fun p => (inner p).map Prod.snd) c).map (· ++ rest.2) := by
  by_cases hk : nodes.IsIntermediate c
  · rw [select_of_intermediate hk]
    obtain ⟨A, alt, dot, hk⟩ := hk
    rw [ownSequences, hk]
    simp only [List.map_flatMap, List.map_map]
    conv_rhs => rw [← List.zipIdx_map_fst 0 (childrenOf nodes c), List.flatMap_map]
    rfl
  · rw [select_of_not_intermediate hk, ownSequences]
    split
    · rename_i A alt dot h
      exact absurd ⟨A, alt, dot, h⟩ hk
    · rfl

theorem map_snd_selections_cons (fuel : Nat) (c : NodeId) (cs : List NodeId) :
    (selections nodes (fuel + 1) (c :: cs)).map Prod.snd =
      ((selections nodes (fuel + 1) cs).map Prod.snd).flatMap fun rest =>
        (ownSequences nodes (fun p => (selections nodes fuel (childrenOf nodes p)).map Prod.snd) c).map
          (· ++ rest) := by
  rw [selections_cons, List.map_flatMap, List.flatMap_map]
  simp only [map_snd_select]

/-- To continue the first fronts by some children gives the first of all. -/
theorem foldl_extend_take {expand : NodeId → List Sequence} {cap fuel : Nat}
    (h : ∀ p, expand p = ((selections nodes fuel (childrenOf nodes p)).map Prod.snd).take cap)
    (cs : List NodeId) (fronts : List Sequence) :
    cs.foldl (extend nodes expand cap) (fronts.take cap) =
      (((selections nodes (fuel + 1) cs).map Prod.snd).flatMap fun back =>
        fronts.map (· ++ back)).take cap := by
  induction cs generalizing fronts with
  | nil => simp [selections_nil]
  | cons c cs ih =>
    rw [List.foldl_cons, extend_take h, ih, map_snd_selections_cons, List.flatMap_assoc]
    simp only [List.map_flatMap, List.flatMap_map, List.map_map, Function.comp_def, List.append_assoc]

/-- With a cap, the first right-hand sides of the list without a cap are looked at. -/
theorem expandChildren_eq_take {cap : Nat} (hcap : cap ≠ 0) (fuel : Nat) (cs : List NodeId) :
    expandChildren nodes cap fuel cs = ((selections nodes fuel cs).map Prod.snd).take cap := by
  induction fuel generalizing cs with
  | zero => rw [expandChildren, selections, List.map_nil, List.take_nil]
  | succ fuel ih =>
    have hstart : [[]] = ([[]] : List Sequence).take cap :=
      (List.take_of_length_le (Nat.one_le_iff_ne_zero.2 hcap)).symm
    rw [expandChildren, hstart, foldl_extend_take (fun p => ih _)]
    simp only [List.map_cons, List.map_nil, List.nil_append, List.flatMap_singleton']

theorem sequencesOf_eq_take {cap : Nat} (hcap : cap ≠ 0) (cs : List NodeId) :
    sequencesOf nodes cap cs = ((flattenings nodes cs).map Prod.snd).take cap :=
  expandChildren_eq_take hcap _ cs

/-! ## How deep selections are -/

open Classical in
/-- The intermediate nodes that start at `dot` or further to the right. -/
noncomputable def ahead (nodes : Arena) (dot : Nat) : Finset NodeId :=
  (Finset.range nodes.size).filter fun id =>
    ∃ A alt dot', (node nodes id).kind = .intermediate A alt dot' ∧ dot ≤ dot'

open Classical in
theorem mem_ahead {dot : Nat} {id : NodeId} : id ∈ nodes.ahead dot ↔
    ∃ A alt dot', (node nodes id).kind = .intermediate A alt dot' ∧ dot ≤ dot' := by
  rw [ahead, Finset.mem_filter, Finset.mem_range, and_iff_right_iff_imp]
  rintro ⟨A, alt, dot', hk, -⟩
  exact lt_size_of_kind (by simp [hk])

open Classical in
theorem card_ahead_le (nodes : Arena) (dot : Nat) : (nodes.ahead dot).card ≤ nodes.size :=
  (Finset.card_filter_le _ _).trans (Finset.card_range _).le

/-- An intermediate node is not among those that start further to the right. -/
theorem card_ahead_succ_lt {A : RuleId} {alt dot : Nat} {c : NodeId}
    (hk : (node nodes c).kind = .intermediate A alt dot) :
    (nodes.ahead (dot + 1)).card < (nodes.ahead dot).card := by
  refine Finset.card_lt_card ((Finset.ssubset_iff_of_subset fun id hid => ?_).2 ⟨c, ?_, fun hc => ?_⟩)
  · obtain ⟨B, alt', dot', hk', hle⟩ := mem_ahead.1 hid
    exact mem_ahead.2 ⟨B, alt', dot', hk', Nat.le_of_succ_le hle⟩
  · exact mem_ahead.2 ⟨A, alt, dot, hk, Nat.le_refl _⟩
  · obtain ⟨B, alt', dot', hk', hle⟩ := mem_ahead.1 hc
    obtain ⟨-, -, rfl⟩ := NodeKind.intermediate.inj (hk.symm.trans hk')
    exact Nat.not_succ_le_self _ hle

theorem ahead_mono {dot dot' : Nat} (h : dot ≤ dot') : nodes.ahead dot' ⊆ nodes.ahead dot := by
  intro id hid
  obtain ⟨A, alt, e, hk, hle⟩ := mem_ahead.1 hid
  exact mem_ahead.2 ⟨A, alt, e, hk, h.trans hle⟩

/-- A selection is no deeper than there are intermediate nodes from where its first ones start. -/
theorem Deepens.depth_le_card (h : nodes.Deepens) {cs : List NodeId} {x : Selection} {s : Sequence}
    (hx : nodes.Selects cs x s) {dot : Nat} (hcs : ∀ c ∈ cs, ∀ A alt dot',
      (node nodes c).kind = .intermediate A alt dot' → dot ≤ dot') :
    x.depth ≤ (nodes.ahead dot).card := by
  induction hx generalizing dot with
  | nil => exact Nat.zero_le _
  | skip _ _ ih => exact ih fun c hc => hcs c (.tail _ hc)
  | @pick c p cs i x y s t hk hp _ _ ihinner ihrest =>
    obtain ⟨A, alt, dot', hk⟩ := hk
    refine max_le ?_ (ihrest fun c hc => hcs c (.tail _ hc))
    have hinner : x.depth ≤ (nodes.ahead (dot' + 1)).card :=
      ihinner fun d hd B alt' e hk' => h c A alt dot' hk p (List.mem_of_getElem? hp) d hd B alt' e hk'
    calc x.depth + 1 ≤ (nodes.ahead (dot' + 1)).card + 1 := Nat.succ_le_succ hinner
      _ ≤ (nodes.ahead dot').card := card_ahead_succ_lt hk
      _ ≤ (nodes.ahead dot).card := Finset.card_le_card (ahead_mono (hcs c (.head _) A alt dot' hk))

/-- A selection is no deeper than there are nodes. -/
theorem Deepens.depth_le (h : nodes.Deepens) {cs : List NodeId} {x : Selection} {s : Sequence}
    (hx : nodes.Selects cs x s) : x.depth ≤ nodes.size :=
  (h.depth_le_card hx fun _ _ _ _ dot' _ => Nat.zero_le dot').trans (card_ahead_le nodes 0)

theorem Deepens.mem_flattenings_iff (h : nodes.Deepens) {cs : List NodeId} {x : Selection}
    {s : Sequence} : (x, s) ∈ flattenings nodes cs ↔ nodes.Selects cs x s :=
  mem_selections_iff.trans (and_iff_left_of_imp fun hx => Nat.lt_succ_of_le (h.depth_le hx))

/-! ## The cap only truncates -/

/-- The cap only truncates. For every arena in which intermediate nodes lead only to intermediate nodes that
start further to the right, and every list of children: the list without a cap has each selection of one
alternative per intermediate node once, with the right-hand side it stands for. With a cap, the first ones of
these right-hand sides are looked at, as many as the cap allows. So there are never more than the cap, there
are none only if the children stand for no right-hand side at all, and the first one is the same for every
cap. -/
theorem sequencesOf_truncates (h : nodes.Deepens) (cs : List NodeId) :
    ((flattenings nodes cs).map Prod.fst).Nodup ∧
      (∀ x s, (x, s) ∈ flattenings nodes cs ↔ nodes.Selects cs x s) ∧
      ∀ cap, 1 ≤ cap →
        sequencesOf nodes cap cs = ((flattenings nodes cs).map Prod.snd).take cap ∧
        (sequencesOf nodes cap cs).length ≤ cap ∧
        (sequencesOf nodes cap cs = [] ↔ ∀ s, ¬ nodes.Flattens cs s) ∧
        ∀ cap', 1 ≤ cap' → (sequencesOf nodes cap' cs).head? = (sequencesOf nodes cap cs).head? := by
  refine ⟨nodup_fst_selections _ cs, fun x s => h.mem_flattenings_iff, fun cap hcap => ?_⟩
  have hne : cap ≠ 0 := Nat.one_le_iff_ne_zero.1 hcap
  have heq : sequencesOf nodes cap cs = ((flattenings nodes cs).map Prod.snd).take cap :=
    sequencesOf_eq_take hne cs
  refine ⟨heq, length_sequencesOf_le hne cs, ?_, fun cap' hcap' => ?_⟩
  · have hempty : sequencesOf nodes cap cs = [] ↔ flattenings nodes cs = [] := by
      simp [heq, List.take_eq_nil_iff, hne]
    rw [hempty, List.eq_nil_iff_forall_not_mem]
    constructor
    · intro hnone s hs
      obtain ⟨x, hx⟩ := flattens_iff_exists_selects.1 hs
      exact hnone (x, s) (h.mem_flattenings_iff.2 hx)
    · intro hnone e he
      exact hnone e.2 (flattens_iff_exists_selects.2 ⟨e.1, h.mem_flattenings_iff.1 he⟩)
  · rw [heq, sequencesOf_eq_take (Nat.one_le_iff_ne_zero.1 hcap') cs, List.head?_take, List.head?_take,
      if_neg hne, if_neg (Nat.one_le_iff_ne_zero.1 hcap')]

/-- Three ways of cutting four tokens for four symbols, the last of which may be empty: node 8 stands for the
symbols after the first one, nodes 9 and 12 for the last two. -/
def cuts : Arena := #[
  ⟨.epsilon, none, #[], #[]⟩,
  ⟨.terminal 0, some ⟨0, 1⟩, #[], #[]⟩, ⟨.symbol 1, some ⟨1, 2⟩, #[], #[]⟩,
  ⟨.symbol 1, some ⟨1, 3⟩, #[], #[]⟩, ⟨.symbol 2, some ⟨2, 3⟩, #[], #[]⟩,
  ⟨.symbol 3, some ⟨3, 4⟩, #[], #[]⟩,
  ⟨.packed 0 0, none, #[2, 9], #[]⟩, ⟨.packed 0 0, none, #[3, 12], #[]⟩,
  ⟨.intermediate 0 0 1, some ⟨1, 4⟩, #[6, 7], #[]⟩, ⟨.intermediate 0 0 2, some ⟨2, 4⟩, #[10, 11], #[]⟩,
  ⟨.packed 0 0, none, #[4, 5], #[]⟩, ⟨.packed 0 0, none, #[14, 15], #[]⟩,
  ⟨.intermediate 0 0 2, some ⟨3, 4⟩, #[13], #[]⟩, ⟨.packed 0 0, none, #[17, 15], #[]⟩,
  ⟨.symbol 2, some ⟨2, 4⟩, #[], #[]⟩, ⟨.nulled 0 0 3, none, #[16], #[]⟩,
  ⟨.symbol 3, none, #[], #[]⟩, ⟨.symbol 2, some ⟨3, 4⟩, #[], #[]⟩]

/-- Where an intermediate node starts in its alternative. -/
def dot? (nodes : Arena) (id : NodeId) : Option Nat :=
  match (node nodes id).kind with
  | .intermediate _ _ dot => some dot
  | _ => none

theorem cuts_deepens : cuts.Deepens := by
  intro id A alt dot hk p hp c hc B alt' dot' hk'
  have hall : ∀ id < 18, ∀ p ∈ childrenOf cuts id, ∀ c ∈ childrenOf cuts p,
      ∀ dot ∈ cuts.dot? id, ∀ dot' ∈ cuts.dot? c, dot < dot' := by decide
  have hid : id < cuts.size := lt_size_of_kind (by simp [hk])
  exact hall id hid p hp c hc dot (by rw [dot?, hk]; rfl) dot' (by rw [dot?, hk']; rfl)

/-- A cap of two leaves out the third way, and the first one is the same as for any greater cap. -/
theorem sequencesOf_truncates_cuts :
    cuts.Deepens ∧ 1 ≤ 2 ∧ 1 ≤ 64 ∧
    (flattenings cuts [1, 8]).map Prod.snd = [[1, 2, 4, 5], [1, 2, 14, 16], [1, 3, 17, 16]] ∧
    sequencesOf cuts 2 [1, 8] = [[1, 2, 4, 5], [1, 2, 14, 16]] ∧
    (sequencesOf cuts 64 [1, 8]).head? = (sequencesOf cuts 2 [1, 8]).head? := by
  obtain ⟨-, -, hcap⟩ := sequencesOf_truncates cuts_deepens [1, 8]
  obtain ⟨htake, -, -, hhead⟩ := hcap 2 (by decide)
  have hall : (flattenings cuts [1, 8]).map Prod.snd =
      [[1, 2, 4, 5], [1, 2, 14, 16], [1, 3, 17, 16]] := by decide +kernel
  exact ⟨cuts_deepens, by decide, by decide, hall, htake.trans (by rw [hall]; rfl), hhead 64 (by decide)⟩

end Arena

end ParseForest
