import ParseForest.Automaton.Propagation
import ParseForest.Proofs.Basic
import Mathlib.Logic.Relation

/-!
# The traversal

The invariant of the traversal in depth by which lookahead sets are propagated. What is said of nodes
that are on the stack or done is in `Sound`; how the stack is divided among the calls is in `Nested`:
above the node of a call are the nodes that were left without being done, each of which leads to a
lower node, no lower than the node of the call does. Entering a node and absorbing a neighbour keep
both; for leaving a node see `ParseForest.Proofs.Automaton.Components`.
-/

namespace ParseForest

/-- There is a way from one node to another along the relation. -/
def Leads (relation : Array (List Nat)) : Nat → Nat → Prop :=
  Relation.ReflTransGen fun x y => y ∈ relation.getD x []

/-- The set of the node has the digit. -/
def Has (sets : Array LookaheadSet) (x i : Nat) : Prop :=
  (sets.getD x default).digits.testBit i = true

/-- Sets of one kind: with one that is, or with nothing, a set of this kind makes another one, which
has the digits of both. -/
def Uniting (P : LookaheadSet → Prop) : Prop :=
  ∀ s t, P s → (P t ∨ t = default) → P (s.union t) ∧
    ∀ i, (s.union t).digits.testBit i = true ↔
      s.digits.testBit i = true ∨ t.digits.testBit i = true

/-! ## Heights -/

/-- The height of a node in a stack. -/
def heightIn : List Nat → Nat → Nat
  | [], _ => 0
  | a :: stack, v => if a = v then stack.length + 1 else heightIn stack v

section Height

variable {above stack : List Nat} {v : Nat}

theorem heightIn_le (stack : List Nat) (v : Nat) : heightIn stack v ≤ stack.length := by
  induction stack with
  | nil => exact Nat.le_refl 0
  | cons a stack ih =>
    rw [heightIn]
    split
    · exact Nat.le_refl _
    · exact Nat.le_trans ih (Nat.le_succ _)

theorem heightIn_append (h : v ∉ above) : heightIn (above ++ stack) v = heightIn stack v := by
  induction above with
  | nil => rfl
  | cons a above ih =>
    obtain ⟨hne, hnot⟩ := List.ne_and_not_mem_of_not_mem_cons h
    rw [List.cons_append, heightIn, if_neg (Ne.symm hne), ih hnot]

theorem lt_heightIn_append (h : v ∈ above) : stack.length < heightIn (above ++ stack) v := by
  induction above with
  | nil => cases h
  | cons a above ih =>
    rw [List.cons_append, heightIn]
    split
    · rw [List.length_append]
      omega
    · rename_i hne
      exact ih ((List.mem_cons.1 h).resolve_left fun he => hne he.symm)

theorem heightIn_pos (h : v ∈ stack) : 0 < heightIn stack v := by
  have hlt : ([] : List Nat).length < heightIn (stack ++ []) v := lt_heightIn_append h
  rwa [List.append_nil] at hlt

theorem heightIn_cons_self (v : Nat) (stack : List Nat) :
    heightIn (v :: stack) v = stack.length + 1 := by
  rw [heightIn, if_pos rfl]

/-- What is as high as the first node of the lower part is in the upper part or this node. -/
theorem mem_of_length_lt_heightIn {x : Nat}
    (hlt : stack.length < heightIn (above ++ x :: stack) v) : v ∈ above ∨ v = x := by
  by_contra hnot
  rw [not_or] at hnot
  rw [heightIn_append hnot.1, heightIn, if_neg (Ne.symm hnot.2)] at hlt
  exact Nat.not_lt.2 (heightIn_le stack v) hlt

end Height

namespace Traversal

/-- Where an active node leads. -/
def low (t : Traversal) (v : Nat) : Nat :=
  match t.state v with
  | .active l => l
  | _ => 0

theorem low_of_active {t : Traversal} {v l : Nat} (h : t.state v = .active l) : t.low v = l := by
  rw [low, h]

theorem low_congr {t t' : Traversal} {v : Nat} (h : t'.state v = t.state v) :
    t'.low v = t.low v := by
  rw [low, low, h]

/-! ## What the operations do -/

theorem state_enter {relation : Array (List Nat)} {t : Traversal} {x : Nat} (h : t.state x = .fresh)
    (v : Nat) :
    (t.enter relation x).state v = if v = x then .active (t.stack.length + 1) else t.state v := by
  have hx : x < t.progress.size := by
    by_contra hx
    simp [state, Array.getD, hx] at h
  simp only [state, enter, Array.getD_setIfInBounds, hx, and_true]

theorem state_absorb (t : Traversal) (x y v : Nat) :
    (t.absorb x y).state v = if v = x then (t.state x).lower (t.state y) else t.state v := by
  have hset : (t.absorb x y).state v =
      if v = x ∧ x < t.progress.size then (t.state x).lower (t.state y) else t.state v :=
    Array.getD_setIfInBounds
  rw [hset]
  by_cases hx : x < t.progress.size
  · simp only [hx, and_true]
  · have hdone : t.state x = .done := Array.getD_of_size_le (Nat.not_lt.1 hx)
    rw [if_neg fun h => hx h.2]
    by_cases hv : v = x
    · rw [if_pos hv, hv, hdone]
      rfl
    · rw [if_neg hv]

theorem state_absorb_of_ne (t : Traversal) {x v : Nat} (y : Nat) (hv : v ≠ x) :
    (t.absorb x y).state v = t.state v := by
  rw [state_absorb, if_neg hv]

theorem size_sets_absorb (t : Traversal) (x y : Nat) : (t.absorb x y).sets.size = t.sets.size := by
  simp only [absorb]
  split
  · rfl
  · exact Array.size_setIfInBounds

theorem sets_absorb_of_ne (t : Traversal) {x v : Nat} (y : Nat) (hv : v ≠ x) :
    (t.absorb x y).sets.getD v default = t.sets.getD v default := by
  simp only [absorb]
  by_cases he : x = y
  · rw [if_pos he]
  · rw [if_neg he, Array.getD_setIfInBounds, if_neg fun h => hv h.1]

theorem sets_absorb_same (t : Traversal) (x : Nat) : (t.absorb x x).sets = t.sets := if_pos rfl

theorem sets_absorb_self {t : Traversal} {x y : Nat} (hx : x < t.sets.size) (hxy : x ≠ y) :
    (t.absorb x y).sets.getD x default =
      (t.sets.getD x default).union (t.sets.getD y default) := by
  have hsets : (t.absorb x y).sets = t.sets.setIfInBounds x
      ((t.sets.getD x default).union (t.sets.getD y default)) := if_neg hxy
  rw [hsets, Array.getD_setIfInBounds, if_pos ⟨rfl, hx⟩]

section Absorb

variable {P : LookaheadSet → Prop} (hP : Uniting P) {t : Traversal} {x y : Nat}
  (h : ∀ v < t.sets.size, P (t.sets.getD v default))
include hP h

theorem union_of_kind (hx : x < t.sets.size) :
    P ((t.sets.getD x default).union (t.sets.getD y default)) ∧
      ∀ i, ((t.sets.getD x default).union (t.sets.getD y default)).digits.testBit i = true ↔
        Has t.sets x i ∨ Has t.sets y i := by
  refine hP _ _ (h x hx) ?_
  by_cases hlt : y < t.sets.size
  · exact .inl (h y hlt)
  · exact .inr (Array.getD_of_size_le (Nat.not_lt.1 hlt))

theorem kind_absorb : ∀ v < (t.absorb x y).sets.size, P ((t.absorb x y).sets.getD v default) := by
  intro v hv
  rw [size_sets_absorb] at hv
  by_cases hvx : v = x
  · subst hvx
    by_cases hvy : v = y
    · subst hvy
      rw [sets_absorb_same]
      exact h v hv
    · rw [sets_absorb_self hv hvy]
      exact (union_of_kind hP h hv).1
  · rw [sets_absorb_of_ne t y hvx]
    exact h v hv

theorem has_absorb (hx : x < t.sets.size) (v i : Nat) :
    Has (t.absorb x y).sets v i ↔ Has t.sets v i ∨ (v = x ∧ Has t.sets y i) := by
  by_cases hvx : v = x
  · subst hvx
    by_cases hvy : v = y
    · subst hvy
      simp [sets_absorb_same]
    · rw [Has, sets_absorb_self hx hvy, (union_of_kind hP h hx).2]
      simp
  · rw [Has, sets_absorb_of_ne t y hvx]
    simp [hvx, Has]

end Absorb

/-- The nodes above `x` and `x` itself have been taken from the stack; they are done, and those above
have the set of `x`. -/
structure Popped (t t' : Traversal) (above : List Nat) (x : Nat) (below : List Nat) : Prop where
  stack : t'.stack = below
  size_progress : t'.progress.size = t.progress.size
  size_sets : t'.sets.size = t.sets.size
  state : ∀ v, t'.state v = if v ∈ above ∨ v = x then .done else t.state v
  sets : ∀ v, t'.sets.getD v default =
    if v ∈ above then t.sets.getD x default else t.sets.getD v default

theorem popped_popTo {x : Nat} {below : List Nat} (above : List Nat) (hx : x ∉ above)
    (t : Traversal) (hsize : ∀ v ∈ above, v < t.sets.size) :
    Popped t (popTo x (above ++ x :: below) t) above x below := by
  have hstate : ∀ (t : Traversal) (top v : Nat) (stack : List Nat) (sets : Array LookaheadSet),
      (⟨sets, t.progress.setIfInBounds top .done, stack, t.calls⟩ : Traversal).state v =
        if v = top then .done else t.state v := by
    intro t top v stack sets
    simp only [state, Array.getD_setIfInBounds]
    by_cases htop : top < t.progress.size
    · simp [htop]
    · by_cases hv : v = top
      · subst hv
        simp [Array.getD, htop]
      · simp [hv]
  induction above generalizing t with
  | nil =>
    rw [List.nil_append, popTo, if_pos rfl]
    refine ⟨rfl, by simp, rfl, fun v => ?_, fun v => by simp⟩
    rw [hstate]
    simp
  | cons top above ih =>
    obtain ⟨hne, hnot⟩ := List.ne_and_not_mem_of_not_mem_cons hx
    obtain ⟨htop, habove⟩ := List.forall_mem_cons.1 hsize
    rw [List.cons_append, popTo, if_neg (Ne.symm hne)]
    obtain ⟨hstack, hp, hs, hst, hsets⟩ := ih hnot ⟨t.sets.setIfInBounds top (t.sets.getD x default),
      t.progress.setIfInBounds top .done, above ++ x :: below, t.calls⟩ (by simpa using habove)
    refine ⟨hstack, by simpa using hp, by simpa using hs, fun v => ?_, fun v => ?_⟩
    · rw [hst v, hstate]
      by_cases hv : v ∈ above ∨ v = x
      · rw [if_pos hv, if_pos (hv.imp_left (.tail _))]
      · by_cases hvt : v = top
        · subst hvt
          simp [hv]
        · rw [if_neg hv, if_neg hvt, if_neg]
          rintro (h | h)
          · exact (List.mem_cons.1 h).elim hvt fun h => hv (.inl h)
          · exact hv (.inr h)
    · rw [hsets v]
      simp only [Array.getD_setIfInBounds, htop, and_true, if_neg hne]
      by_cases hv : v ∈ above
      · simp [hv]
      · by_cases hvt : v = top
        · simp [hvt]
        · simp [hv, hvt]

/-! ## Invariants -/

/-- What holds of the stack between steps. -/
structure Stacked (relation : Array (List Nat)) (t : Traversal) : Prop where
  size_progress : t.progress.size = relation.size
  nodup : t.stack.Nodup
  mem_stack_iff : ∀ v, v ∈ t.stack ↔ ∃ l, t.state v = .active l
  low_le : ∀ v ∈ t.stack, t.low v ≤ heightIn t.stack v
  /-- An active node leads where it is noted to lead -/
  leads_low : ∀ v ∈ t.stack, ∃ u ∈ t.stack, heightIn t.stack u = t.low v ∧ Leads relation v u

/-- What holds of the sets between steps: no set has too much, and those of done nodes have all that
they are to have. -/
structure Filled (relation : Array (List Nat)) (init : Array LookaheadSet)
    (P : LookaheadSet → Prop) (t : Traversal) : Prop where
  size_sets : t.sets.size = relation.size
  kind : ∀ v < t.sets.size, P (t.sets.getD v default)
  has_init : ∀ v i, Has init v i → Has t.sets v i
  init_of_has : ∀ v i, Has t.sets v i → ∃ w, Leads relation v w ∧ Has init w i
  done_next : ∀ v, t.state v = .done → ∀ w ∈ relation.getD v [], t.state w = .done
  has_of_leads : ∀ v, t.state v = .done → ∀ w, Leads relation v w → ∀ i, Has init w i →
    Has t.sets v i
  eq_of_leads : ∀ v w, t.state v = .done → t.state w = .done → Leads relation v w →
    Leads relation w v → t.sets.getD v default = t.sets.getD w default

/-- What holds of stack and sets between steps. -/
structure Sound (relation : Array (List Nat)) (init : Array LookaheadSet)
    (P : LookaheadSet → Prop) (t : Traversal) : Prop extends
    Stacked relation t, Filled relation init P t

/-- The neighbour has been looked at: it is done, and the node has what it has, or it is in this part
of the stack, and the node leads as low. -/
def Examined (t : Traversal) (stack : List Nat) (x y : Nat) : Prop :=
  (t.state y = .done ∧ ∀ i, Has t.sets y i → Has t.sets x i) ∨
    (y ∈ stack ∧ t.low x ≤ heightIn stack y)

/-- The node `v` has been left but is not done: it leads below itself, and `x` has what it has and
leads as low. -/
structure Settled (relation : Array (List Nat)) (t : Traversal) (stack : List Nat) (x v : Nat) :
    Prop where
  has : ∀ i, Has t.sets v i → Has t.sets x i
  low_le : t.low x ≤ t.low v
  low_lt : t.low v < heightIn stack v
  examined : ∀ w ∈ relation.getD v [], Examined t stack v w

/-- The calls divide the stack: above the node of a call are settled nodes only, and its neighbours
have been looked at, except for those ahead and the one that has been called. -/
inductive Nested (relation : Array (List Nat)) (t : Traversal) :
    Option Nat → List Frame → List Nat → Prop
  | nil (callee : Option Nat) : Nested relation t callee [] []
  | cons {callee : Option Nat} {x height : Nat} {rest : List Nat} {calls : List Frame}
      {above below : List Nat} (hheight : height = below.length + 1)
      (hsettled : ∀ v ∈ above, Settled relation t (above ++ x :: below) x v)
      (hrest : ∀ w ∈ rest, w ∈ relation.getD x [])
      (hcallee : ∀ w, callee = some w → w ∈ relation.getD x [])
      (hexamined : ∀ w ∈ relation.getD x [],
        w ∈ rest ∨ callee = some w ∨ Examined t (above ++ x :: below) x w)
      (h : Nested relation t (some x) calls below) :
      Nested relation t callee (⟨x, height, rest⟩ :: calls) (above ++ x :: below)

section Invariant

variable {relation : Array (List Nat)} {init : Array LookaheadSet} {P : LookaheadSet → Prop}
  {t t' : Traversal}

theorem Stacked.active (h : t.Stacked relation) {v : Nat} (hv : v ∈ t.stack) :
    t.state v = .active (t.low v) := by
  obtain ⟨l, hl⟩ := (h.mem_stack_iff v).1 hv
  rw [low_of_active hl, hl]

theorem Sound.lt_size (h : t.Sound relation init P) {v : Nat} (hv : v ∈ t.stack) :
    v < t.sets.size := by
  have hactive := h.active hv
  by_contra hge
  rw [h.size_sets, ← h.size_progress] at hge
  rw [state, Array.getD_of_size_le (Nat.not_lt.1 hge)] at hactive
  cases hactive

theorem Stacked.not_mem_of_done (h : t.Stacked relation) {v : Nat} (hv : t.state v = .done) :
    v ∉ t.stack := by
  intro hmem
  rw [h.active hmem] at hv
  cases hv

/-- A done node leads to done ones only. -/
theorem Filled.done_of_leads (h : t.Filled relation init P) {v w : Nat} (hv : t.state v = .done)
    (hvw : Leads relation v w) : t.state w = .done := by
  induction hvw with
  | refl => exact hv
  | tail _ hnext ih => exact h.done_next _ ih _ hnext

/-! ## Nodes that stay as they are -/

/-- The nodes lead as low and have what they had before; so do the done ones. -/
structure Agrees (t t' : Traversal) (nodes : List Nat) : Prop where
  low : ∀ v ∈ nodes, t'.low v = t.low v
  has : ∀ v ∈ nodes, ∀ i, Has t'.sets v i ↔ Has t.sets v i
  done : ∀ v, t.state v = .done → t'.state v = .done ∧ ∀ i, Has t'.sets v i ↔ Has t.sets v i

theorem Agrees.subset {nodes nodes' : List Nat} (h : Agrees t t' nodes) (hsub : nodes' ⊆ nodes) :
    Agrees t t' nodes' where
  low v hv := h.low v (hsub hv)
  has v hv := h.has v (hsub hv)
  done := h.done

theorem Examined.agrees {nodes stack : List Nat} {x y : Nat} (h : t.Examined stack x y)
    (ha : Agrees t t' nodes) (hx : x ∈ nodes) : t'.Examined stack x y := by
  rcases h with ⟨hy, hsub⟩ | ⟨hy, hle⟩
  · obtain ⟨hy', hhas⟩ := ha.done y hy
    exact .inl ⟨hy', fun i hi => (ha.has x hx i).2 (hsub i ((hhas i).1 hi))⟩
  · exact .inr ⟨hy, (ha.low x hx).symm ▸ hle⟩

theorem Nested.agrees {callee : Option Nat} {calls : List Frame} {stack : List Nat}
    (h : Nested relation t callee calls stack) (ha : Agrees t t' stack) :
    Nested relation t' callee calls stack := by
  induction h with
  | nil => exact .nil _
  | @cons callee x height rest calls above below hheight hsettled hrest hcallee hexamined _ ih =>
    have hx : x ∈ above ++ x :: below := List.mem_append_right _ (.head _)
    refine .cons hheight (fun v hv => ?_) hrest hcallee (fun w hw => ?_) (ih (ha.subset ?_))
    · have hv' := List.mem_append_left (x :: below) hv
      obtain ⟨hhas, hle, hlt, hex⟩ := hsettled v hv
      refine ⟨fun i hi => ?_, ?_, ?_, fun w hw => (hex w hw).agrees ha hv'⟩
      · exact (ha.has x hx i).2 (hhas i ((ha.has v hv' i).1 hi))
      · rwa [ha.low x hx, ha.low v hv']
      · rwa [ha.low v hv']
    · exact (hexamined w hw).imp_right (Or.imp_right fun he => he.agrees ha hx)
    · exact fun v hv => List.mem_append_right _ (.tail _ hv)

/-! ## Larger parts of the stack -/

theorem Examined.append {above stack : List Nat} (hn : (above ++ stack).Nodup) {x y : Nat}
    (h : t.Examined stack x y) : t.Examined (above ++ stack) x y := by
  rcases h with hy | ⟨hy, hle⟩
  · exact .inl hy
  · refine .inr ⟨List.mem_append_right _ hy, ?_⟩
    rwa [heightIn_append fun hmem => List.disjoint_of_nodup_append hn hmem hy]

theorem Settled.append {above stack : List Nat} (hn : (above ++ stack).Nodup) {x v : Nat}
    (h : Settled relation t stack x v) (hv : v ∈ stack) :
    Settled relation t (above ++ stack) x v where
  has := h.has
  low_le := h.low_le
  low_lt := by
    rw [heightIn_append fun hmem => List.disjoint_of_nodup_append hn hmem hv]
    exact h.low_lt
  examined w hw := (h.examined w hw).append hn

/-! ## Entering a node -/

theorem Stacked.agrees_enter (h : t.Stacked relation) {y : Nat} (hy : t.state y = .fresh) :
    Agrees t (t.enter relation y) t.stack := by
  have hstate : ∀ v, t.state v ≠ .fresh → (t.enter relation y).state v = t.state v := by
    intro v hv
    rw [state_enter hy, if_neg]
    rintro rfl
    exact hv hy
  refine ⟨fun v hv => low_congr (hstate v ?_), fun v _ i => Iff.rfl, fun v hv => ⟨?_, fun i => Iff.rfl⟩⟩
  · rw [h.active hv]
    exact fun he => nomatch he
  · rw [hstate v (hv ▸ fun he => nomatch he)]
    exact hv

theorem Sound.enter (h : t.Sound relation init P) {y : Nat} (hy : t.state y = .fresh) :
    (t.enter relation y).Sound relation init P := by
  have hnot : y ∉ t.stack := fun hmem => nomatch (h.active hmem).symm.trans hy
  have hself : (t.enter relation y).state y = .active (t.stack.length + 1) := by
    rw [state_enter hy, if_pos rfl]
  have hdone : ∀ v, (t.enter relation y).state v = .done ↔ t.state v = .done := by
    intro v
    rw [state_enter hy]
    split
    · rename_i hv
      simp [hv, hy]
    · rfl
  have hheight : ∀ v ∈ t.stack, heightIn ([y] ++ t.stack) v = heightIn t.stack v := fun v hv =>
    heightIn_append fun hmem => hnot (List.mem_singleton.1 hmem ▸ hv)
  have hlow := (h.agrees_enter hy).low
  refine ⟨⟨by simpa [Traversal.enter] using h.size_progress, List.nodup_cons.2 ⟨hnot, h.nodup⟩,
    fun v => ?_, ?_, ?_⟩, ⟨h.size_sets, h.kind, h.has_init, h.init_of_has, fun v hv w hw => ?_,
    fun v hv => ?_, fun v w hv hw => ?_⟩⟩
  · change v ∈ y :: t.stack ↔ _
    rw [List.mem_cons, h.mem_stack_iff, state_enter hy]
    by_cases hv : v = y <;> simp [hv]
  · refine List.forall_mem_cons.2 ⟨?_, fun v hv => ?_⟩
    · rw [low_of_active hself]
      exact Nat.le_of_eq (heightIn_cons_self y t.stack).symm
    · rw [hlow v hv]
      exact hheight v hv ▸ h.low_le v hv
  · refine List.forall_mem_cons.2 ⟨⟨y, .head _, ?_, .refl⟩, fun v hv => ?_⟩
    · rw [low_of_active hself]
      exact heightIn_cons_self y t.stack
    · obtain ⟨u, hu, heq, hlead⟩ := h.leads_low v hv
      refine ⟨u, .tail _ hu, ?_, hlead⟩
      rw [hlow v hv]
      exact (hheight u hu).trans heq
  · exact (hdone w).2 (h.done_next v ((hdone v).1 hv) w hw)
  · exact h.has_of_leads v ((hdone v).1 hv)
  · exact h.eq_of_leads v w ((hdone v).1 hv) ((hdone w).1 hw)

theorem Nested.enter (h : t.Stacked relation) {y : Nat} (hy : t.state y = .fresh)
    {calls : List Frame} (hn : Nested relation t (some y) calls t.stack) :
    Nested relation (t.enter relation y) none
      (⟨y, t.stack.length + 1, relation.getD y []⟩ :: calls) ([] ++ y :: t.stack) :=
  .cons rfl (by simp) (fun _ hw => hw) (by simp) (fun _ hw => .inl hw) (hn.agrees (h.agrees_enter hy))

/-! ## Absorbing a neighbour -/

theorem low_absorb_self {x y : Nat} (hx : ∃ l, t.state x = .active l) (hy : t.state y ≠ .fresh) :
    (t.state y = .done ∧ (t.absorb x y).low x = t.low x) ∨
      (∃ l, t.state y = .active l) ∧ (t.absorb x y).low x = min (t.low x) (t.low y) := by
  obtain ⟨l, hl⟩ := hx
  cases hs : t.state y with
  | fresh => exact absurd hs hy
  | active m =>
    refine .inr ⟨⟨m, rfl⟩, ?_⟩
    rw [low_of_active hl, low_of_active hs]
    exact low_of_active (by rw [state_absorb, if_pos rfl, hl, hs]; rfl)
  | done =>
    refine .inl ⟨rfl, ?_⟩
    rw [low_of_active hl]
    exact low_of_active (by rw [state_absorb, if_pos rfl, hl, hs]; rfl)

theorem Stacked.state_absorb_self (h : t.Stacked relation) {x y : Nat} (hx : x ∈ t.stack)
    (hy : t.state y ≠ .fresh) : ∃ l, (t.absorb x y).state x = .active l := by
  rw [state_absorb, if_pos rfl, h.active hx]
  cases hs : t.state y with
  | fresh => exact absurd hs hy
  | active m => exact ⟨_, rfl⟩
  | done => exact ⟨_, rfl⟩

theorem Stacked.absorb (h : t.Stacked relation) {x y : Nat} (hx : x ∈ t.stack)
    (hxy : y ∈ relation.getD x []) (hy : t.state y ≠ .fresh) :
    (t.absorb x y).Stacked relation := by
  have hlow := low_absorb_self ((h.mem_stack_iff x).1 hx) hy
  have hlow' : ∀ v, v ≠ x → (t.absorb x y).low v = t.low v := fun v hv =>
    low_congr (state_absorb_of_ne t y hv)
  refine ⟨by simpa [Traversal.absorb] using h.size_progress, h.nodup, fun v => ?_, fun v hv => ?_,
    fun v hv => ?_⟩
  · change v ∈ t.stack ↔ _
    by_cases hv : v = x
    · subst hv
      exact ⟨fun _ => h.state_absorb_self hx hy, fun _ => hx⟩
    · rw [state_absorb_of_ne t y hv]
      exact h.mem_stack_iff v
  · change (t.absorb x y).low v ≤ heightIn t.stack v
    have hle := h.low_le v hv
    by_cases hv' : v = x
    · subst hv'
      rcases hlow with ⟨-, he⟩ | ⟨-, he⟩ <;> omega
    · rwa [hlow' v hv']
  · change ∃ u ∈ t.stack, heightIn t.stack u = (t.absorb x y).low v ∧ Leads relation v u
    by_cases hv' : v = x
    · subst hv'
      rcases hlow with ⟨-, he⟩ | ⟨hyactive, he⟩
      · rw [he]
        exact h.leads_low v hv
      · -- the lower one of two nodes: where `x` was known to lead, and where `y` is
        rcases Nat.le_total (t.low v) (t.low y) with hle | hle
        · rw [he, Nat.min_eq_left hle]
          exact h.leads_low v hv
        · rw [he, Nat.min_eq_right hle]
          obtain ⟨u, hu, heq, hlead⟩ := h.leads_low y ((h.mem_stack_iff y).2 hyactive)
          exact ⟨u, hu, heq, .head hxy hlead⟩
    · rw [hlow' v hv']
      exact h.leads_low v hv

theorem Sound.absorb (hP : Uniting P) (h : t.Sound relation init P) {x y : Nat}
    (hx : x ∈ t.stack) (hxy : y ∈ relation.getD x []) (hy : t.state y ≠ .fresh) :
    (t.absorb x y).Sound relation init P := by
  have hhas := has_absorb (y := y) hP h.kind (h.lt_size hx)
  have hdone : ∀ v, (t.absorb x y).state v = .done → t.state v = .done ∧ v ≠ x := by
    intro v hv
    have hne : v ≠ x := by
      rintro rfl
      obtain ⟨l, hself⟩ := h.state_absorb_self hx hy
      cases hself.symm.trans hv
    exact ⟨state_absorb_of_ne t y hne ▸ hv, hne⟩
  refine ⟨h.toStacked.absorb hx hxy hy, ⟨(size_sets_absorb t x y).trans h.size_sets,
    kind_absorb hP h.kind, fun v i hi => (hhas v i).2 (.inl (h.has_init v i hi)), fun v i hi => ?_,
    fun v hv w hw => ?_, fun v hv w hvw i hi => ?_, fun v w hv hw hvw hwv => ?_⟩⟩
  · rcases (hhas v i).1 hi with hv | ⟨rfl, hv⟩
    · exact h.init_of_has v i hv
    · obtain ⟨w, hw, hinit⟩ := h.init_of_has y i hv
      exact ⟨w, .head hxy hw, hinit⟩
  · have hw' := h.done_next v (hdone v hv).1 w hw
    have hne : w ≠ x := fun he => h.not_mem_of_done hw' (he ▸ hx)
    exact (state_absorb_of_ne t y hne).trans hw'
  · exact (hhas v i).2 (.inl (h.has_of_leads v (hdone v hv).1 w hvw i hi))
  · rw [sets_absorb_of_ne t y (hdone v hv).2, sets_absorb_of_ne t y (hdone w hw).2]
    exact h.eq_of_leads v w (hdone v hv).1 (hdone w hw).1 hvw hwv

theorem Sound.agrees_absorb (hP : Uniting P) (h : t.Sound relation init P) {x y : Nat}
    (hx : x ∈ t.stack) {nodes : List Nat} (hnot : x ∉ nodes) : Agrees t (t.absorb x y) nodes := by
  have hsame : ∀ v, v ≠ x → ∀ i, Has (t.absorb x y).sets v i ↔ Has t.sets v i := by
    intro v hv i
    rw [has_absorb hP h.kind (h.lt_size hx)]
    simp [hv]
  have hne : ∀ v ∈ nodes, v ≠ x := fun v hv he => hnot (he ▸ hv)
  refine ⟨fun v hv => low_congr (state_absorb_of_ne t y (hne v hv)),
    fun v hv => hsame v (hne v hv), fun v hv => ?_⟩
  have hv' : v ≠ x := fun he => h.not_mem_of_done hv (he ▸ hx)
  exact ⟨(state_absorb_of_ne t y hv').trans hv, hsame v hv'⟩

/-- Absorbing the neighbour that has been called or looked at settles what is settled below it, and
ends looking at it. -/
theorem Nested.absorb (hP : Uniting P) (h : t.Sound relation init P) {x y height : Nat}
    {rest : List Nat} {calls : List Frame} {above below : List Nat}
    (hstack : t.stack = above ++ x :: below) (hheight : height = below.length + 1)
    (hsettled : ∀ v ∈ above, Settled relation t t.stack x v ∨
      (y ∈ t.stack ∧ Settled relation t t.stack y v))
    (hrest : ∀ w ∈ rest, w ∈ relation.getD x []) (hy : t.state y ≠ .fresh)
    (hexamined : ∀ w ∈ relation.getD x [], w ∈ rest ∨ w = y ∨ Examined t t.stack x w)
    (hn : Nested relation t (some x) calls below) :
    Nested relation (t.absorb x y) none (⟨x, height, rest⟩ :: calls) t.stack := by
  have hnodup := h.nodup
  rw [hstack, List.nodup_append, List.nodup_cons] at hnodup
  obtain ⟨-, ⟨hxbelow, -⟩, hdisj⟩ := hnodup
  have hxabove : x ∉ above := fun hmem => hdisj x hmem x (.head _) rfl
  have hx : x ∈ t.stack := hstack ▸ List.mem_append_right _ (.head _)
  have hhas := has_absorb (y := y) hP h.kind (h.lt_size hx)
  have hagree : Agrees t (t.absorb x y) above := h.agrees_absorb hP hx hxabove
  have hlow := low_absorb_self ((h.mem_stack_iff x).1 hx) hy
  have hle : (t.absorb x y).low x ≤ t.low x := by
    rcases hlow with ⟨-, he⟩ | ⟨-, he⟩ <;> omega
  have hley : y ∈ t.stack → (t.absorb x y).low x ≤ t.low y := by
    intro hmem
    rcases hlow with ⟨hdone, -⟩ | ⟨-, he⟩
    · exact absurd hmem (h.not_mem_of_done hdone)
    · omega
  rw [hstack] at hsettled hexamined ⊢
  refine .cons hheight (fun v hv => ?_) hrest (by simp) (fun w hw => ?_)
    (hn.agrees (h.agrees_absorb hP hx hxbelow))
  · have hcover : (∀ i, Has t.sets v i → Has (t.absorb x y).sets x i) ∧
        (t.absorb x y).low x ≤ t.low v := by
      rcases hsettled v hv with hs | ⟨hmem, hs⟩
      · exact ⟨fun i hi => (hhas x i).2 (.inl (hs.has i hi)), Nat.le_trans hle hs.low_le⟩
      · exact ⟨fun i hi => (hhas x i).2 (.inr ⟨rfl, hs.has i hi⟩),
          Nat.le_trans (hley (hstack ▸ hmem)) hs.low_le⟩
    obtain ⟨hlt, hex⟩ : t.low v < heightIn (above ++ x :: below) v ∧
        ∀ w ∈ relation.getD v [], Examined t (above ++ x :: below) v w := by
      rcases hsettled v hv with hs | ⟨-, hs⟩ <;> exact ⟨hs.low_lt, hs.examined⟩
    refine ⟨fun i hi => hcover.1 i ((hagree.has v hv i).1 hi), ?_, ?_,
      fun w hw => (hex w hw).agrees hagree hv⟩
    · rw [hagree.low v hv]
      exact hcover.2
    · rwa [hagree.low v hv]
  · rcases hexamined w hw with hw | rfl | hw
    · exact .inl hw
    · refine .inr (.inr ?_)
      rcases hlow with ⟨hdone, -⟩ | ⟨hactive, -⟩
      · obtain ⟨hdone', hsame⟩ := hagree.done w hdone
        exact .inl ⟨hdone', fun i hi => (hhas x i).2 (.inr ⟨rfl, (hsame i).1 hi⟩)⟩
      · have hmem := (h.mem_stack_iff w).2 hactive
        exact .inr ⟨hstack ▸ hmem, hstack ▸ Nat.le_trans (hley hmem) (h.low_le w hmem)⟩
    · refine .inr (.inr ?_)
      rcases hw with ⟨hdone, hsub⟩ | ⟨hmem, hlew⟩
      · obtain ⟨hdone', hsame⟩ := hagree.done w hdone
        exact .inl ⟨hdone', fun i hi => (hhas x i).2 (.inl (hsub i ((hsame i).1 hi)))⟩
      · exact .inr ⟨hmem, Nat.le_trans hle hlew⟩

end Invariant

end Traversal

end ParseForest
