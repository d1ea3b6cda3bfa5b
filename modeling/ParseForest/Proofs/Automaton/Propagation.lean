import ParseForest.Automaton.Lookahead
import ParseForest.Proofs.Automaton.Components
import Mathlib.Tactic.Common
import Mathlib.Algebra.Group.Nat.Defs

/-!
# Propagation reaches the union over all reachable nodes

After the traversal every node is done, so its set has the digits of all the nodes that it leads to
and no others (`has_propagate_iff`). For sets over the same terminals this is said of lookaheads
(`lists_propagate_iff`), and for sets of equal size of whatever they hold (`propagate_exact`).
-/

namespace ParseForest

/-!
## Sets of lookaheads

A set of lookaheads over `n` terminals is a number of which only the digits `0` to `n` are ever set
(`LookaheadSet.Over`). For such sets the operations are those of finite sets.
-/

/-- A lookahead over a number of terminals. -/
def Lookahead.IsOver (n : Nat) : Lookahead → Prop
  | .terminal id => id < n
  | .finish => True

namespace LookaheadSet

/-- The set is over `n` terminals, and has digits for nothing else. -/
structure Over (n : Nat) (s : LookaheadSet) : Prop where
  terminals_eq : s.terminals = n
  le_of_testBit : ∀ i, s.digits.testBit i = true → i ≤ n

variable {n : Nat} {s t : LookaheadSet}

theorem lt_capacity (s : LookaheadSet) : s.terminals < s.capacity := by
  simp only [capacity, blockSize]
  omega

theorem over_empty (n : Nat) : (empty n).Over n := ⟨rfl, fun i hi => by simp [empty] at hi⟩

theorem testBit_insert (hs : s.Over n) {l : Lookahead} (hl : l.IsOver n) (i : Nat) :
    (s.insert l).digits.testBit i = true ↔ i = s.slot l ∨ s.digits.testBit i = true := by
  have hle : s.slot l ≤ s.terminals := by
    cases l with
    | terminal id => exact hs.terminals_eq ▸ Nat.le_of_lt hl
    | finish => exact Nat.le_refl _
  have hcap : s.slot l < s.capacity := Nat.lt_of_le_of_lt hle s.lt_capacity
  simp only [insert, hcap, if_true, Nat.testBit_or, Nat.one_shiftLeft, Bool.or_eq_true,
    Nat.testBit_two_pow, decide_eq_true_eq]
  exact ⟨fun h => h.symm.imp Eq.symm id, fun h => h.symm.imp id Eq.symm⟩

theorem terminals_insert (l : Lookahead) : (s.insert l).terminals = s.terminals := by
  unfold insert
  split <;> rfl

theorem over_insert (hs : s.Over n) {l : Lookahead} (hl : l.IsOver n) : (s.insert l).Over n where
  terminals_eq := (terminals_insert l).trans hs.terminals_eq
  le_of_testBit i hi := by
    rcases (testBit_insert hs hl i).1 hi with rfl | hi
    · cases l with
      | terminal id => exact Nat.le_of_lt hl
      | finish => exact Nat.le_of_eq hs.terminals_eq
    · exact hs.le_of_testBit i hi

theorem testBit_union (s t : LookaheadSet) (i : Nat) : (s.union t).digits.testBit i = true ↔
    s.digits.testBit i = true ∨ (i < s.capacity ∧ t.digits.testBit i = true) := by
  simp [union, Nat.testBit_or, Nat.one_shiftLeft, Nat.testBit_mod_two_pow]

/-- A union of sets with digits for the same lookaheads has the digits of both. -/
theorem testBit_union_of_le (hs : s.Over n) (ht : ∀ i, t.digits.testBit i = true → i ≤ n) (i : Nat) :
    (s.union t).digits.testBit i = true ↔ s.digits.testBit i = true ∨ t.digits.testBit i = true := by
  rw [testBit_union]
  refine or_congr_right ⟨And.right, fun h => ⟨?_, h⟩⟩
  have := s.lt_capacity
  rw [hs.terminals_eq] at this
  exact Nat.lt_of_le_of_lt (ht i h) this

theorem over_union (hs : s.Over n) (ht : ∀ i, t.digits.testBit i = true → i ≤ n) :
    (s.union t).Over n where
  terminals_eq := hs.terminals_eq
  le_of_testBit i hi := ((testBit_union_of_le hs ht i).1 hi).elim (hs.le_of_testBit i) (ht i)

/-! ## Membership -/

theorem lists_iff_testBit (hs : s.Over n) (l : Lookahead) :
    s.lists l = true ↔ l.IsOver n ∧ s.digits.testBit (s.slot l) = true := by
  cases l with
  | finish => simp [lists, Lookahead.IsOver, slot]
  | terminal id =>
    simp only [lists, Lookahead.IsOver, slot, Bool.and_eq_true, bne_iff_ne, ne_eq, hs.terminals_eq]
    refine and_congr_left fun h => ⟨fun hne => ?_, Nat.ne_of_lt⟩
    exact Nat.lt_of_le_of_ne (hs.le_of_testBit id h) hne

theorem not_lists_empty (n : Nat) (l : Lookahead) : ¬ (empty n).lists l = true := by
  cases l <;> simp [lists, empty]

theorem slot_inj {l l' : Lookahead} (hn : s.terminals = n) (hl : l.IsOver n) (hl' : l'.IsOver n)
    (h : s.slot l = s.slot l') : l = l' := by
  cases l <;> cases l' <;> simp_all [slot, Lookahead.IsOver]

theorem lists_insert_iff (hs : s.Over n) {l : Lookahead} (hl : l.IsOver n) (l' : Lookahead) :
    (s.insert l).lists l' = true ↔ l' = l ∨ s.lists l' = true := by
  have hslot : (s.insert l).slot l' = s.slot l' := by
    cases l' <;> simp [slot, terminals_insert]
  rw [lists_iff_testBit (over_insert hs hl), hslot, testBit_insert hs hl, lists_iff_testBit hs]
  constructor
  · rintro ⟨hl', h | h⟩
    · exact .inl (slot_inj hs.terminals_eq hl' hl h)
    · exact .inr ⟨hl', h⟩
  · rintro (rfl | ⟨hl', h⟩)
    · exact ⟨hl, .inl rfl⟩
    · exact ⟨hl', .inr h⟩

theorem lists_union_iff (hs : s.Over n) (ht : t.Over n) (l : Lookahead) :
    (s.union t).lists l = true ↔ s.lists l = true ∨ t.lists l = true := by
  have hslot : ∀ u : LookaheadSet, u.Over n → u.slot l = s.slot l := by
    intro u hu
    cases l <;> simp [slot, hu.terminals_eq, hs.terminals_eq]
  have hst := over_union hs ht.le_of_testBit
  rw [lists_iff_testBit hst, lists_iff_testBit hs, lists_iff_testBit ht, hslot _ hst, hslot _ ht,
    testBit_union_of_le hs ht.le_of_testBit, and_or_left]

/-- The members are the lookaheads of the set. -/
theorem mem_members_iff (hs : s.Over n) {l : Lookahead} : l ∈ s.members ↔ s.lists l = true := by
  have hcapacity : ∀ i, s.digits.testBit i = true → i < s.capacity := fun i hi =>
    Nat.lt_of_le_of_lt (hs.terminals_eq ▸ hs.le_of_testBit i hi) s.lt_capacity
  simp only [members, slots, List.mem_map, List.mem_filter, List.mem_range]
  constructor
  · rintro ⟨i, ⟨-, hi⟩, rfl⟩
    rw [ofSlot]
    split
    · rename_i he
      rwa [he] at hi
    · rename_i hne
      simp [lists, hi, hne]
  · intro hl
    refine ⟨s.slot l, ⟨hcapacity _ ((lists_iff_testBit hs l).1 hl).2, ((lists_iff_testBit hs l).1 hl).2⟩, ?_⟩
    cases l with
    | terminal t =>
      have hne : t ≠ s.terminals := by simpa using (Bool.and_eq_true_iff.1 hl).1
      rw [ofSlot, slot, if_neg hne]
    | finish => rw [ofSlot, slot, if_pos rfl]

theorem isEmpty_iff (hs : s.Over n) : s.isEmpty = true ↔ ∀ l, ¬ s.lists l = true := by
  simp only [isEmpty, beq_iff_eq]
  constructor
  · intro h l hl
    rw [lists_iff_testBit hs, h] at hl
    simp at hl
  · intro h
    refine Nat.eq_of_testBit_eq fun i => ?_
    rw [Nat.zero_testBit, Bool.eq_false_iff]
    intro hi
    rcases Nat.lt_or_eq_of_le (hs.le_of_testBit i hi) with hlt | rfl
    · exact h (.terminal i) ((lists_iff_testBit hs _).2 ⟨hlt, hi⟩)
    · exact h .finish ((lists_iff_testBit hs _).2 ⟨trivial, by rw [slot, hs.terminals_eq]; exact hi⟩)

end LookaheadSet

/-! ## What is reached -/

variable {n : Nat} {relation : Array (List Nat)} {sets : Array LookaheadSet}
  {P : LookaheadSet → Prop}

theorem lt_size_of_has {x i : Nat} (h : Has sets x i) : x < sets.size := by
  by_contra hge
  have hd : (default : LookaheadSet).digits = 0 := rfl
  rw [Has, Array.getD_of_size_le (Nat.not_lt.1 hge), hd] at h
  simp at h

/-- What propagation answers, for sets of one kind. -/
theorem filled_propagate (hP : Uniting P) (hsize : sets.size = relation.size)
    (hsets : ∀ x < sets.size, P (sets.getD x default)) :
    ∃ t : Traversal, t.sets = propagate relation sets ∧ t.Filled relation sets P ∧
      ∀ x, t.state x = .done := by
  obtain ⟨hinv, hcalls, hvisited, -⟩ :=
    (Traversal.invariant_start hsize hsets).foldl_visit hP (List.range relation.size) rfl
  refine ⟨_, rfl, hinv.sound.toFilled, fun x => ?_⟩
  generalize (List.range relation.size).foldl (Traversal.visit relation) _ = t at *
  have hstack : t.stack = [] :=
    (hcalls ▸ hinv.nested : Traversal.Nested relation t none [] t.stack).eq_nil
  by_cases hx : x < relation.size
  · cases hstate : t.state x with
    | fresh => exact absurd hstate (hvisited x (List.mem_range.2 hx))
    | active low =>
      have hmem := (hinv.sound.mem_stack_iff x).2 ⟨low, hstate⟩
      rw [hstack] at hmem
      cases hmem
    | done => rfl
  · rw [← hinv.sound.size_progress] at hx
    exact Array.getD_of_size_le (Nat.not_lt.1 hx)

theorem size_propagate_of_kind (hP : Uniting P) (hsize : sets.size = relation.size)
    (hsets : ∀ x < sets.size, P (sets.getD x default)) :
    (propagate relation sets).size = sets.size := by
  obtain ⟨t, ht, h, -⟩ := filled_propagate hP hsize hsets
  rw [← ht, h.size_sets, hsize]

theorem kind_propagate (hP : Uniting P) (hsize : sets.size = relation.size)
    (hsets : ∀ x < sets.size, P (sets.getD x default)) :
    ∀ x < (propagate relation sets).size, P ((propagate relation sets).getD x default) := by
  obtain ⟨t, ht, h, -⟩ := filled_propagate hP hsize hsets
  exact ht ▸ h.kind

/-- After propagation a node has the digits of all the nodes it leads to. -/
theorem has_propagate_iff (hP : Uniting P) (hsize : sets.size = relation.size)
    (hsets : ∀ x < sets.size, P (sets.getD x default)) (x i : Nat) :
    Has (propagate relation sets) x i ↔ ∃ y, Leads relation x y ∧ Has sets y i := by
  obtain ⟨t, ht, h, hdone⟩ := filled_propagate hP hsize hsets
  rw [← ht]
  exact ⟨h.init_of_has x i, fun ⟨y, hy, hi⟩ => h.has_of_leads x (hdone x) y hy i hi⟩

/-- After propagation nodes that lead to each other have the same set. -/
theorem propagate_eq_of_leads (hP : Uniting P) (hsize : sets.size = relation.size)
    (hsets : ∀ x < sets.size, P (sets.getD x default)) {x y : Nat} (hxy : Leads relation x y)
    (hyx : Leads relation y x) :
    (propagate relation sets).getD x default = (propagate relation sets).getD y default := by
  obtain ⟨t, ht, h, hdone⟩ := filled_propagate hP hsize hsets
  rw [← ht]
  exact h.eq_of_leads x y (hdone x) (hdone y) hxy hyx

/-! ## Sets over the same terminals -/

/-- All sets are over `n` terminals. -/
def AllOver (n : Nat) (sets : Array LookaheadSet) : Prop :=
  ∀ x < sets.size, (sets.getD x default).Over n

theorem uniting_over (n : Nat) : Uniting (LookaheadSet.Over n) := by
  intro s t hs ht
  have hle : ∀ i, t.digits.testBit i = true → i ≤ n := by
    rcases ht with ht | rfl
    · exact ht.le_of_testBit
    · intro i hi
      have hd : (default : LookaheadSet).digits = 0 := rfl
      simp [hd] at hi
  exact ⟨LookaheadSet.over_union hs hle, LookaheadSet.testBit_union_of_le hs hle⟩

theorem lists_foldl_union (h : AllOver n sets) (ys : List Nat) (hys : ∀ y ∈ ys, y < sets.size)
    {s : LookaheadSet} (hs : s.Over n) (l : Lookahead) :
    (ys.foldl (fun s y => s.union (sets.getD y default)) s).lists l = true ↔
      s.lists l = true ∨ ∃ y ∈ ys, (sets.getD y default).lists l = true := by
  induction ys generalizing s with
  | nil => simp
  | cons y ys ih =>
    have hy := h y (hys y (.head _))
    rw [List.foldl_cons, ih (fun z hz => hys z (.tail _ hz))
      (LookaheadSet.over_union hs hy.le_of_testBit), LookaheadSet.lists_union_iff hs hy]
    simp [or_assoc]

theorem allOver_propagate (h : AllOver n sets) (hsize : relation.size = sets.size) :
    AllOver n (propagate relation sets) := kind_propagate (uniting_over n) hsize.symm h

theorem size_propagate (h : AllOver n sets) (hsize : relation.size = sets.size) :
    (propagate relation sets).size = sets.size :=
  size_propagate_of_kind (uniting_over n) hsize.symm h

/-- After propagation a node lists what the nodes it leads to listed before. -/
theorem lists_propagate_iff (h : AllOver n sets) (hsize : relation.size = sets.size) {x : Nat}
    (hx : x < sets.size) (l : Lookahead) :
    ((propagate relation sets).getD x default).lists l = true ↔
      ∃ y < sets.size, Leads relation x y ∧ (sets.getD y default).lists l = true := by
  have hover := allOver_propagate h hsize x (by rwa [size_propagate h hsize])
  have hslot : ∀ s : LookaheadSet, s.Over n → ∀ s' : LookaheadSet, s'.Over n → s.slot l = s'.slot l := by
    intro s hs s' hs'
    cases l <;> simp [LookaheadSet.slot, hs.terminals_eq, hs'.terminals_eq]
  rw [LookaheadSet.lists_iff_testBit hover]
  change _ ∧ Has _ x _ ↔ _
  rw [has_propagate_iff (uniting_over n) hsize.symm h]
  constructor
  · rintro ⟨hl, y, hy, hbit⟩
    have hlt := lt_size_of_has hbit
    refine ⟨y, hlt, hy, (LookaheadSet.lists_iff_testBit (h y hlt) l).2 ⟨hl, ?_⟩⟩
    rwa [hslot _ (h y hlt) _ hover]
  · rintro ⟨y, hlt, hy, hlist⟩
    obtain ⟨hl, hbit⟩ := (LookaheadSet.lists_iff_testBit (h y hlt) l).1 hlist
    refine ⟨hl, y, hy, ?_⟩
    rw [Has, ← hslot _ (h y hlt) _ hover]
    exact hbit

/-! ## Sets of equal size -/

/-- The set has room for `capacity` digits, and no others. -/
def LookaheadSet.Fits (capacity : Nat) (s : LookaheadSet) : Prop :=
  s.capacity = capacity ∧ s.digits < 2 ^ capacity

theorem LookaheadSet.Fits.lt_of_testBit {capacity : Nat} {s : LookaheadSet} (h : s.Fits capacity)
    {i : Nat} (hi : s.digits.testBit i = true) : i < capacity := by
  by_contra hge
  have hlt := Nat.lt_of_lt_of_le h.2 (Nat.pow_le_pow_right Nat.two_pos (Nat.not_lt.1 hge))
  rw [Nat.testBit_lt_two_pow hlt] at hi
  cases hi

/-- A union with a set of the same size, or with nothing, has this size and the digits of both. -/
theorem uniting_fits (capacity : Nat) : Uniting (LookaheadSet.Fits capacity) := by
  intro s t hs ht
  obtain ⟨rfl, hdigits⟩ := hs
  have hlt : ∀ i, t.digits.testBit i = true → i < s.capacity := by
    rcases ht with ht | rfl
    · exact fun i hi => ht.lt_of_testBit hi
    · intro i hi
      have hd : (default : LookaheadSet).digits = 0 := rfl
      simp [hd] at hi
  refine ⟨⟨rfl, ?_⟩, fun i => ?_⟩
  · rw [LookaheadSet.union, Nat.one_shiftLeft]
    exact Nat.or_lt_two_pow hdigits (Nat.mod_lt _ (Nat.two_pow_pos _))
  · rw [LookaheadSet.testBit_union]
    exact or_congr_right ⟨And.right, fun h => ⟨hlt i h, h⟩⟩

/-- Sets over the same terminals stay over them. -/
theorem terminals_propagate {capacity : Nat} (hsize : sets.size = relation.size)
    (hsets : ∀ x < sets.size, (sets.getD x default).Fits capacity)
    (hn : ∀ x < sets.size, (sets.getD x default).terminals = n) :
    ∀ x < (propagate relation sets).size, ((propagate relation sets).getD x default).terminals = n := by
  have hP : Uniting fun s => s.Fits capacity ∧ s.terminals = n := by
    intro s t hs ht
    obtain ⟨hunion, hbits⟩ := uniting_fits capacity s t hs.1 (ht.imp_left And.left)
    exact ⟨⟨hunion, hs.2⟩, hbits⟩
  exact fun x hx => (kind_propagate hP hsize (fun x hx => ⟨hsets x hx, hn x hx⟩) x hx).2

/-- Propagation is exact. For every relation, with sets of equal size for its nodes, the traversal
ends with a set of this size for each node, and the set of a node has the digits of the sets that the
nodes it leads to had before, and no others; over the same terminals, it contains the same lookaheads
as these. Nodes that lead to each other have the same set. -/
theorem propagate_exact {capacity : Nat} (hsize : sets.size = relation.size)
    (hsets : ∀ x < sets.size, (sets.getD x default).Fits capacity) :
    (propagate relation sets).size = sets.size ∧
      (∀ x < sets.size, ((propagate relation sets).getD x default).Fits capacity) ∧
      (∀ x < sets.size, ∀ i, ((propagate relation sets).getD x default).digits.testBit i = true ↔
        ∃ y < sets.size, Leads relation x y ∧ (sets.getD y default).digits.testBit i = true) ∧
      (∀ n, (∀ x < sets.size, (sets.getD x default).terminals = n) → ∀ x < sets.size, ∀ l,
        ((propagate relation sets).getD x default).contains l = true ↔
          ∃ y < sets.size, Leads relation x y ∧ (sets.getD y default).contains l = true) ∧
      ∀ x < sets.size, ∀ y < sets.size, Leads relation x y → Leads relation y x →
        (propagate relation sets).getD x default = (propagate relation sets).getD y default := by
  have hP := uniting_fits capacity
  have hsize' := size_propagate_of_kind hP hsize hsets
  have hdigits : ∀ x i, Has (propagate relation sets) x i ↔
      ∃ y < sets.size, Leads relation x y ∧ Has sets y i := by
    intro x i
    rw [has_propagate_iff hP hsize hsets]
    exact exists_congr fun y => ⟨fun h => ⟨lt_size_of_has h.2, h⟩, And.right⟩
  refine ⟨hsize', fun x hx => kind_propagate hP hsize hsets x (hsize'.symm ▸ hx),
    fun x _ i => hdigits x i, fun n hn x hx l => ?_,
    fun x _ y _ => propagate_eq_of_leads hP hsize hsets⟩
  have hslot : ∀ s : LookaheadSet, s.terminals = n → s.slot l = (LookaheadSet.empty n).slot l := by
    intro s hs
    cases l <;> simp [LookaheadSet.slot, LookaheadSet.empty, hs]
  rw [LookaheadSet.contains, hslot _ (terminals_propagate hsize hsets hn x (hsize'.symm ▸ hx))]
  refine (hdigits x _).trans (exists_congr fun y => and_congr_right fun hy => ?_)
  rw [LookaheadSet.contains, hslot _ (hn y hy)]
  rfl

/-- On a cycle of three nodes, the last of which leads to a fourth one, all have what the fourth
has. -/
theorem propagate_exact_cycle :
    let relation : Array (List Nat) := #[[1], [2], [0, 3], []]
    let sets : Array LookaheadSet := #[⟨1, 8⟩, ⟨2, 8⟩, ⟨4, 8⟩, ⟨8, 8⟩]
    (propagate relation sets).getD 0 default = (propagate relation sets).getD 2 default ∧
      ((propagate relation sets).getD 0 default).contains (.terminal 3) = true := by
  intro relation sets
  have hfits : ∀ x < sets.size, (sets.getD x default).Fits 64 ∧
      (sets.getD x default).terminals = 8 := by
    intro x hx
    have hx' : x < 4 := hx
    match x, hx' with
    | 0, _ | 1, _ | 2, _ | 3, _ => exact ⟨⟨by decide, by decide⟩, rfl⟩
  have h := @propagate_exact relation sets 64 rfl fun x hx => (hfits x hx).1
  have h02 : Leads relation 0 2 := .head (b := 1) (.head _) (.single (.head _))
  have h20 : Leads relation 2 0 := .single (.head _)
  have h03 : Leads relation 0 3 := h02.tail (.tail _ (.head _))
  refine ⟨h.2.2.2.2 0 (by decide) 2 (by decide) h02 h20, ?_⟩
  exact (h.2.2.2.1 8 (fun x hx => (hfits x hx).2) 0 (by decide) _).2 ⟨3, by decide, h03, by decide⟩

end ParseForest
