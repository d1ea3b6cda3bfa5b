import ParseForest.Grammar.Nullable
import ParseForest.Proofs.Grammar.Derivation

/-!
# Nullability by sweeps

`leastMarks` answers the least set that is closed under a monotone condition: it is closed because
the fuel outlasts the sweeps that change something (`leastMarks_closed`), and it is least because a
sweep only marks what the condition forces (`leastMarks_induction`). For the rules of a grammar the
least closed set is the set of rules that derive the empty string.
-/

namespace ParseForest

/-! ## Sweeps -/

section Sweeps

variable {holds : Array Bool → Nat → Bool}

/-- One step of a sweep. -/
def sweepAt (holds : Array Bool → Nat → Bool) (marks : Array Bool) (i : Nat) : Array Bool :=
  if marks.getD i false then marks
  else if holds marks i then marks.setIfInBounds i true else marks

theorem sweep_eq_foldl (marks : Array Bool) :
    sweep holds marks = (List.range marks.size).foldl (sweepAt holds) marks := rfl

theorem getD_setIfInBounds_true {marks : Array Bool} {i j : Nat} :
    (marks.setIfInBounds i true).getD j false = true ↔
      marks.getD j false = true ∨ (j = i ∧ i < marks.size) := by
  simp only [Array.getD_eq_getD_getElem?, Array.getElem?_setIfInBounds]
  split
  · rename_i h
    subst h
    split <;> simp_all
  · rename_i h
    simp [Ne.symm h]

@[simp] theorem size_sweepAt (marks : Array Bool) (i : Nat) :
    (sweepAt holds marks i).size = marks.size := by
  unfold sweepAt
  split
  · rfl
  · split <;> simp

@[simp] theorem size_foldl_sweepAt (is : List Nat) (marks : Array Bool) :
    (is.foldl (sweepAt holds) marks).size = marks.size := by
  induction is generalizing marks with
  | nil => rfl
  | cons i is ih => rw [List.foldl_cons, ih, size_sweepAt]

@[simp] theorem size_sweep (marks : Array Bool) : (sweep holds marks).size = marks.size :=
  size_foldl_sweepAt _ marks

/-- A mark that a step makes was there before or is forced. -/
theorem sweepAt_marked {marks : Array Bool} {i j : Nat}
    (h : (sweepAt holds marks i).getD j false = true) :
    marks.getD j false = true ∨ (j = i ∧ holds marks i = true) := by
  unfold sweepAt at h
  split at h
  · exact .inl h
  · split at h
    · rename_i hh
      rcases getD_setIfInBounds_true.1 h with h | ⟨h, _⟩
      · exact .inl h
      · exact .inr ⟨h, hh⟩
    · exact .inl h

/-- A step that changes nothing leaves nothing to be done at its place; one that changes something
raises the number of marks. -/
theorem sweepAt_progress {marks : Array Bool} {i : Nat} (hi : i < marks.size) :
    (sweepAt holds marks i = marks ∧ (holds marks i = true → marks.getD i false = true)) ∨
      marks.count false = (sweepAt holds marks i).count false + 1 := by
  by_cases hm : marks.getD i false = true
  · exact .inl ⟨by simp only [sweepAt, if_pos hm], fun _ => hm⟩
  · by_cases hh : holds marks i = true
    · right
      have hf : marks[i] = false := by simpa [Array.getD, hi] using hm
      have hset : marks.setIfInBounds i true = marks.set i true hi := by
        simp [Array.setIfInBounds, hi]
      have hpos : 0 < marks.count false := Array.count_pos_iff.2 (hf ▸ Array.getElem_mem hi)
      simp only [sweepAt, if_neg hm, if_pos hh, hset, Array.count_set, hf]
      simp
      omega
    · exact .inl ⟨by simp only [sweepAt, if_neg hm, if_neg hh], fun h => absurd h hh⟩

theorem foldl_sweepAt_progress (is : List Nat) (marks : Array Bool) (his : ∀ i ∈ is, i < marks.size) :
    (is.foldl (sweepAt holds) marks = marks ∧
        ∀ i ∈ is, holds marks i = true → marks.getD i false = true) ∨
      (is.foldl (sweepAt holds) marks).count false < marks.count false := by
  induction is generalizing marks with
  | nil => exact .inl ⟨rfl, by simp⟩
  | cons i is ih =>
    rw [List.foldl_cons]
    have hrest := ih (sweepAt holds marks i) (fun j hj => by simpa using his j (.tail _ hj))
    rcases @sweepAt_progress holds marks i (his i (.head _)) with ⟨he, hi⟩ | hc
    · rw [he] at hrest ⊢
      rcases hrest with ⟨h, hr⟩ | h
      · refine .inl ⟨h, fun j hj => ?_⟩
        rcases List.mem_cons.1 hj with rfl | hj
        · exact hi
        · exact hr j hj
      · exact .inr h
    · right
      rcases hrest with ⟨h, _⟩ | h
      · rw [h]; omega
      · omega

/-- A sweep that changes nothing has found everything marked that the condition forces. -/
theorem sweep_progress (marks : Array Bool) :
    (sweep holds marks = marks ∧
        ∀ i < marks.size, holds marks i = true → marks.getD i false = true) ∨
      (sweep holds marks).count false < marks.count false := by
  have := @foldl_sweepAt_progress holds (List.range marks.size) marks (by simp)
  simpa [sweep_eq_foldl] using this

theorem sweepAll_closed {fuel : Nat} {marks : Array Bool} (hf : marks.count false < fuel) :
    ∀ i < marks.size, holds (sweepAll holds fuel marks) i = true →
      (sweepAll holds fuel marks).getD i false = true := by
  induction fuel generalizing marks with
  | zero => omega
  | succ fuel ih =>
    intro i hi
    rcases @sweep_progress holds marks with ⟨heq, h⟩ | h
    · simpa only [sweepAll, heq, beq_self_eq_true, if_true] using h i hi
    · have hne : ¬ (sweep holds marks == marks) = true := by
        intro heq
        rw [eq_of_beq heq] at h
        omega
      simp only [sweepAll, if_neg hne]
      exact ih (by omega) i (by simpa using hi)

/-- With fuel for a sweep that changes nothing, the sweeps end because nothing changes any more. -/
theorem sweep_sweepAll {fuel : Nat} {marks : Array Bool} (hf : marks.count false < fuel) :
    sweep holds (sweepAll holds fuel marks) = sweepAll holds fuel marks := by
  induction fuel generalizing marks with
  | zero => omega
  | succ fuel ih =>
    simp only [sweepAll]
    split
    · rename_i h
      exact eq_of_beq h
    · rename_i h
      rcases @sweep_progress holds marks with ⟨heq, _⟩ | hc
      · simp [heq] at h
      · exact ih (by omega)

/-- More fuel makes no difference. -/
theorem sweepAll_add {fuel : Nat} {marks : Array Bool} (hf : marks.count false < fuel) (more : Nat) :
    sweepAll holds (fuel + more) marks = sweepAll holds fuel marks := by
  induction fuel generalizing marks with
  | zero => omega
  | succ fuel ih =>
    rw [show fuel + 1 + more = fuel + more + 1 by omega]
    simp only [sweepAll]
    split
    · rfl
    · rename_i h
      rcases @sweep_progress holds marks with ⟨heq, _⟩ | hc
      · simp [heq] at h
      · exact ih (by omega)

/-- What holds of every forced index, given that it holds of all that are marked, holds of all that
a sweep marks. -/
theorem sweep_induction {P : Nat → Prop}
    (step : ∀ marks i, (∀ j, marks.getD j false = true → P j) → holds marks i = true → P i)
    {marks : Array Bool} (h : ∀ j, marks.getD j false = true → P j) :
    ∀ j, (sweep holds marks).getD j false = true → P j := by
  rw [sweep_eq_foldl]
  generalize List.range marks.size = is
  induction is generalizing marks with
  | nil => exact h
  | cons i is ih =>
    refine ih fun j hj => ?_
    rcases sweepAt_marked hj with hj | ⟨rfl, hh⟩
    · exact h j hj
    · exact step marks j h hh

theorem sweepAll_induction {P : Nat → Prop}
    (step : ∀ marks i, (∀ j, marks.getD j false = true → P j) → holds marks i = true → P i)
    (fuel : Nat) {marks : Array Bool} (h : ∀ j, marks.getD j false = true → P j) :
    ∀ j, (sweepAll holds fuel marks).getD j false = true → P j := by
  induction fuel generalizing marks with
  | zero => exact h
  | succ fuel ih =>
    simp only [sweepAll]
    split
    · exact h
    · exact ih (sweep_induction step h)

@[simp] theorem size_sweepAll (fuel : Nat) (marks : Array Bool) :
    (sweepAll holds fuel marks).size = marks.size := by
  induction fuel generalizing marks with
  | zero => rfl
  | succ fuel ih =>
    simp only [sweepAll]
    split
    · rfl
    · rw [ih, size_sweep]

end Sweeps

theorem count_false_replicate (n : Nat) : (Array.replicate n false).count false < n + 1 := by
  have : (Array.replicate n false).count false = n := by simp
  omega

/-- The sweeps for `leastMarks` end with one that changes nothing. -/
theorem sweep_leastMarks (n : Nat) (holds : Array Bool → Nat → Bool) :
    sweep holds (leastMarks n holds) = leastMarks n holds :=
  sweep_sweepAll (count_false_replicate n)

/-- Sweeping for longer than `leastMarks` does changes nothing. -/
theorem sweepAll_eq_leastMarks {n fuel : Nat} (hf : n < fuel) (holds : Array Bool → Nat → Bool) :
    sweepAll holds fuel (Array.replicate n false) = leastMarks n holds := by
  obtain ⟨more, rfl⟩ := Nat.exists_eq_add_of_lt hf
  rw [show n + more + 1 = n + 1 + more by omega]
  exact sweepAll_add (count_false_replicate n) more

@[simp] theorem size_leastMarks (n : Nat) (holds : Array Bool → Nat → Bool) :
    (leastMarks n holds).size = n := by
  simp [leastMarks]

/-- `leastMarks` marks whatever its condition forces. -/
theorem leastMarks_closed {n : Nat} {holds : Array Bool → Nat → Bool} {i : Nat} (hi : i < n)
    (h : holds (leastMarks n holds) i = true) : (leastMarks n holds).getD i false = true :=
  sweepAll_closed (count_false_replicate n) i (by simpa using hi) h

/-- `leastMarks` marks nothing that its condition does not force. -/
theorem leastMarks_induction {n : Nat} {holds : Array Bool → Nat → Bool} {P : Nat → Prop}
    (step : ∀ marks i, (∀ j, marks.getD j false = true → P j) → holds marks i = true → P i)
    {i : Nat} (h : (leastMarks n holds).getD i false = true) : P i := by
  refine sweepAll_induction step (n + 1) (fun j hj => ?_) i h
  simp [Array.getD_eq_getD_getElem?, Array.getElem?_replicate] at hj
  split at hj <;> simp at hj

/-! ## Nullable rules -/

@[simp] theorem alternatives_default : (default : Rule).alternatives = #[] := rfl

@[simp] theorem size_nullableRules (rules : Array Rule) :
    (nullableRules rules).size = rules.size := by
  simp [nullableRules]

/-- The table of nullable rules is closed: a rule with an alternative of nullable symbols is in it. -/
theorem nullableRules_closed {rules : Array Rule} {i : Nat} {a : Alternative}
    (ha : a ∈ (rules.getD i default).alternatives)
    (hs : ∀ s ∈ a.symbols, symbolNullable (nullableRules rules) s = true) :
    (nullableRules rules).getD i false = true := by
  have hi : i < rules.size := by
    by_contra h
    have hd : rules.getD i default = default := by simp [Array.getD, h]
    simp [hd] at ha
  refine leastMarks_closed hi ?_
  simp only [hasNullableAlternative, Array.any_eq_true', List.all_eq_true]
  exact ⟨a, ha, hs⟩

/-- What holds of a rule whenever it holds of all the rules of some alternative without terminals
holds of every nullable rule. -/
theorem nullableRules_induction {rules : Array Rule} {P : RuleId → Prop}
    (step : ∀ i, ∀ a ∈ (rules.getD i default).alternatives,
      (∀ s ∈ a.symbols, ∃ id, s = .rule id ∧ P id) → P i)
    {i : Nat} (h : (nullableRules rules).getD i false = true) : P i := by
  refine leastMarks_induction (fun marks i hm hh => ?_) h
  simp only [hasNullableAlternative, Array.any_eq_true', List.all_eq_true] at hh
  obtain ⟨a, ha, hs⟩ := hh
  refine step i a ha fun s hmem => ?_
  cases s with
  | rule id => exact ⟨id, rfl, hm id (hs _ hmem)⟩
  | terminal id => simpa [symbolNullable] using hs _ hmem

/-- From the start of the nullable suffix on, and from no place before it, every symbol is
nullable. -/
theorem nullableSuffixStart_le_iff (nullable : Array Bool) (symbols : List Symbol) (k : Nat) :
    nullableSuffixStart nullable symbols ≤ k ↔
      ∀ s ∈ symbols.drop k, symbolNullable nullable s = true := by
  induction symbols generalizing k with
  | nil => simp [nullableSuffixStart]
  | cons s rest ih =>
    have hall : nullableSuffixStart nullable rest = 0 ↔
        ∀ s ∈ rest, symbolNullable nullable s = true := by simpa using ih 0
    simp only [nullableSuffixStart]
    split
    · rename_i h
      have hcons : ∀ x ∈ s :: rest, symbolNullable nullable x = true := by
        simpa using ⟨h.2, hall.1 h.1⟩
      simpa using fun x hx => hcons x (List.mem_of_mem_drop hx)
    · rename_i h
      cases k with
      | zero =>
        simp only [Nat.le_zero, List.drop_zero, List.forall_mem_cons]
        refine ⟨by omega, fun hs => absurd ⟨hall.2 hs.2, hs.1⟩ h⟩
      | succ k => simpa using ih k

end ParseForest
