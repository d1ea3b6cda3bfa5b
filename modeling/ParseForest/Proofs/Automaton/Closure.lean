import ParseForest.Automaton.Collection
import ParseForest.Proofs.Grammar.Derivation
import Mathlib.Data.List.Nodup

/-!
# Closures of kernels

The items that `closure` lists are the least set that contains the kernel and, with an item whose
dot stands before a rule, all items at the start of that rule (`mem_closure_iff`); each is listed
once (`nodup_closure`). Both proofs follow the recursion of `closeItems`, which finishes one pending
item at a time; `done` marks the rules whose items are pending or listed.
-/

namespace ParseForest

/-- An item that a kernel entails. -/
inductive Entailed (g : Grammar) (kernel : List Item) : Item → Prop
  | kernel {i : Item} (h : i ∈ kernel) : Entailed g kernel i
  | start {i j : Item} {rule : RuleId} (h : Entailed g kernel i) (hr : i.nextRule? g = some rule)
      (hj : j ∈ Item.initial g rule) : Entailed g kernel j

theorem Item.mem_initial_iff {g : Grammar} {rule : RuleId} {i : Item} :
    i ∈ Item.initial g rule ↔
      i.rule = rule ∧ i.dot = 0 ∧ i.alt < (g.rule rule).alternatives.size := by
  obtain ⟨r, a, d⟩ := i
  simp only [Item.initial, List.mem_map, List.mem_range, Item.mk.injEq]
  constructor
  · rintro ⟨alt, h, rfl, rfl, rfl⟩
    exact ⟨rfl, rfl, h⟩
  · rintro ⟨rfl, rfl, h⟩
    exact ⟨a, h, rfl, rfl, rfl⟩

theorem Item.nodup_initial (g : Grammar) (rule : RuleId) : (Item.initial g rule).Nodup :=
  List.nodup_range.map fun _ _ h => (Item.mk.inj h).2.1

/-- Rules outside the table have no items. -/
theorem Item.lt_of_mem_initial {g : Grammar} {rule : RuleId} {i : Item}
    (h : i ∈ Item.initial g rule) : rule < g.rules.size := by
  by_contra hlt
  have := (Item.mem_initial_iff.1 h).2.2
  simp only [Grammar.rule, Array.getD, hlt] at this
  exact absurd this (Nat.not_lt_zero _)

section

variable {g : Grammar} {kernel : List Item}

/-- The items of a rule that the kernel does not hold. -/
def freshItems (g : Grammar) (kernel : List Item) (rule : RuleId) : List Item :=
  (Item.initial g rule).filter (!kernel.contains ·)

theorem mem_freshItems_iff {rule : RuleId} {i : Item} :
    i ∈ freshItems g kernel rule ↔ i ∈ Item.initial g rule ∧ i ∉ kernel := by
  simp [freshItems]

/-- Induction along `closeItems`: the first pending item is listed, and its rule, unless there is
none or it is done, is marked and starts its items. -/
theorem closeItems_induction {motive : List Item → Array Bool → Prop}
    (nil : ∀ done, motive [] done)
    (keep : ∀ item rest done,
      (∀ rule, item.nextRule? g = some rule → rule < done.size → done.getD rule false = true) →
      closeItems g kernel (item :: rest) done = item :: closeItems g kernel rest done →
      motive rest done → motive (item :: rest) done)
    (start : ∀ item rest done rule (done' : Array Bool), item.nextRule? g = some rule →
      done.getD rule false = false → done'.size = done.size →
      (∀ r, done'.getD r false = true ↔ r = rule ∨ done.getD r false = true) →
      closeItems g kernel (item :: rest) done =
        item :: closeItems g kernel (rest ++ freshItems g kernel rule) done' →
      motive (rest ++ freshItems g kernel rule) done' → motive (item :: rest) done)
    (pending : List Item) (done : Array Bool) : motive pending done := by
  induction pending, done using closeItems.induct g kernel with
  | case1 => exact nil _
  | case2 done item rest hnext ih =>
    exact keep _ _ _ (fun rule hr => by simp [hnext] at hr) (by rw [closeItems, hnext]) ih
  | case3 done item rest rule hnext hlt hd ih =>
    refine keep _ _ _ (fun rule' hr _ => ?_) (by rw [closeItems, hnext]; simp [hlt, hd]) ih
    obtain rfl : rule = rule' := by simpa [hnext] using hr
    simpa [Array.getD, hlt] using hd
  | case4 done item rest rule hnext hlt hd fresh ih =>
    refine start _ _ _ rule (done.set rule true) hnext (by simpa [Array.getD, hlt] using hd)
      (by simp) (fun r => ?_) (by rw [closeItems, hnext]; simp [hlt, hd, freshItems]) ih
    by_cases he : r = rule
    · simp [he, Array.getD_eq_getD_getElem?, hlt]
    · simp [Array.getD_eq_getD_getElem?, he, Ne.symm he]
  | case5 done item rest rule hnext hlt ih =>
    refine keep _ _ _ (fun rule' hr hlt' => ?_) (by rw [closeItems, hnext]; simp [hlt]) ih
    obtain rfl : rule = rule' := by simpa [hnext] using hr
    exact absurd hlt' hlt

theorem closeItems_entailed (pending : List Item) (done : Array Bool)
    (h : ∀ i ∈ pending, Entailed g kernel i) :
    ∀ i ∈ closeItems g kernel pending done, Entailed g kernel i := by
  induction pending, done using @closeItems_induction g kernel with
  | nil => simp [closeItems]
  | keep item rest done _ heq ih =>
    rw [heq]
    exact List.forall_mem_cons.2 ⟨h item (.head _), ih fun i hi => h i (.tail _ hi)⟩
  | start item rest done rule done' hnext _ _ _ heq ih =>
    rw [heq]
    refine List.forall_mem_cons.2 ⟨h item (.head _), ih fun i hi => ?_⟩
    rcases List.mem_append.1 hi with hi | hi
    · exact h i (.tail _ hi)
    · exact .start (h item (.head _)) hnext (mem_freshItems_iff.1 hi).1

theorem pending_subset_closeItems (pending : List Item) (done : Array Bool) :
    ∀ i ∈ pending, i ∈ closeItems g kernel pending done := by
  induction pending, done using @closeItems_induction g kernel with
  | nil => simp
  | keep item rest done _ heq ih =>
    rw [heq]
    exact List.forall_mem_cons.2 ⟨.head _, fun i hi => .tail _ (ih i hi)⟩
  | start item rest done rule done' _ _ _ _ heq ih =>
    rw [heq]
    exact List.forall_mem_cons.2 ⟨.head _, fun i hi => .tail _ (ih i (List.mem_append_left _ hi))⟩

/-- The items of a rule after a dot are listed, unless the rule was done before. -/
theorem closeItems_closed (pending : List Item) (done : Array Bool) :
    ∀ i ∈ closeItems g kernel pending done, ∀ rule, i.nextRule? g = some rule →
      rule < done.size → done.getD rule false = true ∨
        ∀ j ∈ Item.initial g rule, j ∈ kernel ∨ j ∈ closeItems g kernel pending done := by
  induction pending, done using @closeItems_induction g kernel with
  | nil => simp [closeItems]
  | keep item rest done hdone heq ih =>
    rw [heq]
    refine List.forall_mem_cons.2 ⟨fun rule hr hlt => .inl (hdone rule hr hlt), ?_⟩
    exact fun i hi rule hr hlt =>
      (ih i hi rule hr hlt).imp_right fun h j hj => (h j hj).imp_right (.tail _)
  | start item rest done rule done' hnext _ hsize hmark heq ih =>
    rw [heq]
    have hfresh : ∀ j ∈ Item.initial g rule, j ∈ kernel ∨
        j ∈ item :: closeItems g kernel (rest ++ freshItems g kernel rule) done' := by
      intro j hj
      by_cases hk : j ∈ kernel
      · exact .inl hk
      · refine .inr (.tail _ (pending_subset_closeItems _ _ j ?_))
        exact List.mem_append_right _ (mem_freshItems_iff.2 ⟨hj, hk⟩)
    refine List.forall_mem_cons.2 ⟨fun rule' hr _ => ?_, fun i hi rule' hr hlt => ?_⟩
    · obtain rfl : rule = rule' := by simpa [hnext] using hr
      exact .inr hfresh
    · rcases ih i hi rule' hr (hsize ▸ hlt) with h | h
      · rcases (hmark rule').1 h with rfl | h
        · exact .inr hfresh
        · exact .inl h
      · exact .inr fun j hj => (h j hj).imp_right (.tail _)

/-- What is listed beside the pending items is outside the kernel and of a rule not yet done. -/
theorem closeItems_new (pending : List Item) (done : Array Bool) :
    ∀ i ∈ closeItems g kernel pending done,
      i ∈ pending ∨ (i ∉ kernel ∧ ¬ done.getD i.rule false = true) := by
  induction pending, done using @closeItems_induction g kernel with
  | nil => simp [closeItems]
  | keep item rest done _ heq ih =>
    rw [heq]
    exact List.forall_mem_cons.2 ⟨.inl (.head _), fun i hi => (ih i hi).imp_left (.tail _)⟩
  | start item rest done rule done' _ hundone _ hmark heq ih =>
    rw [heq]
    refine List.forall_mem_cons.2 ⟨.inl (.head _), fun i hi => ?_⟩
    rcases ih i hi with h | ⟨hk, h⟩
    · rcases List.mem_append.1 h with h | h
      · exact .inl (.tail _ h)
      · obtain ⟨hinit, hk⟩ := mem_freshItems_iff.1 h
        refine .inr ⟨hk, ?_⟩
        rw [(Item.mem_initial_iff.1 hinit).1, hundone]
        exact Bool.false_ne_true
    · exact .inr ⟨hk, fun hd => h ((hmark _).2 (.inr hd))⟩

theorem nodup_closeItems (pending : List Item) (done : Array Bool) (hn : pending.Nodup)
    (hd : ∀ i ∈ pending, i ∈ kernel ∨ done.getD i.rule false = true) :
    (closeItems g kernel pending done).Nodup := by
  induction pending, done using @closeItems_induction g kernel with
  | nil => simp [closeItems]
  | keep item rest done _ heq ih =>
    obtain ⟨hnot, hrest⟩ := List.nodup_cons.1 hn
    rw [heq]
    refine List.nodup_cons.2 ⟨fun hmem => ?_, ih hrest fun i hi => hd i (.tail _ hi)⟩
    rcases closeItems_new rest done item hmem with h | ⟨hk, h⟩
    · exact hnot h
    · exact (hd item (.head _)).elim hk h
  | start item rest done rule done' _ hundone _ hmark heq ih =>
    obtain ⟨hnot, hrest⟩ := List.nodup_cons.1 hn
    -- a fresh item is of a rule that was not done, so it cannot be among the pending ones
    have hfresh : ∀ i ∈ freshItems g kernel rule, i ∉ item :: rest := by
      intro i hi hmem
      obtain ⟨hinit, hk⟩ := mem_freshItems_iff.1 hi
      rcases hd i hmem with h | h
      · exact hk h
      · rw [(Item.mem_initial_iff.1 hinit).1, hundone] at h
        exact Bool.false_ne_true h
    have hn' : (rest ++ freshItems g kernel rule).Nodup := by
      refine List.nodup_append.2 ⟨hrest, (Item.nodup_initial g rule).filter _, ?_⟩
      rintro i hi j hj rfl
      exact hfresh i hj (.tail _ hi)
    have hd' : ∀ i ∈ rest ++ freshItems g kernel rule, i ∈ kernel ∨ done'.getD i.rule false = true := by
      intro i hi
      rcases List.mem_append.1 hi with hi | hi
      · exact (hd i (.tail _ hi)).imp_right fun h => (hmark _).2 (.inr h)
      · exact .inr ((hmark _).2 (.inl (Item.mem_initial_iff.1 (mem_freshItems_iff.1 hi).1).1))
    rw [heq]
    refine List.nodup_cons.2 ⟨fun hmem => ?_, ih hn' hd'⟩
    rcases closeItems_new _ _ item hmem with h | ⟨hk, h⟩
    · rcases List.mem_append.1 h with h | h
      · exact hnot h
      · exact hfresh item h (.head _)
    · exact (hd item (.head _)).elim hk fun hdone => h ((hmark _).2 (.inr hdone))

/-- `closure` lists what the kernel entails. -/
theorem mem_closure_iff {i : Item} : i ∈ closure g kernel ↔ Entailed g kernel i := by
  refine ⟨closeItems_entailed _ _ (fun i hi => .kernel hi) i, fun h => ?_⟩
  induction h with
  | kernel h => exact pending_subset_closeItems _ _ _ h
  | @start i j rule _ hr hj ih =>
    have hlt : rule < (Array.replicate g.rules.size false).size := by
      simpa using Item.lt_of_mem_initial hj
    rcases closeItems_closed kernel _ i ih rule hr hlt with h | h
    · have hlt' := Item.lt_of_mem_initial hj
      simp [Array.getD, hlt'] at h
    · rcases h j hj with h | h
      · exact pending_subset_closeItems _ _ _ h
      · exact h

theorem nodup_closure (h : kernel.Nodup) : (closure g kernel).Nodup :=
  nodup_closeItems _ _ h fun _ hi => .inl hi

/-- An entailed item is of the kernel, or stands at the start of a rule before which some entailed
item has its dot. -/
theorem Entailed.cases_start {i : Item} (h : Entailed g kernel i) :
    i ∈ kernel ∨ ∃ j, Entailed g kernel j ∧ j.nextRule? g = some i.rule ∧
      i ∈ Item.initial g i.rule := by
  cases h with
  | kernel h => exact .inl h
  | @start j _ rule h hr hj =>
    obtain rfl := (Item.mem_initial_iff.1 hj).1
    exact .inr ⟨j, h, hr, hj⟩

end

end ParseForest
