import Mathlib.Data.Finset.Card
import Mathlib.Data.Finset.Range
import Mathlib.Data.List.Forall2
import Mathlib.Data.List.Nodup
import Mathlib.Data.List.Perm.Basic
import Mathlib.Logic.Relation
import Mathlib.Tactic.Common

/-!
# Lists, arrays and ranks

Facts about lists and arrays that the libraries do not have in this form; and that a relation without cycles
which only leads to numbers below a bound has a rank that it lowers.
-/

namespace List

variable {α β : Type}

theorem nodup_eraseDups [BEq α] [LawfulBEq α] (l : List α) : l.eraseDups.Nodup := by
  induction hn : l.length using Nat.strongRecOn generalizing l with
  | ind n ih =>
    cases l with
    | nil => simp
    | cons a l =>
      rw [eraseDups_cons]
      refine nodup_cons.2 ⟨by simp [mem_eraseDups], ih _ ?_ _ rfl⟩
      have := length_filter_le (fun b => !b == a) l
      simp only [length_cons] at hn
      omega

theorem eraseDups_sublist [BEq α] (l : List α) : l.eraseDups.Sublist l := by
  induction hn : l.length using Nat.strongRecOn generalizing l with
  | ind n ih =>
    cases l with
    | nil => simp
    | cons a l =>
      rw [eraseDups_cons]
      have := length_filter_le (fun b => !b == a) l
      simp only [length_cons] at hn
      exact .cons_cons a ((ih _ (by omega) _ rfl).trans filter_sublist)

/-- Where an element of a list stands that is also cut in two. -/
theorem append_cons_eq_append_cases {as bs cs ds : List α} {a : α} (h : as ++ a :: bs = cs ++ ds) :
    (∃ es, cs = as ++ a :: es ∧ bs = es ++ ds) ∨ ∃ es, as = cs ++ es ∧ ds = es ++ a :: bs := by
  rcases append_eq_append_iff.1 h with ⟨es, rfl, hes⟩ | ⟨es, rfl, hes⟩
  · cases es with
    | nil => exact .inr ⟨[], by simp, hes.symm⟩
    | cons b es =>
      obtain ⟨rfl, rfl⟩ := cons.inj hes
      exact .inl ⟨es, rfl, rfl⟩
  · exact .inr ⟨es, rfl, hes⟩

theorem exists_right_of_forall₂ {R : α → β → Prop} {l : List α} {l' : List β}
    (h : Forall₂ R l l') {a : α} (ha : a ∈ l) : ∃ b ∈ l', R a b := by
  induction h with
  | nil => cases ha
  | cons hab _ ih =>
    rcases mem_cons.1 ha with rfl | ha
    · exact ⟨_, .head _, hab⟩
    · obtain ⟨b, hb, hr⟩ := ih ha
      exact ⟨b, .tail _ hb, hr⟩

theorem forall₂_append_left_iff {R : α → β → Prop} {l₁ l₂ : List α} {l' : List β} :
    Forall₂ R (l₁ ++ l₂) l' ↔
      ∃ l₁' l₂', l' = l₁' ++ l₂' ∧ Forall₂ R l₁ l₁' ∧ Forall₂ R l₂ l₂' := by
  constructor
  · intro h
    refine ⟨l'.take l₁.length, l'.drop l₁.length, (take_append_drop _ _).symm, ?_, ?_⟩
    · simpa using forall₂_take l₁.length h
    · simpa using forall₂_drop l₁.length h
  · rintro ⟨l₁', l₂', rfl, h₁, h₂⟩
    exact rel_append h₁ h₂

end List

namespace Array

variable {α : Type}

theorem getD_push_lt {a : Array α} {x d : α} {i : Nat} (h : i < a.size) :
    (a.push x).getD i d = a.getD i d := by
  simp [Array.getD_eq_getD_getElem?, Array.getElem?_push, Nat.ne_of_lt h]

/-- An element of a longer array is an old one or the new one. -/
theorem getElem?_push_cases {a : Array α} {x y : α} {i : Nat} (h : (a.push x)[i]? = some y) :
    a[i]? = some y ∨ (i = a.size ∧ y = x) := by
  rw [getElem?_push] at h
  split at h
  · exact .inr ⟨‹_›, (Option.some.inj h).symm⟩
  · exact .inl h

theorem getD_push_size {a : Array α} {x d : α} : (a.push x).getD a.size d = x := by
  simp [Array.getD_eq_getD_getElem?]

theorem getD_of_size_le {a : Array α} {d : α} {i : Nat} (h : a.size ≤ i) : a.getD i d = d := by
  simp [Array.getD, Nat.not_lt.2 h]

theorem getD_setIfInBounds {a : Array α} {i j : Nat} {x d : α} :
    (a.setIfInBounds i x).getD j d = if j = i ∧ i < a.size then x else a.getD j d := by
  simp only [Array.getD_eq_getD_getElem?, Array.getElem?_setIfInBounds]
  by_cases hij : i = j
  · subst hij
    by_cases h : i < a.size <;> simp [h]
  · simp [hij, Ne.symm hij]

theorem getD_modify_self {a : Array α} {i : Nat} {f : α → α} {d : α} (h : i < a.size) :
    (a.modify i f).getD i d = f (a.getD i d) := by
  simp [Array.getD_eq_getD_getElem?, Array.getElem_modify, h]

theorem getD_modify_ne {a : Array α} {i j : Nat} {f : α → α} {d : α} (h : i ≠ j) :
    (a.modify i f).getD j d = a.getD j d := by
  simp [Array.getD_eq_getD_getElem?, Array.getElem?_modify, h]

theorem getD_mapIdx {β : Type} {a : Array α} {f : Nat → α → β} {i : Nat} {x : α} {d : β}
    (h : a[i]? = some x) : (a.mapIdx f).getD i d = f i x := by
  simp [Array.getD_eq_getD_getElem?, h]

theorem zipIdx_toList (a : Array α) (d : α) :
    a.toList.zipIdx = (List.range a.size).map fun i => (a.getD i d, i) := by
  refine List.ext_getElem (by simp) fun i hi _ => ?_
  have h : i < a.size := by simpa using hi
  simp [Array.getD, h]

end Array

namespace ParseForest

/-- A relation without cycles that only leads to numbers below `n` has a rank that it lowers, and that is at
most `n`: how many numbers can be reached. -/
theorem exists_rank {n : Nat} {R : Nat → Nat → Prop} (hlt : ∀ a b, R a b → b < n)
    (hirr : ∀ a, ¬ Relation.TransGen R a a) : ∃ rank : Nat → Nat, (∀ a, rank a ≤ n) ∧
      (∀ a b, R a b → rank b < rank a) ∧ ∀ a, (∀ b, ¬ R a b) → rank a = 0 := by
  classical
  let reached (a : Nat) : Finset Nat := (Finset.range n).filter (Relation.TransGen R a)
  refine ⟨fun a => (reached a).card, fun a => ?_, fun a b hab => ?_, fun a ha => ?_⟩
  · simpa using Finset.card_filter_le (Finset.range n) (Relation.TransGen R a)
  · apply Finset.card_lt_card
    rw [Finset.ssubset_iff_of_subset]
    · refine ⟨b, ?_, fun hb => hirr b (Finset.mem_filter.1 hb).2⟩
      exact Finset.mem_filter.2 ⟨Finset.mem_range.2 (hlt a b hab), .single hab⟩
    · intro c hc
      obtain ⟨hcn, hbc⟩ := Finset.mem_filter.1 hc
      exact Finset.mem_filter.2 ⟨hcn, .head hab hbc⟩
  · refine Finset.card_eq_zero.2 (Finset.filter_eq_empty_iff.2 fun c _ hc => ?_)
    obtain ⟨b, hab, -⟩ := Relation.TransGen.head'_iff.1 hc
    exact ha b hab

/-- A relation that lowers some number has no cycles. -/
theorem not_transGen_of_lt {R : Nat → Nat → Prop} (f : Nat → Nat) (h : ∀ a b, R a b → f b < f a)
    (a : Nat) : ¬ Relation.TransGen R a a := by
  intro hcycle
  have hlower : ∀ b, Relation.TransGen R a b → f b < f a := by
    intro b hb
    induction hb with
    | single hab => exact h _ _ hab
    | tail _ hbc ih => exact Nat.lt_trans (h _ _ hbc) ih
  exact Nat.lt_irrefl _ (hlower a hcycle)

end ParseForest
