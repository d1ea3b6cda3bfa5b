import ParseForest.Automaton.Basic
import ParseForest.Proofs.Automaton.Collection

/-!
# Walking over the automaton

What items say about transitions: an item moves its dot along a walk (`IsLR0.walk_item`) and an
item whose dot has moved came from where the walk began (`IsLR0.exists_walk`, `IsLR0.walk_back`).
All transitions into a state are on one symbol (`IsLR0.access`), which is why a parser may pop edges
of its stack without looking at what they are labelled with.

`IsLR0` is stated for a table of states with or without reductions, since reductions are filled in
after the collection is complete.
-/

namespace ParseForest

/-- The state that a list of symbols leads to. -/
def walkFrom (states : Array State) : StateId → List Symbol → Option StateId
  | q, [] => some q
  | q, x :: rest => ((states.getD q default).transition? x).bind (walkFrom states · rest)

/-- The state that a list of symbols leads to. -/
def Automaton.walk? (a : Automaton) (q : StateId) (α : List Symbol) : Option StateId :=
  walkFrom a.states q α

section

variable {states : Array State}

theorem walkFrom_append (q : StateId) (α β : List Symbol) :
    walkFrom states q (α ++ β) = (walkFrom states q α).bind (walkFrom states · β) := by
  induction α generalizing q with
  | nil => rfl
  | cons x α ih =>
    simp only [List.cons_append, walkFrom]
    cases (states.getD q default).transition? x with
    | none => rfl
    | some q' => exact ih q'

theorem walkFrom_append_eq_some {q r : StateId} {α β : List Symbol} :
    walkFrom states q (α ++ β) = some r ↔
      ∃ p, walkFrom states q α = some p ∧ walkFrom states p β = some r := by
  rw [walkFrom_append, Option.bind_eq_some_iff]

theorem walkFrom_singleton (q : StateId) (x : Symbol) :
    walkFrom states q [x] = (states.getD q default).transition? x := by
  simp [walkFrom]

/-- A walk depends on transitions only. -/
theorem walkFrom_congr {states' : Array State}
    (h : ∀ q x, (states'.getD q default).transition? x = (states.getD q default).transition? x)
    (q : StateId) (α : List Symbol) : walkFrom states' q α = walkFrom states q α := by
  induction α generalizing q with
  | nil => rfl
  | cons x α ih =>
    simp only [walkFrom, h]
    cases (states.getD q default).transition? x with
    | none => rfl
    | some q' => exact ih q'

end

/-- The states form the LR(0) automaton of the grammar, whatever their reductions. -/
structure IsLR0 (g : Grammar) (states : Array State) : Prop where
  pos : 0 < states.size
  first : (states.getD 0 default).kernel = [⟨g.start, 0, 0⟩]
  mem_items_iff : ∀ q < states.size, ∀ i,
    i ∈ (states.getD q default).items ↔ Entailed g (states.getD q default).kernel i
  nodup_items : ∀ q < states.size, (states.getD q default).items.Nodup
  mem_allItems : ∀ q < states.size, ∀ i ∈ (states.getD q default).items, i ∈ allItems g
  advanced : ∀ q < states.size, q ≠ 0 → ∀ i ∈ (states.getD q default).kernel, 0 < i.dot
  total : ∀ q < states.size, ∀ i ∈ (states.getD q default).items, ∀ x, i.next? g = some x →
    ∃ q', (states.getD q default).transition? x = some q'
  target : ∀ q x q', (states.getD q default).transition? x = some q' → q < states.size ∧
    q' < states.size ∧ (∃ i ∈ (states.getD q default).items, i.next? g = some x) ∧
    ∀ j, j ∈ (states.getD q' default).kernel ↔
      ∃ i ∈ (states.getD q default).items, i.next? g = some x ∧ i.advance = j
  increasing_shifts : ∀ q, Increasing (states.getD q default).shifts
  increasing_gotos : ∀ q, Increasing (states.getD q default).gotos
  reached : ∀ q < states.size, q ≠ 0 →
    ∃ p < q, ∃ x, (states.getD p default).transition? x = some q
  /-- The first state has no transition into it -/
  ne_zero : ∀ q x, (states.getD q default).transition? x ≠ some 0

variable {g : Grammar} {states : Array State}

theorem transition?_default (x : Symbol) : (default : State).transition? x = none := by
  cases x <;> exact searchKey_nil

theorem IsCollection.isLR0 (h : IsCollection g states) : IsLR0 g states := by
  have htarget : ∀ q x q', (states.getD q default).transition? x = some q' → q < states.size ∧
      q' < states.size ∧ (∃ i ∈ (states.getD q default).items, i.next? g = some x) ∧
      ∀ j, j ∈ (states.getD q' default).kernel ↔
        ∃ i ∈ (states.getD q default).items, i.next? g = some x ∧ i.advance = j := by
    intro q x q' hx
    have hq : q < states.size := by
      by_contra hge
      rw [Array.getD_of_size_le (Nat.not_lt.1 hge), transition?_default] at hx
      cases hx
    obtain ⟨hmem, hq', hk⟩ := (h.expanded q hq).target x q' hx
    refine ⟨hq, hq', mem_nextSymbols_iff.1 hmem, fun j => ?_⟩
    rw [hk, mem_successorKernel_iff]
  refine ⟨h.pos, h.first, fun q hq i => ?_, fun q hq => h.nodup_items hq,
    fun q hq => h.items_mem_allItems hq, h.advanced, fun q hq i hi x hx => ?_, htarget,
    fun q => ?_, fun q => ?_, h.reached, fun q x hx => ?_⟩
  · rw [h.items q hq, mem_closure_iff]
  · exact (h.expanded q hq).total x (mem_nextSymbols_iff.2 ⟨i, hi, hx⟩)
  · by_cases hq : q < states.size
    · exact (h.expanded q hq).increasing_shifts
    · rw [Array.getD_of_size_le (Nat.not_lt.1 hq)]
      exact .nil
  · by_cases hq : q < states.size
    · exact (h.expanded q hq).increasing_gotos
    · rw [Array.getD_of_size_le (Nat.not_lt.1 hq)]
      exact .nil
  · obtain ⟨-, -, ⟨i, hi, hix⟩, hk⟩ := htarget q x 0 hx
    have hj := (hk i.advance).2 ⟨i, hi, hix, rfl⟩
    rw [h.first, List.mem_singleton] at hj
    exact absurd (congrArg Item.dot hj) (Nat.succ_ne_zero _)

/-- Reductions and acceptance do not matter. -/
theorem IsLR0.congr (h : IsLR0 g states) {states' : Array State} (hsize : states'.size = states.size)
    (hs : ∀ q, ∃ rs acc, states'.getD q default =
      { states.getD q default with reductions := rs, accepting := acc }) : IsLR0 g states' := by
  have hk : ∀ q, (states'.getD q default).kernel = (states.getD q default).kernel := fun q => by
    obtain ⟨rs, acc, he⟩ := hs q
    rw [he]
  have hi : ∀ q, (states'.getD q default).items = (states.getD q default).items := fun q => by
    obtain ⟨rs, acc, he⟩ := hs q
    rw [he]
  have ht : ∀ q x, (states'.getD q default).transition? x =
      (states.getD q default).transition? x := fun q x => by
    obtain ⟨rs, acc, he⟩ := hs q
    rw [he]
    cases x <;> rfl
  have hsh : ∀ q, (states'.getD q default).shifts = (states.getD q default).shifts := fun q => by
    obtain ⟨rs, acc, he⟩ := hs q
    rw [he]
  have hg : ∀ q, (states'.getD q default).gotos = (states.getD q default).gotos := fun q => by
    obtain ⟨rs, acc, he⟩ := hs q
    rw [he]
  constructor
  all_goals simp only [hsize, hk, hi, ht, hsh, hg]
  · exact h.pos
  · exact h.first
  · exact h.mem_items_iff
  · exact h.nodup_items
  · exact h.mem_allItems
  · exact h.advanced
  · exact h.total
  · exact h.target
  · exact h.increasing_shifts
  · exact h.increasing_gotos
  · exact h.reached
  · exact h.ne_zero

/-! ## Items along transitions -/

theorem Item.next?_eq {rule : RuleId} {alt dot : Nat} :
    (Item.mk rule alt dot).next? g = (g.alternative rule alt).symbols[dot]? := rfl

/-- The symbols after the dot begin with the next one. -/
theorem Item.next?_of_drop {i : Item} {x : Symbol} {rest : List Symbol}
    (h : (g.alternative i.rule i.alt).symbols.drop i.dot = x :: rest) : i.next? g = some x := by
  rw [Item.next?_eq, ← List.head?_drop, h, List.head?_cons]

theorem Item.nextRule?_eq_some_iff {i : Item} {rule : RuleId} :
    i.nextRule? g = some rule ↔ i.next? g = some (.rule rule) := by
  rw [Item.nextRule?, Option.bind_eq_some_iff]
  constructor
  · rintro ⟨s, hs, hr⟩
    cases s with
    | rule r => rw [hs, Option.some.inj hr]
    | terminal t => cases hr
  · exact fun h => ⟨_, h, rfl⟩

namespace IsLR0

variable (h : IsLR0 g states)
include h

theorem target_lt {q q' : StateId} {x : Symbol}
    (hx : (states.getD q default).transition? x = some q') : q' < states.size :=
  (h.target q x q' hx).2.1

theorem source_lt {q q' : StateId} {x : Symbol}
    (hx : (states.getD q default).transition? x = some q') : q < states.size :=
  (h.target q x q' hx).1

theorem walk_lt {q q' : StateId} {α : List Symbol} (hq : q < states.size)
    (hw : walkFrom states q α = some q') : q' < states.size := by
  induction α generalizing q with
  | nil => exact Option.some.inj hw ▸ hq
  | cons x α ih =>
    obtain ⟨p, hp, hw⟩ := Option.bind_eq_some_iff.1 hw
    exact ih (h.target_lt hp) hw

/-- An item moves its dot over a symbol. -/
theorem step_item {q q' : StateId} {x : Symbol} {i : Item}
    (hi : i ∈ (states.getD q default).items) (hx : i.next? g = some x)
    (ht : (states.getD q default).transition? x = some q') :
    i.advance ∈ (states.getD q' default).items := by
  obtain ⟨-, hq', -, hk⟩ := h.target q x q' ht
  exact (h.mem_items_iff q' hq' _).2 (.kernel ((hk _).2 ⟨i, hi, hx, rfl⟩))

/-- An item whose dot is not at the start had its dot one symbol before in every state from which a
transition leads to its state. -/
theorem step_back {q q' : StateId} {x : Symbol} {j : Item}
    (ht : (states.getD q default).transition? x = some q')
    (hj : j ∈ (states.getD q' default).items) (hdot : 0 < j.dot) :
    ∃ i ∈ (states.getD q default).items, i.next? g = some x ∧ i.advance = j := by
  obtain ⟨-, hq', -, hk⟩ := h.target q x q' ht
  rcases ((h.mem_items_iff q' hq' j).1 hj).cases_start with hj | ⟨_, -, -, hinit⟩
  · exact (hk j).1 hj
  · exact absurd (Item.mem_initial_iff.1 hinit).2.1 (Nat.ne_of_gt hdot)

theorem step_back_eq {q q' : StateId} {x : Symbol} {rule : RuleId} {alt dot : Nat}
    (ht : (states.getD q default).transition? x = some q')
    (hj : ⟨rule, alt, dot + 1⟩ ∈ (states.getD q' default).items) :
    ⟨rule, alt, dot⟩ ∈ (states.getD q default).items ∧
      (g.alternative rule alt).symbols[dot]? = some x := by
  obtain ⟨⟨r, a, d⟩, hi, hx, he⟩ := h.step_back ht hj (Nat.succ_pos _)
  obtain ⟨rfl, rfl, hd⟩ := Item.mk.inj he
  obtain rfl := Nat.succ.inj hd
  exact ⟨hi, hx⟩

/-- All transitions into a state are on the same symbol. -/
theorem access {p q r : StateId} {x y : Symbol}
    (hx : (states.getD p default).transition? x = some r)
    (hy : (states.getD q default).transition? y = some r) : x = y := by
  obtain ⟨-, hr, ⟨i, hi, hix⟩, -⟩ := h.target p x r hx
  have hadv := h.step_item hi hix hx
  obtain ⟨j, -, hjy, he⟩ := h.step_back hy hadv (Nat.succ_pos _)
  obtain rfl := Item.advance_injective he
  exact Option.some.inj (hix.symm.trans hjy)

/-- An item at the start of a rule is there because the rule stands after a dot, or it is the item
that everything begins with. -/
theorem start_cases {q : StateId} (hq : q < states.size) {rule : RuleId} {alt : Nat}
    (hi : ⟨rule, alt, 0⟩ ∈ (states.getD q default).items) :
    (q = 0 ∧ rule = g.start) ∨
      ∃ j ∈ (states.getD q default).items, j.next? g = some (.rule rule) := by
  rcases ((h.mem_items_iff q hq _).1 hi).cases_start with hk | ⟨j, hj, hr, -⟩
  · left
    by_cases h0 : q = 0
    · subst h0
      rw [h.first, List.mem_singleton] at hk
      exact ⟨rfl, (Item.mk.inj hk).1⟩
    · exact absurd (h.advanced q hq h0 _ hk) (Nat.lt_irrefl 0)
  · exact .inr ⟨j, (h.mem_items_iff q hq j).2 hj, Item.nextRule?_eq_some_iff.1 hr⟩

/-- Where a rule stands after a dot, its items are at the start. -/
theorem item_start {q : StateId} (hq : q < states.size) {i : Item} {rule : RuleId}
    (hi : i ∈ (states.getD q default).items) (hx : i.next? g = some (.rule rule)) {alt : Nat}
    (ha : alt < (g.rule rule).alternatives.size) :
    ⟨rule, alt, 0⟩ ∈ (states.getD q default).items := by
  refine (h.mem_items_iff q hq _).2 (.start ((h.mem_items_iff q hq i).1 hi)
    (Item.nextRule?_eq_some_iff.2 hx) (Item.mem_initial_iff.2 ⟨rfl, rfl, ha⟩))

/-- A goto on a rule puts its items at the start. -/
theorem item_of_goto {q q' : StateId} {rule : RuleId}
    (hx : (states.getD q default).transition? (.rule rule) = some q') {alt : Nat}
    (ha : alt < (g.rule rule).alternatives.size) :
    ⟨rule, alt, 0⟩ ∈ (states.getD q default).items := by
  obtain ⟨hq, -, ⟨i, hi, hix⟩, -⟩ := h.target q _ q' hx
  exact h.item_start hq hi hix ha

theorem item_first : ⟨g.start, 0, 0⟩ ∈ (states.getD 0 default).items :=
  (h.mem_items_iff 0 h.pos _).2 (.kernel (by rw [h.first]; exact .head _))

/-- An item moves its dot along the symbols after it. -/
theorem walk_item {q : StateId} (hq : q < states.size) {rule : RuleId} {alt dot : Nat}
    (hi : ⟨rule, alt, dot⟩ ∈ (states.getD q default).items) {α β : List Symbol}
    (hs : (g.alternative rule alt).symbols.drop dot = α ++ β) :
    ∃ q', walkFrom states q α = some q' ∧
      ⟨rule, alt, dot + α.length⟩ ∈ (states.getD q' default).items := by
  induction α generalizing q dot with
  | nil => exact ⟨q, rfl, hi⟩
  | cons x α ih =>
    have hx : (g.alternative rule alt).symbols[dot]? = some x := by
      have := congrArg List.head? hs
      simpa using this
    have hdrop : (g.alternative rule alt).symbols.drop (dot + 1) = α ++ β := by
      rw [← List.drop_drop, hs]
      rfl
    obtain ⟨p, hp⟩ := h.total q hq _ hi x hx
    obtain ⟨q', hw, hi'⟩ := ih (h.target_lt hp) (h.step_item hi hx hp) hdrop
    refine ⟨q', by rw [walkFrom, hp]; exact hw, ?_⟩
    rw [List.length_cons, Nat.add_comm α.length 1, ← Nat.add_assoc]
    exact hi'

/-- An item whose dot has moved over symbols had its dot before them wherever a walk over them
began. -/
theorem walk_back {p q : StateId} {rule : RuleId} {alt dot : Nat} {α : List Symbol}
    (hw : walkFrom states p α = some q)
    (hi : ⟨rule, alt, dot + α.length⟩ ∈ (states.getD q default).items) :
    ⟨rule, alt, dot⟩ ∈ (states.getD p default).items := by
  induction α generalizing p dot with
  | nil => exact Option.some.inj hw ▸ hi
  | cons x α ih =>
    obtain ⟨p', hp, hw⟩ := Option.bind_eq_some_iff.1 hw
    rw [List.length_cons, Nat.add_comm α.length 1, ← Nat.add_assoc] at hi
    exact (h.step_back_eq hp (ih hw hi)).1

/-- Every item has come from where its dot was at the start. -/
theorem exists_walk {q : StateId} (hq : q < states.size) {rule : RuleId} {alt dot : Nat}
    (hi : ⟨rule, alt, dot⟩ ∈ (states.getD q default).items) :
    ∃ p < states.size, walkFrom states p ((g.alternative rule alt).symbols.take dot) = some q ∧
      ⟨rule, alt, 0⟩ ∈ (states.getD p default).items := by
  induction dot generalizing q with
  | zero => exact ⟨q, hq, rfl, hi⟩
  | succ dot ih =>
    have h0 : q ≠ 0 := by
      rintro rfl
      rcases ((h.mem_items_iff 0 hq _).1 hi).cases_start with hk | ⟨_, -, -, hinit⟩
      · rw [h.first, List.mem_singleton] at hk
        exact absurd (Item.mk.inj hk).2.2 (Nat.succ_ne_zero _)
      · exact absurd (Item.mem_initial_iff.1 hinit).2.1 (Nat.succ_ne_zero _)
    obtain ⟨r, -, x, hx⟩ := h.reached q hq h0
    obtain ⟨hi', hsym⟩ := h.step_back_eq hx hi
    obtain ⟨p, hp, hw, hstart⟩ := ih (h.source_lt hx) hi'
    refine ⟨p, hp, ?_, hstart⟩
    rw [List.take_add_one, hsym, walkFrom_append_eq_some]
    exact ⟨r, hw, by rw [Option.toList_some, walkFrom_singleton, hx]⟩

end IsLR0

end ParseForest
