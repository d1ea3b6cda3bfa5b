import ParseForest.Automaton.State
import ParseForest.Proofs.Automaton.Closure
import ParseForest.Proofs.Basic
import ParseForest.Proofs.Grammar.Built
import Mathlib.Tactic.Common
import Mathlib.Data.Finset.Powerset
import Mathlib.Data.Fintype.Card

/-!
# The canonical collection

`canonicalCollection` is the LR(0) collection (`isCollection_canonicalCollection`): state 0 is the
state of `#S ::= • first Token-EOF`, the items of a state are what its kernel entails, and a state
has a transition on every symbol after a dot, to the state whose kernel is those items advanced.

The loop expands one state at a time and only ever appends states, so `Expanded` records how far it
has come. Its fuel is enough because kernels are sorted lists of items and no two states have the
same: there are no more states than sets of items.
-/

namespace ParseForest

/-!
## Searching by key

Halving finds what is there (`searchKey_eq_some_iff`), provided that the keys increase: what is not in
the half that is searched on is on the wrong side of the middle.
-/

section

variable {β : Type} {entries below above : List (Nat × β)} {middle : Nat × β} {key : Nat} {value : β}

/-- Every key is above those before it. -/
def Increasing (entries : List (Nat × β)) : Prop := entries.Pairwise fun x y => x.1 < y.1

theorem Increasing.nodup_keys (h : Increasing entries) : (entries.map Prod.fst).Nodup :=
  (List.pairwise_map.2 h).imp Nat.ne_of_lt

/-- Around an entry stand the ones with smaller and the ones with larger keys. -/
theorem Increasing.split (h : Increasing (below ++ middle :: above)) :
    Increasing below ∧ Increasing above ∧ (∀ x ∈ below, x.1 < middle.1) ∧
      ∀ x ∈ above, middle.1 < x.1 := by
  obtain ⟨hbelow, hrest, hcross⟩ := List.pairwise_append.1 h
  obtain ⟨hmiddle, habove⟩ := List.pairwise_cons.1 hrest
  exact ⟨hbelow, habove, fun x hx => hcross x hx _ (.head _), hmiddle⟩

/-- Lists are empty, or have a middle and two halves around it. -/
theorem halving_induction {motive : List (Nat × β) → Prop} (nil : motive [])
    (split : ∀ below middle above, below.length = (below ++ middle :: above).length / 2 →
      motive below → motive above → motive (below ++ middle :: above))
    (entries : List (Nat × β)) : motive entries := by
  induction hn : entries.length using Nat.strongRecOn generalizing entries with
  | ind n ih =>
    cases hdrop : entries.drop (entries.length / 2) with
    | nil =>
      have hle := List.drop_eq_nil_iff.1 hdrop
      obtain rfl : entries = [] := List.length_eq_zero_iff.1 (by omega)
      exact nil
    | cons middle above =>
      have hsplit := List.take_append_drop (entries.length / 2) entries
      rw [hdrop] at hsplit
      have habove := congrArg List.length hdrop
      rw [List.length_drop, List.length_cons] at habove
      have hbelow : (entries.take (entries.length / 2)).length = entries.length / 2 := by
        rw [List.length_take]
        omega
      rw [← hsplit]
      exact split _ middle above (by rw [hsplit, hbelow]) (ih _ (by omega) _ rfl)
        (ih _ (by omega) _ rfl)

theorem searchKey_nil : searchKey ([] : List (Nat × β)) key = none := by
  rw [searchKey]
  split
  · rfl
  · rename_i hdrop
    rw [List.drop_nil] at hdrop
    cases hdrop

theorem searchKey_split (h : below.length = (below ++ middle :: above).length / 2) :
    searchKey (below ++ middle :: above) key =
      if key = middle.1 then some middle.2
      else if key < middle.1 then searchKey below key else searchKey above key := by
  rw [searchKey]
  split
  · rename_i hdrop
    rw [← h, List.drop_left] at hdrop
    cases hdrop
  · rename_i hdrop
    rw [← h, List.drop_left] at hdrop
    cases hdrop
    rw [← h, List.take_left]

/-- Searching finds the entry of a key. -/
theorem searchKey_eq_some_iff (h : Increasing entries) :
    searchKey entries key = some value ↔ (key, value) ∈ entries := by
  induction entries using halving_induction with
  | nil => simp [searchKey_nil]
  | split below middle above hmid ihbelow ihabove =>
    obtain ⟨hbelow, habove, hlt, hgt⟩ := h.split
    obtain ⟨k, v⟩ := middle
    have hnotbelow : k ≤ key → (key, value) ∉ below := fun hle hmem =>
      Nat.not_lt.2 hle (hlt _ hmem)
    have hnotabove : key ≤ k → (key, value) ∉ above := fun hle hmem =>
      Nat.not_lt.2 hle (hgt _ hmem)
    rw [searchKey_split hmid, List.mem_append, List.mem_cons, Prod.mk.injEq]
    rcases Nat.lt_trichotomy key k with hk | rfl | hk
    · simp [Nat.ne_of_lt hk, hk, ihbelow hbelow, hnotabove (Nat.le_of_lt hk)]
    · simp [hnotbelow, hnotabove, eq_comm]
    · simp [Nat.ne_of_gt hk, Nat.not_lt.2 (Nat.le_of_lt hk), ihabove habove,
        hnotbelow (Nat.le_of_lt hk)]

theorem isSome_searchKey_iff (h : Increasing entries) :
    (searchKey entries key).isSome ↔ ∃ x ∈ entries, x.1 = key := by
  rw [Option.isSome_iff_exists]
  constructor
  · rintro ⟨v, hv⟩
    exact ⟨(key, v), (searchKey_eq_some_iff h).1 hv, rfl⟩
  · rintro ⟨⟨k, v⟩, hmem, rfl⟩
    exact ⟨v, (searchKey_eq_some_iff h).2 hmem⟩

end

variable {g : Grammar}

/-! ## Items -/

theorem Item.mem_allItems_iff {i : Item} :
    i ∈ allItems g ↔ i.alt < (g.rule i.rule).alternatives.size ∧
      i.dot ≤ (g.alternative i.rule i.alt).length := by
  simp only [allItems, List.mem_flatMap, List.mem_range, List.mem_map]
  constructor
  · rintro ⟨rule, -, j, hj, dot, hdot, rfl⟩
    obtain ⟨rfl, -, halt⟩ := Item.mem_initial_iff.1 hj
    exact ⟨halt, Nat.le_of_lt_succ hdot⟩
  · rintro ⟨halt, hdot⟩
    have hinit : (⟨i.rule, i.alt, 0⟩ : Item) ∈ Item.initial g i.rule :=
      Item.mem_initial_iff.2 ⟨rfl, rfl, halt⟩
    exact ⟨i.rule, Item.lt_of_mem_initial hinit, _, hinit, i.dot, Nat.lt_succ_of_le hdot, rfl⟩

theorem Item.advance_mem_allItems {i : Item} {s : Symbol} (h : i ∈ allItems g)
    (hs : i.next? g = some s) : i.advance ∈ allItems g := by
  rw [Item.mem_allItems_iff] at h ⊢
  exact ⟨h.1, (List.getElem?_eq_some_iff.1 hs).1⟩

theorem Item.advance_injective : Function.Injective Item.advance := by
  rintro ⟨r, a, d⟩ ⟨r', a', d'⟩ h
  simpa [Item.advance] using h

theorem Item.le_trans (a b c : Item) (h : a.le b = true) (h' : b.le c = true) : a.le c = true := by
  simp only [Item.le, Bool.or_eq_true, Bool.and_eq_true, decide_eq_true_eq, beq_iff_eq] at *
  grind

theorem Item.le_total (a b : Item) : (a.le b || b.le a) = true := by
  simp only [Item.le, Bool.or_eq_true, Bool.and_eq_true, decide_eq_true_eq, beq_iff_eq]
  grind

theorem Item.le_antisymm (a b : Item) (h : a.le b = true) (h' : b.le a = true) : a = b := by
  obtain ⟨r, i, d⟩ := a
  obtain ⟨r', i', d'⟩ := b
  simp only [Item.le, Bool.or_eq_true, Bool.and_eq_true, decide_eq_true_eq, beq_iff_eq] at *
  simp only [Item.mk.injEq]
  grind

/-- The first symbol is before the second one in the order of transitions. -/
def Symbol.Before (a b : Symbol) : Prop := a.le b = true ∧ a ≠ b

theorem Symbol.before_terminal_iff {t t' : TerminalId} :
    (Symbol.terminal t).Before (.terminal t') ↔ t < t' := by
  simp only [Before, le, decide_eq_true_eq, ne_eq, Symbol.terminal.injEq]
  exact Nat.lt_iff_le_and_ne.symm

theorem Symbol.before_rule_iff {r r' : RuleId} : (Symbol.rule r).Before (.rule r') ↔ r < r' := by
  simp only [Before, le, decide_eq_true_eq, ne_eq, Symbol.rule.injEq]
  exact Nat.lt_iff_le_and_ne.symm

theorem Symbol.le_trans (a b c : Symbol) (h : a.le b = true) (h' : b.le c = true) :
    a.le c = true := by
  cases a <;> cases b <;> cases c <;> simp_all [le]
  all_goals exact Nat.le_trans h h'

theorem Symbol.le_total (a b : Symbol) : (a.le b || b.le a) = true := by
  cases a <;> cases b <;> simp [le]
  all_goals exact Nat.le_total _ _

theorem entailed_mem_allItems {kernel : List Item} (hk : ∀ i ∈ kernel, i ∈ allItems g) {i : Item}
    (h : Entailed g kernel i) : i ∈ allItems g := by
  rcases h.cases_start with h | ⟨j, -, -, hi⟩
  · exact hk i h
  · obtain ⟨-, hdot, halt⟩ := Item.mem_initial_iff.1 hi
    exact Item.mem_allItems_iff.2 ⟨halt, by omega⟩

/-! ## Kernels -/

/-- A kernel in canonical form: sorted, without repetition. -/
structure IsKernel (g : Grammar) (kernel : List Item) : Prop where
  sorted : kernel.Pairwise (fun a b => a.le b = true)
  nodup : kernel.Nodup
  mem_allItems : ∀ i ∈ kernel, i ∈ allItems g

/-- Kernels with the same members are the same. -/
theorem IsKernel.ext {k k' : List Item} (h : IsKernel g k) (h' : IsKernel g k')
    (he : ∀ i, i ∈ k ↔ i ∈ k') : k = k' :=
  List.Perm.eq_of_pairwise (fun a b _ _ hab hba => Item.le_antisymm a b hab hba) h.sorted h'.sorted
    ((List.perm_ext_iff_of_nodup h.nodup h'.nodup).2 he)

theorem mem_successorKernel_iff {items : List Item} {s : Symbol} {j : Item} :
    j ∈ successorKernel g items s ↔ ∃ i ∈ items, i.next? g = some s ∧ i.advance = j := by
  simp [successorKernel, and_assoc]

theorem isKernel_successorKernel {items : List Item} (hn : items.Nodup)
    (hi : ∀ i ∈ items, i ∈ allItems g) (s : Symbol) : IsKernel g (successorKernel g items s) where
  sorted := List.pairwise_mergeSort Item.le_trans Item.le_total _
  nodup := (List.mergeSort_perm _ _).nodup_iff.2 ((hn.filter _).map Item.advance_injective)
  mem_allItems j hj := by
    obtain ⟨i, hmem, hs, rfl⟩ := mem_successorKernel_iff.1 hj
    exact Item.advance_mem_allItems (hi i hmem) hs

theorem mem_nextSymbols_iff {items : List Item} {s : Symbol} :
    s ∈ nextSymbols g items ↔ ∃ i ∈ items, i.next? g = some s := by
  simp [nextSymbols, List.mem_eraseDups]

/-- The symbols after a dot are in order, none repeated. -/
theorem pairwise_nextSymbols (items : List Item) :
    (nextSymbols g items).Pairwise Symbol.Before := by
  have hsorted := List.pairwise_mergeSort Symbol.le_trans Symbol.le_total
    (items.filterMap (Item.next? g))
  exact (hsorted.sublist (List.eraseDups_sublist _)).and (List.nodup_eraseDups _)

/-! ## Growing tables of states -/

/-- A table of states whose kernels are canonical and pairwise different, of which state 0 alone has
an item with its dot at the start in its kernel. -/
structure IsTable (g : Grammar) (states : Array State) : Prop where
  pos : 0 < states.size
  first : (states.getD 0 default).kernel = [⟨g.start, 0, 0⟩]
  isKernel : ∀ q < states.size, IsKernel g (states.getD q default).kernel
  items : ∀ q < states.size,
    (states.getD q default).items = closure g (states.getD q default).kernel
  distinct : ∀ q < states.size, ∀ q' < states.size,
    (states.getD q default).kernel = (states.getD q' default).kernel → q = q'
  advanced : ∀ q < states.size, q ≠ 0 → ∀ i ∈ (states.getD q default).kernel, 0 < i.dot
  bare : ∀ q < states.size,
    (states.getD q default).reductions = [] ∧ (states.getD q default).accepting = false

/-- The second table goes on where the first one ends. -/
structure Continues (states states' : Array State) : Prop where
  size_le : states.size ≤ states'.size
  keeps : ∀ q < states.size, states'.getD q default = states.getD q default
  bare : ∀ q < states'.size, states.size ≤ q →
    (states'.getD q default).shifts = [] ∧ (states'.getD q default).gotos = []

theorem Continues.refl (states : Array State) : Continues states states :=
  ⟨Nat.le_refl _, fun _ _ => rfl, fun _ h h' => absurd h (Nat.not_lt.2 h')⟩

theorem Continues.trans {s s' s'' : Array State} (h : Continues s s') (h' : Continues s' s'') :
    Continues s s'' where
  size_le := Nat.le_trans h.size_le h'.size_le
  keeps q hq := (h'.keeps q (Nat.lt_of_lt_of_le hq h.size_le)).trans (h.keeps q hq)
  bare q hq hle := by
    by_cases hlt : q < s'.size
    · rw [h'.keeps q hlt]
      exact h.bare q hlt hle
    · exact h'.bare q hq (Nat.not_lt.1 hlt)

/-- In a table with one more state, a state is an old one or the new one. -/
theorem getD_push_cases {states : Array State} {s : State} {q : StateId}
    (hq : q < (states.push s).size) :
    (q < states.size ∧ (states.push s).getD q default = states.getD q default) ∨
      (q = states.size ∧ (states.push s).getD q default = s) := by
  rw [Array.size_push] at hq
  rcases Nat.lt_or_eq_of_le (Nat.le_of_lt_succ hq) with hlt | rfl
  · exact .inl ⟨hlt, Array.getD_push_lt hlt⟩
  · exact .inr ⟨rfl, Array.getD_push_size⟩

/-- The state of a new kernel can be added to a table. -/
theorem IsTable.push {states : Array State} (h : IsTable g states) {kernel : List Item}
    (hk : IsKernel g kernel) (hadv : ∀ i ∈ kernel, 0 < i.dot)
    (hnew : ∀ q < states.size, (states.getD q default).kernel ≠ kernel) :
    IsTable g (states.push (.ofKernel g kernel)) where
  pos := by simp
  first := by
    rw [Array.getD_push_lt h.pos]
    exact h.first
  isKernel q hq := by
    rcases getD_push_cases hq with ⟨hlt, he⟩ | ⟨-, he⟩ <;> rw [he]
    · exact h.isKernel q hlt
    · exact hk
  items q hq := by
    rcases getD_push_cases hq with ⟨hlt, he⟩ | ⟨-, he⟩ <;> rw [he]
    · exact h.items q hlt
    · rfl
  distinct q hq q' hq' he := by
    rcases getD_push_cases hq with ⟨hlt, hs⟩ | ⟨rfl, hs⟩ <;>
      rcases getD_push_cases hq' with ⟨hlt', hs'⟩ | ⟨rfl, hs'⟩
    · exact h.distinct q hlt q' hlt' (by rwa [hs, hs'] at he)
    · exact absurd (by rwa [hs, hs'] at he) (hnew q hlt)
    · exact absurd (by rwa [hs, hs', eq_comm] at he) (hnew q' hlt')
    · rfl
  advanced q hq hne := by
    rcases getD_push_cases hq with ⟨hlt, he⟩ | ⟨-, he⟩ <;> rw [he]
    · exact h.advanced q hlt hne
    · exact hadv
  bare q hq := by
    rcases getD_push_cases hq with ⟨hlt, he⟩ | ⟨-, he⟩ <;> rw [he]
    · exact h.bare q hlt
    · exact ⟨rfl, rfl⟩

theorem Continues.push (states : Array State) (kernel : List Item) :
    Continues states (states.push (.ofKernel g kernel)) where
  size_le := by simp
  keeps q hq := Array.getD_push_lt hq
  bare q hq hle := by
    rcases getD_push_cases hq with ⟨hlt, -⟩ | ⟨-, he⟩
    · exact absurd hlt (Nat.not_lt.2 hle)
    · rw [he]
      exact ⟨rfl, rfl⟩

/-- Interning a kernel answers the state that has it, which is new or was there. -/
theorem internState_spec {states : Array State} (h : IsTable g states) {kernel : List Item}
    (hk : IsKernel g kernel) (hadv : ∀ i ∈ kernel, 0 < i.dot) :
    IsTable g (internState g kernel states).2 ∧
      Continues states (internState g kernel states).2 ∧
      (internState g kernel states).1 < (internState g kernel states).2.size ∧
      ((internState g kernel states).2.getD (internState g kernel states).1 default).kernel =
        kernel ∧
      ∀ q < (internState g kernel states).2.size, states.size ≤ q →
        q = (internState g kernel states).1 := by
  unfold internState
  split
  · rename_i id hid
    obtain ⟨hlt, heq, -⟩ := Array.findIdx?_eq_some_iff_getElem.1 hid
    refine ⟨h, .refl states, hlt, ?_, fun q hq hle => absurd hq (Nat.not_lt.2 hle)⟩
    simpa [Array.getD, hlt] using heq
  · rename_i hnone
    have hnew : ∀ q < states.size, (states.getD q default).kernel ≠ kernel := by
      intro q hq
      have := Array.findIdx?_eq_none_iff.1 hnone states[q] (Array.getElem_mem hq)
      simpa [Array.getD, hq] using this
    refine ⟨h.push hk hadv hnew, .push states kernel, by simp, ?_, fun q hq hle => ?_⟩
    · rw [Array.getD_push_size]
      rfl
    · rcases getD_push_cases hq with ⟨hlt, -⟩ | ⟨rfl, -⟩
      · exact absurd hlt (Nat.not_lt.2 hle)
      · rfl

/-- The successors of a state: a transition per symbol, each to the state of its kernel. -/
theorem successors_spec {items : List Item} (hn : items.Nodup) (hi : ∀ i ∈ items, i ∈ allItems g)
    (symbols : List Symbol) {states : Array State} (h : IsTable g states) :
    IsTable g (successors g items symbols states).2 ∧
      Continues states (successors g items symbols states).2 ∧
      (successors g items symbols states).1.map Prod.fst = symbols ∧
      (∀ s q, (s, q) ∈ (successors g items symbols states).1 →
        q < (successors g items symbols states).2.size ∧
        ((successors g items symbols states).2.getD q default).kernel =
          successorKernel g items s) ∧
      ∀ q < (successors g items symbols states).2.size, states.size ≤ q →
        ∃ s, (s, q) ∈ (successors g items symbols states).1 := by
  induction symbols generalizing states with
  | nil =>
    refine ⟨h, .refl _, rfl, by simp [successors], fun q hq hle => ?_⟩
    exact absurd hq (Nat.not_lt.2 hle)
  | cons s symbols ih =>
    have hadv : ∀ j ∈ successorKernel g items s, 0 < j.dot := by
      intro j hj
      obtain ⟨i, -, -, rfl⟩ := mem_successorKernel_iff.1 hj
      exact Nat.succ_pos _
    obtain ⟨h₁, hc₁, hlt, hker, hnew₁⟩ := internState_spec h (isKernel_successorKernel hn hi s) hadv
    obtain ⟨h₂, hc₂, hkeys, htargets, hnew₂⟩ := ih h₁
    refine ⟨h₂, hc₁.trans hc₂, by simpa [successors] using hkeys, fun s' q hmem => ?_,
      fun q hq hle => ?_⟩
    rotate_left
    · by_cases hlt' : q < (internState g (successorKernel g items s) states).2.size
      · exact ⟨s, hnew₁ q hlt' hle ▸ .head _⟩
      · obtain ⟨s', hs'⟩ := hnew₂ q hq (Nat.not_lt.1 hlt')
        exact ⟨s', .tail _ hs'⟩
    rcases List.mem_cons.1 hmem with heq | hmem
    · have hs : s' = s := congrArg Prod.fst heq
      have hq : q = (internState g (successorKernel g items s) states).1 := congrArg Prod.snd heq
      rw [hs, hq]
      exact ⟨Nat.lt_of_lt_of_le hlt hc₂.size_le, (congrArg State.kernel (hc₂.keeps _ hlt)).trans hker⟩
    · exact htargets s' q hmem

/-! ## Transitions -/

theorem mem_shiftsOf_iff {transitions : List (Symbol × StateId)} {t : TerminalId} {q : StateId} :
    (t, q) ∈ shiftsOf transitions ↔ (.terminal t, q) ∈ transitions := by
  simp only [shiftsOf, List.mem_filterMap, Prod.exists, Option.map_eq_some_iff]
  constructor
  · rintro ⟨s, q, hmem, t, ht, he⟩
    cases s <;> cases ht
    cases he
    exact hmem
  · exact fun hmem => ⟨.terminal t, q, hmem, t, rfl, rfl⟩

theorem mem_gotosOf_iff {transitions : List (Symbol × StateId)} {r : RuleId} {q : StateId} :
    (r, q) ∈ gotosOf transitions ↔ (.rule r, q) ∈ transitions := by
  simp only [gotosOf, List.mem_filterMap, Prod.exists, Option.map_eq_some_iff]
  constructor
  · rintro ⟨s, q, hmem, r, hr, he⟩
    cases s <;> cases hr
    cases he
    exact hmem
  · exact fun hmem => ⟨.rule r, q, hmem, r, rfl, rfl⟩

/-- Transitions in the order of their symbols, none repeated. -/
def InOrder (transitions : List (Symbol × StateId)) : Prop :=
  (transitions.map Prod.fst).Pairwise Symbol.Before

/-- The numbers of the symbols of one kind increase when the symbols are in order. -/
theorem InOrder.increasing {transitions : List (Symbol × StateId)} (h : InOrder transitions)
    {f : Symbol → Option Nat}
    (hf : ∀ s s' n n', f s = some n → f s' = some n' → s.Before s' → n < n') :
    Increasing (transitions.filterMap fun (s, q) => (f s).map (·, q)) := by
  refine (List.pairwise_map.1 h).filterMap _ fun x y hlt => ?_
  rintro ⟨n, q⟩ hx ⟨n', q'⟩ hy
  obtain ⟨m, hm, he⟩ := Option.map_eq_some_iff.1 hx
  obtain ⟨m', hm', he'⟩ := Option.map_eq_some_iff.1 hy
  cases he
  cases he'
  exact hf _ _ _ _ hm hm' hlt

theorem InOrder.increasing_shiftsOf {transitions : List (Symbol × StateId)}
    (h : InOrder transitions) : Increasing (shiftsOf transitions) := by
  refine h.increasing (f := Symbol.terminal?) fun s s' n n' hs hs' hlt => ?_
  cases s <;> cases hs
  cases s' <;> cases hs'
  exact Symbol.before_terminal_iff.1 hlt

theorem InOrder.increasing_gotosOf {transitions : List (Symbol × StateId)}
    (h : InOrder transitions) : Increasing (gotosOf transitions) := by
  refine h.increasing (f := Symbol.rule?) fun s s' n n' hs hs' hlt => ?_
  cases s <;> cases hs
  cases s' <;> cases hs'
  exact Symbol.before_rule_iff.1 hlt

/-- A state whose transitions are those that its items call for. -/
structure IsExpanded (g : Grammar) (states : Array State) (s : State) : Prop where
  total : ∀ x ∈ nextSymbols g s.items, ∃ q, s.transition? x = some q
  target : ∀ x q, s.transition? x = some q → x ∈ nextSymbols g s.items ∧ q < states.size ∧
    (states.getD q default).kernel = successorKernel g s.items x
  increasing_shifts : Increasing s.shifts
  increasing_gotos : Increasing s.gotos

/-- The collection: a table of which every state is expanded. -/
structure IsCollection (g : Grammar) (states : Array State) : Prop extends IsTable g states where
  expanded : ∀ q < states.size, IsExpanded g states (states.getD q default)
  /-- Every state but the first was found from an earlier one -/
  reached : ∀ q < states.size, q ≠ 0 →
    ∃ p < q, ∃ x, (states.getD p default).transition? x = some q

theorem IsTable.nodup_items {states : Array State} (h : IsTable g states) {q : StateId}
    (hq : q < states.size) : (states.getD q default).items.Nodup := by
  rw [h.items q hq]
  exact nodup_closure (h.isKernel q hq).nodup

theorem IsTable.items_mem_allItems {states : Array State} (h : IsTable g states) {q : StateId}
    (hq : q < states.size) : ∀ i ∈ (states.getD q default).items, i ∈ allItems g := by
  intro i hi
  rw [h.items q hq, mem_closure_iff] at hi
  exact entailed_mem_allItems (h.isKernel q hq).mem_allItems hi

/-- A state stays expanded when states are added or change anything but their kernels. -/
theorem IsExpanded.mono {states states' : Array State} {s : State} (h : IsExpanded g states s)
    (hsize : states.size ≤ states'.size)
    (hk : ∀ q < states.size, (states'.getD q default).kernel = (states.getD q default).kernel) :
    IsExpanded g states' s where
  total := h.total
  target x q hx := by
    obtain ⟨hmem, hq, he⟩ := h.target x q hx
    exact ⟨hmem, Nat.lt_of_lt_of_le hq hsize, (hk q hq).trans he⟩
  increasing_shifts := h.increasing_shifts
  increasing_gotos := h.increasing_gotos

/-- The state with the given transitions. -/
def State.withTransitions (s : State) (transitions : List (Symbol × StateId)) : State :=
  { s with shifts := shiftsOf transitions, gotos := gotosOf transitions }

theorem transition?_withTransitions {s : State} {transitions : List (Symbol × StateId)}
    (h : InOrder transitions) {x : Symbol} {q : StateId} :
    (s.withTransitions transitions).transition? x = some q ↔ (x, q) ∈ transitions := by
  cases x with
  | rule r => exact (searchKey_eq_some_iff h.increasing_gotosOf).trans mem_gotosOf_iff
  | terminal t => exact (searchKey_eq_some_iff h.increasing_shiftsOf).trans mem_shiftsOf_iff

theorem isExpanded_withTransitions {states : Array State} {s : State}
    {transitions : List (Symbol × StateId)}
    (hkeys : transitions.map Prod.fst = nextSymbols g s.items)
    (htargets : ∀ x q, (x, q) ∈ transitions → q < states.size ∧
      (states.getD q default).kernel = successorKernel g s.items x) :
    IsExpanded g states (s.withTransitions transitions) := by
  have horder : InOrder transitions := by
    rw [InOrder, hkeys]
    exact pairwise_nextSymbols _
  refine ⟨fun x hx => ?_, fun x q hq => ?_, horder.increasing_shiftsOf, horder.increasing_gotosOf⟩
  · obtain ⟨⟨x, q⟩, hmem, rfl⟩ := List.mem_map.1 (hkeys ▸ hx)
    exact ⟨q, (transition?_withTransitions horder).2 hmem⟩
  · have hmem := (transition?_withTransitions horder).1 hq
    exact ⟨hkeys ▸ List.mem_map_of_mem hmem, htargets x q hmem⟩

/-- The states differ in their transitions at most. -/
structure State.Agrees (s s' : State) : Prop where
  kernel : s'.kernel = s.kernel
  items : s'.items = s.items
  reductions : s'.reductions = s.reductions
  accepting : s'.accepting = s.accepting

/-- A table stays one when the transitions of its states change. -/
theorem IsTable.of_agrees {states states' : Array State} (h : IsTable g states)
    (hsize : states'.size = states.size)
    (hs : ∀ q, (states.getD q default).Agrees (states'.getD q default)) : IsTable g states' := by
  constructor <;> simp only [hsize, (hs _).kernel, (hs _).items, (hs _).reductions, (hs _).accepting]
  · exact h.pos
  · exact h.first
  · exact h.isKernel
  · exact h.items
  · exact h.distinct
  · exact h.advanced
  · exact h.bare

/-- Expanding a state keeps the table, leaves the other states as they are, and expands it. -/
theorem expandState_spec {id : StateId} {states : Array State} (h : IsTable g states)
    (hid : id < states.size) :
    IsTable g (expandState g id states) ∧ states.size ≤ (expandState g id states).size ∧
      (∀ q < states.size, ((expandState g id states).getD q default).kernel =
        (states.getD q default).kernel) ∧
      (∀ q < states.size, q ≠ id → (expandState g id states).getD q default =
        states.getD q default) ∧
      IsExpanded g (expandState g id states) ((expandState g id states).getD id default) ∧
      ∀ q < (expandState g id states).size, states.size ≤ q →
        ∃ x, ((expandState g id states).getD id default).transition? x = some q := by
  generalize hitems : (states.getD id default).items = items
  obtain ⟨h', hc, hkeys, htargets, hnew⟩ := successors_spec (hitems ▸ h.nodup_items hid)
    (hitems ▸ h.items_mem_allItems hid) (nextSymbols g items) h
  generalize hss : successors g items (nextSymbols g items) states = r at h' hc hkeys htargets hnew
  obtain ⟨transitions, states'⟩ := r
  dsimp only at h' hc hkeys htargets hnew
  have hexp : expandState g id states = states'.modify id (·.withTransitions transitions) := by
    simp only [expandState, hitems, hss, State.withTransitions]
  have hsize : (expandState g id states).size = states'.size := by rw [hexp, Array.size_modify]
  have hself : (expandState g id states).getD id default =
      (states'.getD id default).withTransitions transitions := by
    rw [hexp, Array.getD_modify_self (Nat.lt_of_lt_of_le hid hc.size_le)]
  have hother : ∀ q, q ≠ id → (expandState g id states).getD q default = states'.getD q default :=
    fun q hq => by rw [hexp, Array.getD_modify_ne (Ne.symm hq)]
  have hagrees : ∀ q, (states'.getD q default).Agrees ((expandState g id states).getD q default) := by
    intro q
    by_cases hq : q = id
    · rw [hq, hself]
      exact ⟨rfl, rfl, rfl, rfl⟩
    · rw [hother q hq]
      exact ⟨rfl, rfl, rfl, rfl⟩
  have horder : InOrder transitions := by
    rw [InOrder, hkeys]
    exact pairwise_nextSymbols items
  refine ⟨h'.of_agrees hsize hagrees, hsize ▸ hc.size_le, fun q hq => ?_, fun q hq hne => ?_, ?_,
    fun q hq hle => ?_⟩
  · rw [(hagrees q).kernel, hc.keeps q hq]
  · rw [hother q hne, hc.keeps q hq]
  · have hold : (states'.getD id default).items = items := by rw [hc.keeps id hid, hitems]
    rw [hself]
    exact (isExpanded_withTransitions (hold ▸ hkeys) fun x q hx => hold ▸ htargets x q hx).mono
      (Nat.le_of_eq hsize.symm) fun q _ => (hagrees q).kernel
  · obtain ⟨x, hx⟩ := hnew q (hsize ▸ hq) hle
    exact ⟨x, hself ▸ (transition?_withTransitions horder).2 hx⟩

/-! ## Enough fuel -/

/-- There are no more states than sets of items. -/
theorem IsTable.size_le {states : Array State} (h : IsTable g states) :
    states.size ≤ 2 ^ (allItems g).length := by
  classical
  have hinj : Function.Injective fun q : Fin states.size =>
      ((states.getD q default).kernel.toFinset) := by
    intro q q' he
    refine Fin.ext (h.distinct q q.2 q' q'.2 ((h.isKernel q q.2).ext (h.isKernel q' q'.2) fun i => ?_))
    simpa using congrArg (i ∈ ·) he
  have hsub : Finset.univ.image (fun q : Fin states.size =>
      (states.getD q default).kernel.toFinset) ⊆ (allItems g).toFinset.powerset := by
    intro s hs
    obtain ⟨q, -, rfl⟩ := Finset.mem_image.1 hs
    refine Finset.mem_powerset.2 fun i hi => ?_
    simpa using (h.isKernel q q.2).mem_allItems i (by simpa using hi)
  have hcard := Finset.card_le_card hsub
  rw [Finset.card_image_of_injective _ hinj, Finset.card_univ, Fintype.card_fin,
    Finset.card_powerset] at hcard
  exact hcard.trans (Nat.pow_le_pow_right (by decide) (List.toFinset_card_le _))

theorem isCollection_expandStates {fuel : Nat} {id : StateId} {states : Array State}
    (h : IsTable g states) (hid : id ≤ states.size) (hfuel : 2 ^ (allItems g).length < id + fuel)
    (he : ∀ q < id, IsExpanded g states (states.getD q default))
    (hr : ∀ q < states.size, q ≠ 0 →
      ∃ p < q, p < id ∧ ∃ x, (states.getD p default).transition? x = some q) :
    IsCollection g (expandStates g fuel id states) := by
  induction fuel generalizing id states with
  | zero =>
    have := h.size_le
    exact absurd (Nat.lt_of_lt_of_le hfuel (Nat.le_trans hid this)) (Nat.lt_irrefl _)
  | succ fuel ih =>
    simp only [expandStates]
    split
    · rename_i hlt
      obtain ⟨h', hsize, hkernel, hother, hexp, hnew⟩ := expandState_spec h hlt
      refine ih h' (Nat.lt_of_lt_of_le hlt hsize) (by rw [Nat.add_assoc, Nat.add_comm 1]; exact hfuel)
        (fun q hq => ?_) fun q hq hne => ?_
      · rcases Nat.lt_or_eq_of_le (Nat.le_of_lt_succ hq) with hq | rfl
        · rw [hother q (Nat.lt_trans hq hlt) (Nat.ne_of_lt hq)]
          exact (he q hq).mono hsize hkernel
        · exact hexp
      · by_cases hold : q < states.size
        · obtain ⟨p, hpq, hpid, x, hx⟩ := hr q hold hne
          refine ⟨p, hpq, Nat.lt_succ_of_lt hpid, x, ?_⟩
          rwa [hother p (Nat.lt_trans hpq hold) (Nat.ne_of_lt hpid)]
        · obtain ⟨x, hx⟩ := hnew q hq (Nat.not_lt.1 hold)
          exact ⟨id, Nat.lt_of_lt_of_le hlt (Nat.not_lt.1 hold), Nat.lt_succ_self id, x, hx⟩
    · rename_i hge
      refine ⟨h, fun q hq => he q (Nat.lt_of_lt_of_le hq (Nat.not_lt.1 hge)), fun q hq hne => ?_⟩
      obtain ⟨p, hpq, -, x, hx⟩ := hr q hq hne
      exact ⟨p, hpq, x, hx⟩

theorem isTable_initial (hg : g.WellFormed) :
    IsTable g #[.ofKernel g [⟨g.start, 0, 0⟩]] where
  pos := by simp
  first := rfl
  isKernel q hq := by
    obtain rfl : q = 0 := Nat.lt_one_iff.1 (by simpa using hq)
    refine ⟨List.pairwise_singleton _ _, List.nodup_singleton _, fun i hi => ?_⟩
    obtain rfl : i = ⟨g.start, 0, 0⟩ := by simpa [State.ofKernel] using hi
    obtain ⟨a, ha, -⟩ := hg.start_alternatives
    exact Item.mem_allItems_iff.2 ⟨by simp [ha], Nat.zero_le _⟩
  items q hq := by
    obtain rfl : q = 0 := Nat.lt_one_iff.1 (by simpa using hq)
    rfl
  distinct q hq q' hq' _ := by
    obtain rfl : q = 0 := Nat.lt_one_iff.1 (by simpa using hq)
    exact (Nat.lt_one_iff.1 (by simpa using hq')).symm
  advanced q hq hne := absurd (Nat.lt_one_iff.1 (by simpa using hq)) hne
  bare q hq := by
    obtain rfl : q = 0 := Nat.lt_one_iff.1 (by simpa using hq)
    exact ⟨rfl, rfl⟩

/-- The canonical collection is the LR(0) collection of the grammar. -/
theorem isCollection_canonicalCollection (hg : g.WellFormed) :
    IsCollection g (canonicalCollection g) := by
  refine isCollection_expandStates (isTable_initial hg) (Nat.zero_le _) ?_ (by simp)
    fun q hq hne => absurd (Nat.lt_one_iff.1 (by simpa using hq)) hne
  rw [Nat.one_shiftLeft, Nat.zero_add]
  exact Nat.lt_succ_self _

end ParseForest
