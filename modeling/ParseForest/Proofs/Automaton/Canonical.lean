import ParseForest.Proofs.Automaton.Transitions
import Mathlib.Data.List.Permutation
import Mathlib.Order.Bounds.Basic

/-!
# The collection as a whole

What the loop over growing states arrives at (`isCanonical_canonicalCollection`): it stops by itself,
every set of items that can be reached from the first one is a state once, in canonical form, and the
transitions that a search finds are those between them. Transitions are entries of two lists
(`State.HasTransition`); searching is right because the keys increase.
-/

namespace ParseForest

variable {g : Grammar} {states : Array State}

/-- The lists of the state say that the symbol leads to the other one. -/
def State.HasTransition (s : State) : Symbol → StateId → Prop
  | .terminal t, q => (t, q) ∈ s.shifts
  | .rule r, q => (r, q) ∈ s.gotos

/-- The sets of items that contain a kernel and, with an item whose dot stands before a rule, all
items at the start of that rule. -/
def closedSets (g : Grammar) (kernel : List Item) : Set (Set Item) :=
  {I | (∀ i ∈ kernel, i ∈ I) ∧
    ∀ i ∈ I, ∀ rule, i.nextRule? g = some rule → ∀ j ∈ Item.initial g rule, j ∈ I}

/-- What a kernel entails is the least closed set. -/
theorem isLeast_entailed (g : Grammar) (kernel : List Item) :
    IsLeast (closedSets g kernel) {i | Entailed g kernel i} := by
  refine ⟨⟨fun i hi => .kernel hi, fun i hi rule hr j hj => .start hi hr hj⟩, ?_⟩
  rintro I ⟨hkernel, hclosed⟩ i (hi : Entailed g kernel i)
  induction hi with
  | kernel h => exact hkernel _ h
  | start _ hr hj ih => exact hclosed _ ih _ hr _ hj

/-! ## Searching -/

theorem IsLR0.shift?_eq_some_iff (h : IsLR0 g states) {p : StateId} {t : TerminalId} {q : StateId} :
    (states.getD p default).shift? t = some q ↔ (t, q) ∈ (states.getD p default).shifts :=
  searchKey_eq_some_iff (h.increasing_shifts p)

theorem IsLR0.transition?_eq_some_iff (h : IsLR0 g states) {p : StateId} {x : Symbol}
    {q : StateId} :
    (states.getD p default).transition? x = some q ↔ (states.getD p default).HasTransition x q := by
  cases x with
  | rule r => exact h.goto?_eq_some_iff
  | terminal t => exact h.shift?_eq_some_iff

/-- A transition on a symbol is to the state of the items that have the symbol after the dot. -/
theorem IsCollection.transition?_eq_some_iff (h : IsCollection g states) {p q : StateId}
    (hp : p < states.size) (hq : q < states.size) {x : Symbol} :
    (states.getD p default).transition? x = some q ↔
      (∃ i ∈ (states.getD p default).items, i.next? g = some x) ∧
      ∀ j, j ∈ (states.getD q default).kernel ↔
        ∃ i ∈ (states.getD p default).items, i.next? g = some x ∧ i.advance = j := by
  constructor
  · intro hx
    exact (h.isLR0.target p x q hx).2.2
  · rintro ⟨⟨i, hi, hx⟩, hkernel⟩
    obtain ⟨q', hq'⟩ := h.isLR0.total p hp i hi x hx
    obtain ⟨-, hlt, -, hkernel'⟩ := h.isLR0.target p x q' hq'
    -- kernels in canonical form with the same members are equal, and then so are their states
    obtain rfl : q = q' := h.distinct q hq q' hlt <|
      (h.isKernel q hq).ext (h.isKernel q' hlt) fun j => (hkernel j).trans (hkernel' j).symm
    exact hq'

/-! ## The run -/

/-- Every state is reached from the first one along transitions. -/
theorem IsCollection.reachable (h : IsCollection g states) (q : StateId) (hq : q < states.size) :
    Relation.ReflTransGen (fun p q => ∃ x, (states.getD p default).HasTransition x q) 0 q := by
  induction q using Nat.strongRecOn with
  | ind q ih =>
    by_cases h0 : q = 0
    · exact h0 ▸ .refl
    · obtain ⟨p, hpq, x, hx⟩ := h.reached q hq h0
      exact (ih p hpq (Nat.lt_trans hpq hq)).tail ⟨x, h.isLR0.transition?_eq_some_iff.1 hx⟩

/-- With fuel for all states there are, more fuel makes no difference. -/
theorem expandStates_add {fuel : Nat} {id : StateId} {states : Array State} (h : IsTable g states)
    (hid : id ≤ states.size) (hfuel : 2 ^ (allItems g).length < id + fuel) (more : Nat) :
    expandStates g (fuel + more) id states = expandStates g fuel id states := by
  induction fuel generalizing id states with
  | zero => exact absurd (Nat.lt_of_lt_of_le hfuel (Nat.le_trans hid h.size_le)) (Nat.lt_irrefl _)
  | succ fuel ih =>
    rw [show fuel + 1 + more = fuel + more + 1 by omega, expandStates, expandStates]
    split
    · rename_i hlt
      obtain ⟨h', hsize, -⟩ := expandState_spec h hlt
      exact ih h' (Nat.lt_of_lt_of_le hlt hsize)
        (by rw [Nat.add_assoc, Nat.add_comm 1]; exact hfuel)
    · rfl

theorem expandStates_eq_canonicalCollection (hg : g.WellFormed) {fuel : Nat}
    (hfuel : 2 ^ (allItems g).length < fuel) :
    expandStates g fuel 0 #[.ofKernel g [⟨g.start, 0, 0⟩]] = canonicalCollection g := by
  obtain ⟨more, rfl⟩ := Nat.exists_eq_add_of_lt hfuel
  rw [show 2 ^ (allItems g).length + more + 1 = 2 ^ (allItems g).length + 1 + more by omega,
    canonicalCollection, Nat.one_shiftLeft]
  refine expandStates_add (isTable_initial hg) (Nat.zero_le _) ?_ more
  rw [Nat.zero_add]
  exact Nat.lt_succ_self _

/-- The states are the canonical LR(0) collection of the grammar. -/
structure IsCanonical (g : Grammar) (states : Array State) : Prop where
  /-- The first state has the kernel `#S ::= • first Token-EOF` -/
  first : 0 < states.size ∧ (states.getD 0 default).kernel = [⟨g.start, 0, 0⟩] ∧
    (g.alternative g.start 0).symbols = [.rule g.first, .rule g.eofRule]
  kernel : ∀ q < states.size,
    (states.getD q default).kernel.Pairwise (fun i j => i.le j = true) ∧
      (states.getD q default).kernel.Nodup
  distinct : ∀ q < states.size, ∀ q' < states.size,
    (states.getD q default).kernel = (states.getD q' default).kernel → q = q'
  items : ∀ q < states.size, (states.getD q default).items.Nodup ∧
    IsLeast (closedSets g (states.getD q default).kernel) {i | i ∈ (states.getD q default).items}
  increasing : ∀ q < states.size,
    (states.getD q default).shifts.Pairwise (fun x y => x.1 < y.1) ∧
      (states.getD q default).gotos.Pairwise (fun x y => x.1 < y.1)
  target_lt : ∀ p < states.size, ∀ x q, (states.getD p default).HasTransition x q → q < states.size
  /-- A symbol leads to the state of the items that it stands in after the dot, advanced -/
  hasTransition_iff : ∀ p < states.size, ∀ x, ∀ q < states.size, (states.getD p default).HasTransition x q ↔
    (∃ i ∈ (states.getD p default).items, i.next? g = some x) ∧
      ∀ j, j ∈ (states.getD q default).kernel ↔
        ∃ i ∈ (states.getD p default).items, i.next? g = some x ∧ i.advance = j
  /-- Searching finds the transitions -/
  transition?_iff : ∀ p < states.size, ∀ x q,
    (states.getD p default).transition? x = some q ↔ (states.getD p default).HasTransition x q
  reachable : ∀ q < states.size,
    Relation.ReflTransGen (fun p q => ∃ x, (states.getD p default).HasTransition x q) 0 q

theorem IsCollection.isCanonical (h : IsCollection g states) (hg : g.WellFormed) :
    IsCanonical g states where
  first := by
    obtain ⟨a, ha, hs⟩ := hg.start_alternatives
    refine ⟨h.pos, h.first, ?_⟩
    rw [Grammar.alternative, ha]
    exact hs
  kernel q hq := ⟨(h.isKernel q hq).sorted, (h.isKernel q hq).nodup⟩
  distinct := h.distinct
  items q hq := by
    refine ⟨h.nodup_items hq, ?_⟩
    simp only [h.isLR0.mem_items_iff q hq]
    exact isLeast_entailed g _
  increasing q _ := ⟨h.isLR0.increasing_shifts q, h.isLR0.increasing_gotos q⟩
  target_lt p _ x q hx := h.isLR0.target_lt (h.isLR0.transition?_eq_some_iff.2 hx)
  hasTransition_iff p hp x q hq := by
    rw [← h.isLR0.transition?_eq_some_iff]
    exact h.transition?_eq_some_iff hp hq
  transition?_iff _ _ _ _ := h.isLR0.transition?_eq_some_iff
  reachable := h.reachable

/-- Every built grammar gets its canonical collection. The loop that finds the states stops by itself:
there are fewer states than the fuel allows, and more fuel makes no difference. -/
theorem isCanonical_canonicalCollection (hg : g.Built) :
    IsCanonical g (canonicalCollection g) ∧
      (canonicalCollection g).size ≤ 2 ^ (allItems g).length ∧
      ∀ fuel, 2 ^ (allItems g).length < fuel →
        expandStates g fuel 0 #[.ofKernel g [⟨g.start, 0, 0⟩]] = canonicalCollection g := by
  have h := isCollection_canonicalCollection hg.wellFormed
  exact ⟨h.isCanonical hg.wellFormed, h.size_le,
    fun fuel hf => expandStates_eq_canonicalCollection hg.wellFormed hf⟩

/-- The collection of the grammar of one or more `a` has six states. The first begins `#S`, and with it a list
and an item. The terminal `a` leads from there to the state where an item has been recognised, and to no
other. -/
theorem isCanonical_list : Grammar.list.Built ∧ (canonicalCollection Grammar.list).size = 6 ∧
    ((canonicalCollection Grammar.list).getD 0 default).kernel = [⟨0, 0, 0⟩] ∧
    ⟨2, 1, 0⟩ ∈ ((canonicalCollection Grammar.list).getD 0 default).items ∧
    ((canonicalCollection Grammar.list).getD 0 default).HasTransition (.terminal 0) 2 ∧
    ⟨2, 1, 1⟩ ∈ ((canonicalCollection Grammar.list).getD 2 default).kernel ∧
    ∀ q < 6, ((canonicalCollection Grammar.list).getD 0 default).HasTransition (.terminal 0) q → q = 2 := by
  obtain ⟨h, -, -⟩ := isCanonical_canonicalCollection Grammar.list_built
  have hsize : (canonicalCollection Grammar.list).size = 6 := by cbv
  have hlt : ∀ {q}, q < 6 → q < (canonicalCollection Grammar.list).size := fun hq => hsize ▸ hq
  obtain ⟨-, hkernel, -⟩ := h.first
  obtain ⟨hin, hclosed⟩ := (h.items 0 (hlt (by decide))).2.1
  have hstart : ⟨0, 0, 0⟩ ∈ ((canonicalCollection Grammar.list).getD 0 default).items :=
    hin _ (hkernel ▸ .head _)
  have hitem : ⟨2, 1, 0⟩ ∈ ((canonicalCollection Grammar.list).getD 0 default).items :=
    hclosed _ hstart 2 rfl _ (by decide)
  have hfind : ((canonicalCollection Grammar.list).getD 0 default).transition? (.terminal 0) = some 2 := by cbv
  have htransition := (h.transition?_iff 0 (hlt (by decide)) _ 2).1 hfind
  obtain ⟨-, hadvance⟩ := (h.hasTransition_iff 0 (hlt (by decide)) _ 2 (hlt (by decide))).1 htransition
  refine ⟨Grammar.list_built, hsize, hkernel, hitem, htransition, (hadvance _).2 ⟨_, hitem, rfl, rfl⟩,
    fun q hq hother => ?_⟩
  exact Option.some.inj (((h.transition?_iff 0 (hlt (by decide)) _ q).2 hother).symm.trans hfind)

end ParseForest
