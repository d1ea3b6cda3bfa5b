import ParseForest.Proofs.Automaton.Walk
import ParseForest.Proofs.Grammar.Built

/-!
# Numbered rule transitions

`RuleTransitions.ofStates` gives numbers to the pairs of a state and a rule that leads somewhere from
it, and to the virtual pair `(0, #S)` (`IsListing`). The numbers are a bijection onto an initial
segment of the naturals (`IsNumbering`) when no alternative mentions the rule that accepts: otherwise
`(0, #S)` may also be a pair of the automaton, and then it has two numbers.
-/

namespace ParseForest

/-- The pairs of a state and a rule that leads somewhere from it, state by state. -/
def gotoPairs (states : Array State) : List (StateId × RuleId) :=
  (List.range states.size).flatMap fun p =>
    (states.getD p default).gotos.map fun (rule, _) => (p, rule)

/-- A state and a rule that leads somewhere from it, or the first state and the rule that accepts. -/
def IsPair (g : Grammar) (states : Array State) (p : StateId) (rule : RuleId) : Prop :=
  (∃ q, (states.getD p default).goto? rule = some q) ∨ (p = 0 ∧ rule = g.start)

/-- The list has exactly the pairs, and every number is that of its pair. -/
structure IsListing (g : Grammar) (states : Array State) (t : RuleTransitions) : Prop where
  getElem?_of_find? : ∀ p rule n, t.find? p rule = some n → t.list[n]? = some (p, rule)
  mem_iff : ∀ p rule, (p, rule) ∈ t.list ↔ IsPair g states p rule

/-- Numbers and transitions determine each other. -/
structure IsNumbering (g : Grammar) (states : Array State) (t : RuleTransitions) : Prop
    extends IsListing g states t where
  find?_eq_some_iff : ∀ p rule n, t.find? p rule = some n ↔ t.list[n]? = some (p, rule)
  virtual : t.list[0]? = some (0, g.start)
  /-- Only the virtual transition is about the rule that accepts -/
  not_start : ∀ p q, (states.getD p default).goto? g.start ≠ some q

namespace RuleTransitions

/-- What the numbers satisfy after every push, whether or not transitions repeat. -/
structure Indexed (t : RuleTransitions) : Prop where
  sound : ∀ p rule n, t.find? p rule = some n → t.list[n]? = some (p, rule)
  total : ∀ p rule, (p, rule) ∈ t.list → ∃ n, t.find? p rule = some n

theorem find?_push (t : RuleTransitions) (p q : StateId) (rule rule' : RuleId) :
    (t.push p rule).find? q rule' =
      if (p, rule) = (q, rule') then some t.list.size else t.find? q rule' := by
  rw [find?, push, Std.HashMap.getElem?_insert]
  by_cases h : (p, rule) = (q, rule')
  · rw [if_pos h, if_pos (beq_iff_eq.2 h)]
  · rw [if_neg h, if_neg (by simpa using h)]
    rfl

theorem Indexed.push {t : RuleTransitions} (h : t.Indexed) (p : StateId) (rule : RuleId) :
    (t.push p rule).Indexed where
  sound q rule' n hn := by
    rw [find?_push] at hn
    by_cases he : (p, rule) = (q, rule')
    · rw [if_pos he] at hn
      obtain rfl := Option.some.inj hn
      rw [← he, RuleTransitions.push, Array.getElem?_push_size]
    · rw [if_neg he] at hn
      have hlist := h.sound q rule' n hn
      have hlt := (Array.getElem?_eq_some_iff.1 hlist).1
      rw [RuleTransitions.push, Array.getElem?_push, if_neg (Nat.ne_of_lt hlt), hlist]
  total q rule' hmem := by
    rw [find?_push]
    by_cases he : (p, rule) = (q, rule')
    · exact ⟨_, if_pos he⟩
    · rw [if_neg he]
      rcases Array.mem_push.1 hmem with hmem | hmem
      · exact h.total q rule' hmem
      · exact absurd hmem.symm he

theorem foldl_push_spec (pairs : List (StateId × RuleId)) {t : RuleTransitions} (h : t.Indexed) :
    (pairs.foldl (fun t (x : StateId × RuleId) => t.push x.1 x.2) t).Indexed ∧
      (pairs.foldl (fun t (x : StateId × RuleId) => t.push x.1 x.2) t).list.toList =
        t.list.toList ++ pairs := by
  induction pairs generalizing t with
  | nil => exact ⟨h, by simp⟩
  | cons x pairs ih =>
    obtain ⟨hi, hl⟩ := ih (h.push x.1 x.2)
    refine ⟨hi, ?_⟩
    rw [List.foldl_cons, hl]
    simp [RuleTransitions.push]

theorem ofStates_eq_foldl (g : Grammar) (states : Array State) :
    ofStates g states = (gotoPairs states).foldl (fun t (x : StateId × RuleId) => t.push x.1 x.2)
      ⟨#[(0, g.start)], (∅ : Std.HashMap (StateId × RuleId) Nat).insert (0, g.start) 0⟩ := by
  rw [ofStates, Array.zipIdx_toList states default, List.foldl_map, gotoPairs, List.foldl_flatMap]
  congr 1
  funext t p
  rw [List.foldl_map]

theorem ofStates_spec (g : Grammar) (states : Array State) :
    (ofStates g states).Indexed ∧
      (ofStates g states).list.toList = (0, g.start) :: gotoPairs states := by
  rw [ofStates_eq_foldl]
  refine foldl_push_spec _ ⟨fun p rule n hn => ?_, fun p rule hmem => ?_⟩
  · rw [find?, Std.HashMap.getElem?_insert] at hn
    split at hn
    · rename_i he
      obtain rfl := Option.some.inj hn
      simpa using beq_iff_eq.1 he
    · simp at hn
  · obtain he : (p, rule) = (0, g.start) := by simpa using hmem
    exact ⟨0, by rw [find?, he, Std.HashMap.getElem?_insert_self]⟩

end RuleTransitions

variable {g : Grammar} {states : Array State}

theorem IsLR0.goto?_eq_some_iff (h : IsLR0 g states) {p : StateId} {rule : RuleId} {q : StateId} :
    (states.getD p default).goto? rule = some q ↔ (rule, q) ∈ (states.getD p default).gotos :=
  searchKey_eq_some_iff (h.increasing_gotos p)

theorem IsLR0.mem_gotoPairs_iff (h : IsLR0 g states) {p : StateId} {rule : RuleId} :
    (p, rule) ∈ gotoPairs states ↔ ∃ q, (states.getD p default).goto? rule = some q := by
  simp only [gotoPairs, List.mem_flatMap, List.mem_range, List.mem_map, Prod.mk.injEq]
  constructor
  · rintro ⟨p, hp, ⟨rule, q⟩, hmem, rfl, rfl⟩
    exact ⟨q, h.goto?_eq_some_iff.2 hmem⟩
  · rintro ⟨q, hq⟩
    have hp := h.source_lt (x := .rule rule) hq
    exact ⟨p, hp, (rule, q), h.goto?_eq_some_iff.1 hq, rfl, rfl⟩

theorem IsLR0.nodup_gotoPairs (h : IsLR0 g states) : (gotoPairs states).Nodup := by
  refine List.nodup_flatMap.2 ⟨fun p hp => ?_, ?_⟩
  · have hn := (h.increasing_gotos p).nodup_keys
    have he : ((states.getD p default).gotos.map fun x => (p, x.1)) =
        ((states.getD p default).gotos.map Prod.fst).map (p, ·) := by simp
    rw [he]
    exact hn.map fun _ _ he => (Prod.mk.inj he).2
  · refine List.nodup_range.imp fun {p q} hne => ?_
    intro x hx hy
    obtain ⟨_, -, rfl⟩ := List.mem_map.1 hx
    obtain ⟨_, -, he⟩ := List.mem_map.1 hy
    exact hne (Prod.mk.inj he).1.symm

/-- Nothing leads anywhere on the rule that accepts if no alternative mentions it. -/
theorem IsLR0.goto?_start (h : IsLR0 g states) (hs : g.AvoidsStart) (p q : StateId) :
    (states.getD p default).goto? g.start ≠ some q := by
  intro hq
  obtain ⟨hp, -, ⟨⟨rule, alt, dot⟩, hi, hx⟩, -⟩ := h.target p (.rule g.start) q hq
  have ha := (Item.mem_allItems_iff.1 (h.mem_allItems p hp _ hi)).1
  exact hs rule _ (Grammar.alternative_mem ha) (List.mem_of_getElem? hx)

/-- The items of the rule that accepts come from the first state if no alternative mentions it. -/
theorem IsLR0.walk_of_start (h : IsLR0 g states) (hs : g.AvoidsStart) {q : StateId}
    (hq : q < states.size) {alt dot : Nat} (hi : ⟨g.start, alt, dot⟩ ∈ (states.getD q default).items) :
    walkFrom states 0 ((g.alternative g.start alt).symbols.take dot) = some q := by
  obtain ⟨p, hp, hwalk, hstart⟩ := h.exists_walk hq hi
  rcases h.start_cases hp hstart with ⟨rfl, -⟩ | ⟨⟨rule, b, d⟩, hj, hx⟩
  · exact hwalk
  · have ha := (Item.mem_allItems_iff.1 (h.mem_allItems p hp _ hj)).1
    exact absurd (List.mem_of_getElem? hx) (hs rule _ (Grammar.alternative_mem ha))

theorem IsLR0.isListing (h : IsLR0 g states) : IsListing g states (.ofStates g states) := by
  obtain ⟨hindex, hlist⟩ := RuleTransitions.ofStates_spec g states
  refine ⟨hindex.sound, fun p rule => ?_⟩
  rw [← Array.mem_toList_iff, hlist, List.mem_cons, h.mem_gotoPairs_iff, or_comm, IsPair,
    Prod.mk.injEq]

theorem IsLR0.isNumbering (h : IsLR0 g states) (hs : g.AvoidsStart) :
    IsNumbering g states (.ofStates g states) := by
  obtain ⟨hindex, hlist⟩ := RuleTransitions.ofStates_spec g states
  have hfresh : (0, g.start) ∉ gotoPairs states := fun hmem => by
    obtain ⟨q, hq⟩ := h.mem_gotoPairs_iff.1 hmem
    exact h.goto?_start hs 0 q hq
  have hnodup : (RuleTransitions.ofStates g states).list.toList.Nodup :=
    hlist ▸ List.nodup_cons.2 ⟨hfresh, h.nodup_gotoPairs⟩
  refine ⟨h.isListing, fun p rule n => ⟨hindex.sound p rule n, fun hn => ?_⟩, ?_, h.goto?_start hs⟩
  · obtain ⟨m, hm⟩ := hindex.total p rule (Array.mem_of_getElem? hn)
    have hm' := hindex.sound p rule m hm
    rw [← Array.getElem?_toList] at hm' hn
    obtain ⟨hlt, -⟩ := List.getElem?_eq_some_iff.1 hm'
    rwa [← (List.getElem?_inj hlt hnodup).1 (hm'.trans hn.symm)]
  · rw [← Array.getElem?_toList, hlist, List.getElem?_cons_zero]

/-- The items at the start of the rule of a pair are in its state. -/
theorem IsLR0.item_of_isPair (h : IsLR0 g states) (hg : g.WellFormed) {p : StateId} {rule : RuleId}
    (hp : IsPair g states p rule) {alt : Nat} (ha : alt < (g.rule rule).alternatives.size) :
    p < states.size ∧ ⟨rule, alt, 0⟩ ∈ (states.getD p default).items := by
  rcases hp with ⟨q, hq⟩ | ⟨rfl, rfl⟩
  · exact ⟨h.source_lt (x := .rule rule) hq, h.item_of_goto hq ha⟩
  · obtain ⟨a, hstart, -⟩ := hg.start_alternatives
    rw [hstart] at ha
    obtain rfl : alt = 0 := Nat.lt_one_iff.1 ha
    exact ⟨h.pos, h.item_first⟩

/-- A state that an item at the start of a rule is in makes a pair with the rule. -/
theorem IsLR0.isPair_of_item (h : IsLR0 g states) {p : StateId} (hp : p < states.size)
    {rule : RuleId} {alt : Nat} (hi : ⟨rule, alt, 0⟩ ∈ (states.getD p default).items) :
    IsPair g states p rule := by
  rcases h.start_cases hp hi with ⟨rfl, rfl⟩ | ⟨j, hj, hx⟩
  · exact .inr ⟨rfl, rfl⟩
  · exact .inl (h.total p hp j hj _ hx)

/-- A rule inside an alternative of a pair makes a pair with the state that the symbols before it
lead to. -/
theorem IsLR0.inner_of_isPair (h : IsLR0 g states) (hg : g.WellFormed) {p₀ p : StateId}
    {A B : RuleId} (hp : IsPair g states p₀ A) {alt : Nat} {β γ : List Symbol}
    (ha : alt < (g.rule A).alternatives.size)
    (hs : (g.alternative A alt).symbols = β ++ .rule B :: γ) (hw : walkFrom states p₀ β = some p) :
    ∃ q, (states.getD p default).goto? B = some q ∧
      ⟨A, alt, β.length + 1⟩ ∈ (states.getD q default).items := by
  obtain ⟨hp₀, hitem⟩ := h.item_of_isPair hg hp ha
  obtain ⟨p', hw', hi⟩ := h.walk_item hp₀ hitem (α := β) (β := .rule B :: γ)
    (by rw [List.drop_zero, hs])
  obtain rfl : p = p' := Option.some.inj (hw.symm.trans hw')
  rw [Nat.zero_add] at hi
  have hnext : (Item.mk A alt β.length).next? g = some (.rule B) := by
    rw [Item.next?_eq, hs, List.getElem?_append_right (Nat.le_refl _)]
    simp
  obtain ⟨q, hq⟩ := h.total p (h.walk_lt hp₀ hw) _ hi _ hnext
  exact ⟨q, hq, h.step_item hi hnext hq⟩

end ParseForest
