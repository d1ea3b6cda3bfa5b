import ParseForest.Proofs.Automaton.Follow
import Mathlib.Data.List.Permutation

/-!
# Actions

What a finished automaton does in a state before a lookahead. `Automaton.Of` is what every automaton
of a built grammar satisfies, whatever the grammar mentions; `ofGrammar_exact` is the exact account
for grammars that do not mention the rule that accepts.
-/

namespace ParseForest

/-! ## Actions of one state -/

namespace State

variable {s : State} {l : Lookahead}

theorem shift_mem_actions_iff {target : StateId} :
    .shift target ∈ s.actions l ↔ ∃ t, l = .terminal t ∧ s.shift? t = some target := by
  simp only [actions, List.mem_append, List.mem_filterMap]
  constructor
  · rintro ((h | ⟨r, -, h⟩) | h)
    · cases l with
      | terminal t =>
        refine ⟨t, rfl, ?_⟩
        simpa using h
      | finish => cases h
    · split at h <;> cases h
    · split at h <;> simp at h
  · rintro ⟨t, rfl, h⟩
    exact .inl (.inl (by simp [h]))

theorem reduce_mem_actions_iff {rule : RuleId} {alt n : Nat} :
    .reduce rule alt n ∈ s.actions l ↔
      ∃ la, ⟨rule, alt, n, la⟩ ∈ s.reductions ∧ la.lists l = true := by
  simp only [actions, List.mem_append, List.mem_filterMap]
  constructor
  · rintro ((h | ⟨⟨r, a, m, la⟩, hr, h⟩) | h)
    · cases l with
      | terminal t => simp at h
      | finish => cases h
    · split at h
      · rename_i hl
        obtain ⟨rfl, rfl, rfl⟩ := Action.reduce.inj (Option.some.inj h)
        exact ⟨la, hr, hl⟩
      · cases h
    · split at h <;> simp at h
  · rintro ⟨la, hr, hl⟩
    exact .inl (.inr ⟨_, hr, by rw [if_pos hl]⟩)

theorem accept_mem_actions_iff : .accept ∈ s.actions l ↔ s.accepting = true ∧ l = .finish := by
  simp only [actions, List.mem_append, List.mem_filterMap]
  constructor
  · rintro ((h | ⟨r, -, h⟩) | h)
    · cases l with
      | terminal t => simp at h
      | finish => cases h
    · split at h <;> cases h
    · split at h
      · rename_i hacc
        simpa using hacc
      · cases h
  · rintro ⟨hacc, rfl⟩
    exact .inr (by simp [hacc])

/-- No action occurs twice if no item is reduced twice. -/
theorem nodup_actions (h : s.reductions.Pairwise fun r r' =>
    Item.mk r.rule r.alt r.length ≠ Item.mk r'.rule r'.alt r'.length) (l : Lookahead) :
    (s.actions l).Nodup := by
  obtain ⟨shifts, hnodup, hshift, hactions⟩ : ∃ shifts : List Action, shifts.Nodup ∧
      (∀ a ∈ shifts, ∃ target, a = .shift target) ∧ s.actions l =
        shifts ++ (s.reductions.filterMap fun r => if r.lookahead.lists l then
          some (Action.reduce r.rule r.alt r.length) else none) ++
        (if s.accepting && l = .finish then [.accept] else []) := by
    cases l with
    | terminal t =>
      refine ⟨(s.shift? t).toList.map Action.shift, ?_, fun a ha => ?_, rfl⟩
      · cases s.shift? t <;> simp
      · obtain ⟨target, -, rfl⟩ := List.mem_map.1 ha
        exact ⟨target, rfl⟩
    | finish => exact ⟨[], List.nodup_nil, fun _ ha => absurd ha List.not_mem_nil, rfl⟩
  have hred : (s.reductions.filterMap fun r =>
      if r.lookahead.lists l then some (Action.reduce r.rule r.alt r.length) else none).Nodup := by
    refine h.filterMap _ fun r r' hne a ha a' ha' => ?_
    split at ha <;> split at ha' <;> simp only [Option.some.injEq, reduceCtorEq] at ha ha'
    rintro rfl
    obtain ⟨h₁, h₂, h₃⟩ := Action.reduce.inj (ha.trans ha'.symm)
    exact hne (by rw [h₁, h₂, h₃])
  have hmem : ∀ a ∈ s.reductions.filterMap fun r =>
      if r.lookahead.lists l then some (Action.reduce r.rule r.alt r.length) else none,
      ∃ rule alt n, a = .reduce rule alt n := by
    intro a ha
    obtain ⟨r, -, hr⟩ := List.mem_filterMap.1 ha
    split at hr
    · exact ⟨_, _, _, (Option.some.inj hr).symm⟩
    · cases hr
  rw [hactions]
  refine List.nodup_append.2 ⟨List.nodup_append.2 ⟨hnodup, hred, ?_⟩, ?_, ?_⟩
  · rintro a ha b hb rfl
    obtain ⟨_, rfl⟩ := hshift a ha
    obtain ⟨_, _, _, he⟩ := hmem _ hb
    cases he
  · split
    · exact List.nodup_singleton _
    · exact List.nodup_nil
  · rintro a ha b hb rfl
    have hacc : a = .accept := by
      split at hb
      · exact List.mem_singleton.1 hb
      · cases hb
    subst hacc
    rcases List.mem_append.1 ha with ha | ha
    · obtain ⟨_, he⟩ := hshift _ ha
      cases he
    · obtain ⟨_, _, _, he⟩ := hmem _ ha
      cases he

end State

/-! ## Finished states -/

section

variable {g : Grammar} {follow : Array LookaheadSet}
  {lookback : Std.HashMap (StateId × Item) (List Nat)} {id : StateId} {s : State}

/-- Whether an item is the completed one of the rule that accepts. -/
def Item.Accepts (g : Grammar) (i : Item) : Prop := i.rule = g.start ∧ i.isComplete g = true

theorem not_accepts_iff {i : Item} :
    (!(i.rule == g.start && i.isComplete g)) = true ↔ ¬ i.Accepts g := by
  by_cases h : i.rule = g.start <;> simp [Item.Accepts, h]

/-- A reduction is that of an item which is reduced from some transitions, before what follows
them. -/
theorem mem_reductions_iff {r : Reduction} :
    r ∈ (finishState g follow lookback id s).reductions ↔
      ∃ item ∈ s.items, ¬ item.Accepts g ∧ ∃ sources, lookback[(id, item)]? = some sources ∧
        reductionOf? g follow sources item = some r := by
  simp only [finishState, List.mem_filterMap, List.mem_filter, List.mem_mergeSort,
    Option.map_eq_some_iff, Prod.exists, Prod.mk.injEq, not_accepts_iff]
  constructor
  · rintro ⟨item, sources, ⟨⟨item, hi, sources, hl, rfl, rfl⟩, hacc⟩, hr⟩
    exact ⟨item, hi, hacc, sources, hl, hr⟩
  · rintro ⟨item, hi, hacc, sources, hl, hr⟩
    exact ⟨item, sources, ⟨⟨item, hi, sources, hl, rfl, rfl⟩, hacc⟩, hr⟩

theorem accepting_finishState_iff :
    (finishState g follow lookback id s).accepting = true ↔
      ∃ item ∈ s.items, item.Accepts g ∧ ∃ sources, lookback[(id, item)]? = some sources := by
  simp only [finishState, List.any_eq_true, List.mem_filterMap, List.mem_mergeSort,
    Option.map_eq_some_iff, Prod.exists, Prod.mk.injEq, Item.Accepts, Bool.and_eq_true, beq_iff_eq]
  constructor
  · rintro ⟨item, sources, ⟨item, hi, sources, hl, rfl, rfl⟩, hacc⟩
    exact ⟨item, hi, hacc, sources, hl⟩
  · rintro ⟨item, hi, hacc, sources, hl⟩
    exact ⟨item, sources, ⟨item, hi, sources, hl, rfl, rfl⟩, hacc⟩

theorem reductionOf?_eq_some {sources : List Nat} {item : Item} {r : Reduction}
    (h : reductionOf? g follow sources item = some r) :
    r.rule = item.rule ∧ r.alt = item.alt ∧ r.length = item.dot := by
  rw [reductionOf?] at h
  split at h
  · cases h
  · obtain rfl := Option.some.inj h
    exact ⟨rfl, rfl, rfl⟩

/-- No item is reduced twice. -/
theorem pairwise_reductions (hn : s.items.Nodup) :
    (finishState g follow lookback id s).reductions.Pairwise fun r r' =>
      Item.mk r.rule r.alt r.length ≠ Item.mk r'.rule r'.alt r'.length := by
  have hsorted : (s.items.mergeSort Item.le).Nodup := (List.mergeSort_perm _ _).nodup_iff.2 hn
  have hreduced : ((s.items.mergeSort Item.le).filterMap fun item =>
      (lookback[(id, item)]?).map (item, ·)).Pairwise fun x y => x.1 ≠ y.1 := by
    refine List.Pairwise.filterMap _ (fun i j hne x hx y hy => ?_) hsorted
    obtain ⟨_, -, rfl⟩ := Option.map_eq_some_iff.1 hx
    obtain ⟨_, -, rfl⟩ := Option.map_eq_some_iff.1 hy
    exact hne
  refine List.Pairwise.filterMap _ (fun x y hne r hr r' hr' => ?_) (hreduced.filter _)
  obtain ⟨h₁, h₂, h₃⟩ := reductionOf?_eq_some hr
  obtain ⟨h₁', h₂', h₃'⟩ := reductionOf?_eq_some hr'
  rw [h₁, h₂, h₃, h₁', h₂', h₃']
  exact hne

end

/-! ## Finished automata -/

/-- What an automaton of a built grammar satisfies, even if the grammar mentions the rule that
accepts. -/
structure Automaton.Of (g : Grammar) (a : Automaton) : Prop where
  isLR0 : IsLR0 g a.states
  item_of_reduce : ∀ q l rule alt n, .reduce rule alt n ∈ (a.state q).actions l →
    ⟨rule, alt, n⟩ ∈ (a.state q).items ∧ q < a.states.size
  /-- What is left of an alternative derives nothing, and the rule that accepts is not reduced -/
  rest_of_reduce : ∀ q l rule alt n, .reduce rule alt n ∈ (a.state q).actions l →
    rule ≠ g.start ∧ n ≤ (g.alternative rule alt).length ∧
      g.Nullable ((g.alternative rule alt).symbols.drop n)
  item_of_accepting : ∀ q, (a.state q).accepting = true →
    ∃ item ∈ (a.state q).items, item.Accepts g

variable {g : Grammar} {a : Automaton}

/-- The states of an automaton are those of the collection with their reductions. -/
theorem Automaton.exists_walks (h : Automaton.ofGrammar g = .ok a) :
    ∃ w, walkAll g (canonicalCollection g) (.ofStates g (canonicalCollection g)) = .ok w ∧
      a.states = (canonicalCollection g).mapIdx fun id s => finishState g
        (followSets g (canonicalCollection g) (.ofStates g (canonicalCollection g)) w.includes)
        w.lookback id s := by
  rw [ofGrammar, withReductions] at h
  cases hw : walkAll g (canonicalCollection g) (.ofStates g (canonicalCollection g)) with
  | error e =>
    rw [hw] at h
    cases h
  | ok w =>
    rw [hw] at h
    obtain rfl := Except.ok.inj h
    exact ⟨w, rfl, rfl⟩

/-- Every built grammar has an automaton, even if it mentions the rule that accepts. -/
theorem Automaton.exists_ofGrammar (hg : g.WellFormed) : ∃ a, Automaton.ofGrammar g = .ok a := by
  have hlr := (isCollection_canonicalCollection hg).isLR0
  obtain ⟨w, hw, -⟩ := hlr.isListing.walkAll_ok hlr hg
  rw [ofGrammar, withReductions]
  simp only [hw]
  exact ⟨_, rfl⟩

theorem Automaton.size_states (h : Automaton.ofGrammar g = .ok a) :
    a.states.size = (canonicalCollection g).size := by
  obtain ⟨w, -, hstates⟩ := exists_walks h
  rw [hstates, Array.size_mapIdx]

theorem getD_mapIdx_finishState {states : Array State} {follow : Array LookaheadSet}
    {lookback : Std.HashMap (StateId × Item) (List Nat)} {q : StateId} (hq : q < states.size) :
    (states.mapIdx fun id s => finishState g follow lookback id s).getD q default =
      finishState g follow lookback q (states.getD q default) := by
  rw [Array.getD_mapIdx (Array.getElem?_eq_getElem hq)]
  simp [Array.getD, hq]

/-- Transitions stay as they are. -/
theorem transition?_finishStates {states : Array State} {follow : Array LookaheadSet}
    {lookback : Std.HashMap (StateId × Item) (List Nat)} (q : StateId) (x : Symbol) :
    ((states.mapIdx fun id s => finishState g follow lookback id s).getD q default).transition? x =
      (states.getD q default).transition? x := by
  by_cases hq : q < states.size
  · rw [getD_mapIdx_finishState hq]
    cases x <;> rfl
  · rw [Array.getD_of_size_le (Nat.not_lt.1 hq), Array.getD_of_size_le (by simpa using hq)]

theorem IsLR0.finishStates {states : Array State} (h : IsLR0 g states) (follow : Array LookaheadSet)
    (lookback : Std.HashMap (StateId × Item) (List Nat)) :
    IsLR0 g (states.mapIdx fun id s => finishState g follow lookback id s) := by
  refine h.congr (by simp) fun q => ?_
  by_cases hq : q < states.size
  · exact ⟨_, _, getD_mapIdx_finishState hq⟩
  · rw [Array.getD_of_size_le (Nat.not_lt.1 hq), Array.getD_of_size_le (by simpa using hq)]
    exact ⟨[], false, rfl⟩

/-- The ways through the states are those through the collection. -/
theorem Automaton.walk?_of_ofGrammar (h : Automaton.ofGrammar g = .ok a) (q : StateId) (α : List Symbol) :
    a.walk? q α = walkFrom (canonicalCollection g) q α := by
  obtain ⟨w, -, hstates⟩ := exists_walks h
  refine walkFrom_congr (fun q x => ?_) q α
  rw [hstates]
  exact transition?_finishStates q x

/-- What is left of an alternative that is reduced derives nothing. -/
theorem rest_of_looks {states : Array State} {transitions : RuleTransitions} {w : Walks}
    (hg : g.WellFormed) (hrel : IsRelations g states transitions w) {q : StateId} {A : RuleId}
    {alt n t : Nat} (hl : w.Looks q ⟨A, alt, n⟩ t)
    (hacc : ¬ (Item.mk A alt n).Accepts g) : A ≠ g.start ∧ n ≤ (g.alternative A alt).length ∧
      g.Nullable ((g.alternative A alt).symbols.drop n) := by
  obtain ⟨p, -, halt, α, β, hs, hlen, hnull, -⟩ := (hrel.looks_iff q _ t).1 hl
  obtain rfl : n = α.length := hlen.symm
  have hdrop : (g.alternative A alt).symbols.drop α.length = β := by rw [hs, List.drop_left]
  refine ⟨?_, ?_, by rwa [hdrop]⟩
  · rintro rfl
    obtain ⟨a, ha, hsym⟩ := hg.start_alternatives
    obtain rfl : alt = 0 := by
      rw [ha] at halt
      exact Nat.lt_one_iff.1 halt
    have he : (g.alternative g.start 0).symbols = [.rule g.first, .rule g.eofRule] := by
      rw [Grammar.alternative, ha]
      exact hsym
    -- the end of input is not nullable, so nothing is left
    rcases List.eq_nil_or_concat β with rfl | ⟨β', x, rfl⟩
    · refine hacc ⟨rfl, ?_⟩
      rw [Item.isComplete, Alternative.length, hs, List.append_nil]
      exact beq_self_eq_true _
    · rw [he] at hs
      have hx := congrArg List.getLast? hs
      simp only [List.concat_eq_append, ← List.append_assoc, List.getLast?_concat] at hx
      obtain rfl : x = .rule g.eofRule := by simpa using hx.symm
      rw [List.concat_eq_append, Grammar.nullable_append_iff] at hnull
      exact hg.not_nullable_eofRule hnull.2
  · rw [Alternative.length, hs, List.length_append]
    exact Nat.le_add_right _ _

theorem Automaton.of_ofGrammar (hg : g.WellFormed) (h : Automaton.ofGrammar g = .ok a) :
    a.Of g := by
  obtain ⟨w, hw, hstates⟩ := exists_walks h
  have hlr := (isCollection_canonicalCollection hg).isLR0
  obtain ⟨w', hw', hrel⟩ := hlr.isListing.walkAll_ok hlr hg
  obtain rfl : w = w' := Except.ok.inj (hw.symm.trans hw')
  have hsize := size_states h
  have hout : ∀ q, ¬ q < a.states.size → a.state q = default := fun q hq =>
    Array.getD_of_size_le (Nat.not_lt.1 hq)
  have hin : ∀ q < a.states.size, a.state q = finishState g
      (followSets g (canonicalCollection g) (.ofStates g (canonicalCollection g)) w.includes)
      w.lookback q ((canonicalCollection g).getD q default) := fun q hq => by
    rw [state, hstates]
    exact getD_mapIdx_finishState (hsize ▸ hq)
  have hreduce : ∀ {q l rule alt n}, .reduce rule alt n ∈ (a.state q).actions l →
      q < a.states.size ∧ ⟨rule, alt, n⟩ ∈ ((canonicalCollection g).getD q default).items ∧
        ¬ (Item.mk rule alt n).Accepts g ∧
        ∃ sources, w.lookback[(q, Item.mk rule alt n)]? = some sources := fun {q} _ _ _ _ hr => by
    obtain ⟨la, hr, -⟩ := State.reduce_mem_actions_iff.1 hr
    by_cases hq : q < a.states.size
    · rw [hin q hq] at hr
      obtain ⟨item, hi, hacc, sources, hs, he⟩ := mem_reductions_iff.1 hr
      obtain ⟨rfl, rfl, rfl⟩ := reductionOf?_eq_some he
      exact ⟨hq, hi, hacc, sources, hs⟩
    · rw [hout q hq] at hr
      cases hr
  refine ⟨hstates ▸ hlr.finishStates _ _, fun q l rule alt n hr => ?_,
    fun q l rule alt n hr => ?_, fun q hacc => ?_⟩
  · obtain ⟨hq, hi, -⟩ := hreduce hr
    rw [hin q hq]
    exact ⟨hi, hq⟩
  · obtain ⟨-, -, hacc, sources, hs⟩ := hreduce hr
    -- an item is not noted without a transition
    obtain ⟨t, ht⟩ := List.exists_mem_of_ne_nil sources fun hnil => hrel.sourced _ (hnil ▸ hs)
    exact rest_of_looks hg hrel (t := t) (by rw [Walks.Looks, hs, Option.getD_some]; exact ht) hacc
  · by_cases hq : q < a.states.size
    · rw [hin q hq] at hacc ⊢
      obtain ⟨item, hi, ha, -⟩ := accepting_finishState_iff.1 hacc
      exact ⟨item, hi, ha⟩
    · rw [hout q hq] at hacc
      cases hacc

/-- An accepting state has the completed item of the rule that accepts. -/
theorem Automaton.Of.start_item (h : a.Of g) (hg : g.WellFormed) {q : StateId} (hq : q < a.states.size)
    (hacc : (a.state q).accepting = true) : ⟨g.start, 0, 2⟩ ∈ (a.state q).items := by
  obtain ⟨hone, hsym⟩ := hg.alternative_start
  obtain ⟨⟨rule, alt, dot⟩, hi, hrule, hdot⟩ := h.item_of_accepting q hacc
  obtain rfl : rule = g.start := hrule
  have hall := Item.mem_allItems_iff.1 (h.isLR0.mem_allItems q hq _ hi)
  obtain rfl : alt = 0 := by
    have := hall.1
    simp only [hone] at this
    exact Nat.lt_one_iff.1 this
  obtain rfl : dot = 2 := by
    have hlen := beq_iff_eq.1 hdot
    simp only [Alternative.length, hsym] at hlen
    exact hlen
  exact hi

/-! ## Exactness -/

/-- What an automaton does in each state: it reduces exactly before what follows the rule wherever
the alternative was begun. -/
structure Automaton.IsExact (g : Grammar) (a : Automaton) : Prop where
  reduce_iff : ∀ q < a.states.size, ∀ A alt α β l, A ≠ g.start →
    alt < (g.rule A).alternatives.size → (g.alternative A alt).symbols = α ++ β → g.Nullable β →
    (.reduce A alt α.length ∈ (a.state q).actions l ↔
      ∃ p, a.walk? p α = some q ∧ a.Follow g p A l)
  accepting_iff : ∀ q < a.states.size,
    (a.state q).accepting = true ↔ ∃ i ∈ (a.state q).items, i.Accepts g
  nodup : ∀ q l, ((a.state q).actions l).Nodup
  increasing_shifts : ∀ q, Increasing (a.state q).shifts
  over_terminals : ∀ q, ∀ r ∈ (a.state q).reductions, r.lookahead.Over g.terminals.size

/-- A reduction is before lookaheads over the terminals of the grammar. -/
theorem over_foldl_union {n : Nat} {follow : Array LookaheadSet} (hf : AllOver n follow)
    {sources : List Nat} (hs : ∀ t ∈ sources, t < follow.size) :
    (sources.foldl (fun s t => s.union (follow.getD t default)) (LookaheadSet.empty n)).Over n :=
  List.foldlRecOn sources _ (LookaheadSet.over_empty n) fun _ hs' t ht =>
    LookaheadSet.over_union hs' (hf t (hs t ht)).le_of_testBit

/-- The reduction of an item that is reduced from some transitions is before what follows any of
them. -/
theorem exists_reductionOf? {n : Nat} {follow : Array LookaheadSet} (hn : g.terminals.size = n)
    (hf : AllOver n follow) {sources : List Nat} (hs : ∀ t ∈ sources, t < follow.size) (item : Item)
    (l : Lookahead) :
    (∃ la, reductionOf? g follow sources item = some ⟨item.rule, item.alt, item.dot, la⟩ ∧
      la.lists l = true) ↔ ∃ t ∈ sources, (follow.getD t default).lists l = true := by
  subst hn
  have hempty := LookaheadSet.over_empty g.terminals.size
  have hlists := lists_foldl_union hf sources hs hempty
  simp only [LookaheadSet.not_lists_empty, Bool.false_eq_true, false_or] at hlists
  rw [← hlists]
  have hover := over_foldl_union hf hs
  simp only [reductionOf?]
  constructor
  · rintro ⟨la, hr, hl⟩
    split at hr
    · cases hr
    · obtain rfl := (Reduction.mk.inj (Option.some.inj hr)).2.2.2
      exact hl
  · intro hl
    refine ⟨_, if_neg fun hempty => ?_, hl⟩
    exact (LookaheadSet.isEmpty_iff hover).1 hempty l hl

section Exact

variable {states : Array State} {transitions : RuleTransitions} {w : Walks}
  {follow : Array LookaheadSet}

theorem lt_size_of_looks (hrel : IsRelations g states transitions w)
    (hsize : follow.size = transitions.list.size) {q : StateId} {item : Item} {t : Nat}
    (h : w.Looks q item t) : t < follow.size := by
  obtain ⟨p, hp, -⟩ := (hrel.looks_iff q item t).1 h
  exact hsize ▸ (Array.getElem?_eq_some_iff.1 hp).1

/-- The reductions of a finished state are before lookaheads over the terminals. -/
theorem over_finishState (hrel : IsRelations g states transitions w)
    (hf : AllOver g.terminals.size follow) (hsize : follow.size = transitions.list.size)
    {q : StateId} {r : Reduction}
    (hr : r ∈ (finishState g follow w.lookback q (states.getD q default)).reductions) :
    r.lookahead.Over g.terminals.size := by
  obtain ⟨item, -, -, sources, hsources, he⟩ := mem_reductions_iff.1 hr
  have hlt : ∀ t ∈ sources, t < follow.size := fun t ht => by
    have hlooks : w.Looks q item t := by rwa [Walks.Looks, hsources, Option.getD_some]
    exact lt_size_of_looks hrel hsize hlooks
  simp only [reductionOf?] at he
  split at he
  · cases he
  · obtain rfl := Option.some.inj he
    exact over_foldl_union hf hlt

/-- What a finished state reduces, in terms of the transitions that an item is reduced from. -/
theorem reduce_mem_finishState_iff (hrel : IsRelations g states transitions w)
    (hf : AllOver g.terminals.size follow) (hsize : follow.size = transitions.list.size)
    {q : StateId} {A : RuleId} {alt n : Nat} {l : Lookahead} :
    .reduce A alt n ∈ (finishState g follow w.lookback q (states.getD q default)).actions l ↔
      ⟨A, alt, n⟩ ∈ (states.getD q default).items ∧ ¬ (Item.mk A alt n).Accepts g ∧
        ∃ t, w.Looks q ⟨A, alt, n⟩ t ∧ (follow.getD t default).lists l = true := by
  have hlt : ∀ {item : Item} {t : Nat}, w.Looks q item t → t < follow.size :=
    lt_size_of_looks hrel hsize
  rw [State.reduce_mem_actions_iff]
  constructor
  · rintro ⟨la, hr, hl⟩
    obtain ⟨item, hi, hacc, sources, hsources, he⟩ := mem_reductions_iff.1 hr
    obtain ⟨rfl, rfl, rfl⟩ := reductionOf?_eq_some he
    have hlooks : ∀ t, w.Looks q item t ↔ t ∈ sources := fun t => by
      rw [Walks.Looks, hsources, Option.getD_some]
    obtain ⟨t, ht, hl⟩ := (exists_reductionOf? rfl hf (fun t ht => hlt ((hlooks t).2 ht)) item l).1
      ⟨la, he, hl⟩
    exact ⟨hi, hacc, t, (hlooks t).2 ht, hl⟩
  · rintro ⟨hi, hacc, t, ht, hl⟩
    obtain ⟨sources, hsources⟩ : ∃ sources, w.lookback[(q, Item.mk A alt n)]? = some sources := by
      cases hs : w.lookback[(q, Item.mk A alt n)]? with
      | none => simp [Walks.Looks, hs] at ht
      | some sources => exact ⟨sources, rfl⟩
    have hlooks : ∀ t, w.Looks q ⟨A, alt, n⟩ t ↔ t ∈ sources := fun t => by
      rw [Walks.Looks, hsources, Option.getD_some]
    obtain ⟨la, he, hl⟩ := (exists_reductionOf? rfl hf (fun t ht => hlt ((hlooks t).2 ht))
      ⟨A, alt, n⟩ l).2 ⟨t, (hlooks t).1 ht, hl⟩
    exact ⟨la, mem_reductions_iff.2 ⟨_, hi, hacc, sources, hsources, he⟩, hl⟩

/-- The transitions that an item is reduced from are those that have come to it by its symbols. -/
theorem looks_iff_walk (hrel : IsRelations g states transitions w) {q : StateId} {A : RuleId}
    {alt : Nat} {α β : List Symbol} (ha : alt < (g.rule A).alternatives.size)
    (hs : (g.alternative A alt).symbols = α ++ β) (hnull : g.Nullable β) {t : Nat} :
    w.Looks q ⟨A, alt, α.length⟩ t ↔
      ∃ p, transitions.list[t]? = some (p, A) ∧ walkFrom states p α = some q := by
  rw [hrel.looks_iff]
  constructor
  · rintro ⟨p, hp, -, α', β', hs', hlen, -, hwalk⟩
    obtain ⟨rfl, -⟩ := List.append_inj (hs.symm.trans hs') hlen.symm
    exact ⟨p, hp, hwalk⟩
  · rintro ⟨p, hp, hwalk⟩
    exact ⟨p, hp, ha, α, β, hs, rfl, hnull, hwalk⟩

/-- A finished state reduces an alternative before what follows its rule where it was begun. -/
theorem reduce_mem_finishState_iff_follow (hg : g.WellFormed) (h : IsLR0 g states)
    (hn : IsNumbering g states transitions) (hrel : IsRelations g states transitions w)
    (hf : AllOver g.terminals.size follow) (hsize : follow.size = transitions.list.size)
    (hfollow : ∀ t p A, transitions.list[t]? = some (p, A) → ∀ l,
      (follow.getD t default).lists l = true ↔ (⟨states⟩ : Automaton).Follow g p A l)
    {q : StateId} {A : RuleId} {alt : Nat} {α β : List Symbol} {l : Lookahead} (hA : A ≠ g.start)
    (ha : alt < (g.rule A).alternatives.size) (hs : (g.alternative A alt).symbols = α ++ β)
    (hnull : g.Nullable β) :
    .reduce A alt α.length ∈ (finishState g follow w.lookback q (states.getD q default)).actions l ↔
      ∃ p, walkFrom states p α = some q ∧ (⟨states⟩ : Automaton).Follow g p A l := by
  rw [reduce_mem_finishState_iff hrel hf hsize]
  constructor
  · rintro ⟨-, -, t, ht, hl⟩
    obtain ⟨p, hp, hwalk⟩ := (looks_iff_walk hrel ha hs hnull).1 ht
    exact ⟨p, hwalk, (hfollow t p A hp l).1 hl⟩
  · rintro ⟨p, hwalk, hl⟩
    have hpair := hl.isPair hg h
    obtain ⟨hp, hitem⟩ := h.item_of_isPair hg hpair ha
    obtain ⟨q', hwalk', hi⟩ := h.walk_item hp hitem (by rw [List.drop_zero, hs])
    obtain rfl : q = q' := Option.some.inj (hwalk.symm.trans hwalk')
    rw [Nat.zero_add] at hi
    obtain ⟨t, ht⟩ := hn.isPair_iff.2 hpair
    exact ⟨hi, fun hacc => hA hacc.1, t, (looks_iff_walk hrel ha hs hnull).2 ⟨p, ht, hwalk⟩,
      (hfollow t p A ht l).2 hl⟩

/-- The completed item of the rule that accepts comes from the start of everything. -/
theorem exists_lookback_of_accepts (hs : g.AvoidsStart) (h : IsLR0 g states)
    (hn : IsNumbering g states transitions) (hrel : IsRelations g states transitions w) {q : StateId}
    (hq : q < states.size) {i : Item} (hi : i ∈ (states.getD q default).items)
    (hacc : i.Accepts g) : ∃ sources, w.lookback[(q, i)]? = some sources := by
  obtain ⟨rule, alt, dot⟩ := i
  obtain ⟨rfl, hcomplete⟩ := hacc
  have hdot : dot = (g.alternative g.start alt).symbols.length := beq_iff_eq.1 hcomplete
  obtain ⟨p, hp, hwalk, hstart⟩ := h.exists_walk hq hi
  have halt := (Item.mem_allItems_iff.1 (h.mem_allItems q hq _ hi)).1
  obtain rfl : p = 0 := by
    rcases h.start_cases hp hstart with ⟨h0, -⟩ | ⟨⟨r, a, d⟩, hj, hx⟩
    · exact h0
    · have ha := (Item.mem_allItems_iff.1 (h.mem_allItems p hp _ hj)).1
      exact absurd (List.mem_of_getElem? hx) (hs r _ (Grammar.alternative_mem ha))
  subst hdot
  rw [List.take_length] at hwalk
  have hlooks : w.Looks q ⟨g.start, alt, (g.alternative g.start alt).symbols.length⟩ 0 :=
    (looks_iff_walk hrel (β := []) halt (by simp) Grammar.nullable_nil).2 ⟨0, hn.virtual, hwalk⟩
  cases hl : w.lookback[(q, Item.mk g.start alt (g.alternative g.start alt).symbols.length)]? with
  | none => simp [Walks.Looks, hl] at hlooks
  | some sources => exact ⟨sources, rfl⟩

end Exact

theorem Automaton.exists_isExact (hg : g.WellFormed) (hs : g.AvoidsStart) :
    ∃ a, Automaton.ofGrammar g = .ok a ∧ a.IsExact g := by
  have hlr := (isCollection_canonicalCollection hg).isLR0
  have hn := hlr.isNumbering hs
  obtain ⟨w, hw, hrel⟩ := hn.toIsListing.walkAll_ok hlr hg
  obtain ⟨hover, hsize, hfollow⟩ := lists_followSets_iff hg hlr hn hrel
  generalize hstates : canonicalCollection g = states at *
  generalize htrans : RuleTransitions.ofStates g states = transitions at *
  generalize hfol : followSets g states transitions w.includes = follow at *
  have hok : Automaton.ofGrammar g =
      .ok ⟨states.mapIdx fun id s => finishState g follow w.lookback id s⟩ := by
    rw [ofGrammar, withReductions, hstates]
    simp only [htrans, hw]
    rw [← hfol]
    rfl
  obtain ⟨a, ha⟩ : ∃ a : Automaton,
      a = ⟨states.mapIdx fun id s => finishState g follow w.lookback id s⟩ := ⟨_, rfl⟩
  rw [← ha] at hok
  have hin : ∀ q < states.size, a.state q =
      finishState g follow w.lookback q (states.getD q default) := fun q hq => by
    rw [ha]
    exact getD_mapIdx_finishState hq
  have hstep : ∀ q x, (a.states.getD q default).transition? x =
      (states.getD q default).transition? x := fun q x => by
    rw [ha]
    exact transition?_finishStates q x
  have hwalk : ∀ q α, a.walk? q α = walkFrom states q α := fun q α => walkFrom_congr hstep q α
  have hgoto : ∀ q A, a.goto? q A = (states.getD q default).goto? A := fun q A => hstep q (.rule A)
  have hF : ∀ p A l, a.Follow g p A l ↔ (⟨states⟩ : Automaton).Follow g p A l := fun p A l =>
    ⟨Follow.congr (fun q A => (hgoto q A).symm) fun q α => (hwalk q α).symm,
      Follow.congr hgoto hwalk⟩
  have hasize : a.states.size = states.size := by rw [ha, Array.size_mapIdx]
  refine ⟨a, hok, ⟨fun q hq A alt α β l hA halt hsym hnull => ?_, fun q hq => ?_, fun q l => ?_,
    fun q => ?_, fun q r hr => ?_⟩⟩
  · rw [hin q (hasize ▸ hq), reduce_mem_finishState_iff_follow hg hlr hn hrel hover hsize hfollow hA
      halt hsym hnull]
    exact exists_congr fun p => and_congr (by rw [hwalk]) (hF p A l).symm
  · rw [hin q (hasize ▸ hq), accepting_finishState_iff]
    constructor
    · rintro ⟨i, hi, hacc, -⟩
      exact ⟨i, hi, hacc⟩
    · rintro ⟨i, hi, hacc⟩
      exact ⟨i, hi, hacc, exists_lookback_of_accepts hs hlr hn hrel (hasize ▸ hq) hi hacc⟩
  · by_cases hq : q < states.size
    · rw [hin q hq]
      exact State.nodup_actions (pairwise_reductions (hlr.nodup_items q hq)) l
    · rw [state, Array.getD_of_size_le (by rw [hasize]; exact Nat.not_lt.1 hq)]
      exact State.nodup_actions .nil l
  · rw [state, ha]
    exact (hlr.finishStates follow w.lookback).increasing_shifts q
  · by_cases hq : q < states.size
    · rw [hin q hq] at hr
      exact over_finishState hrel hover hsize hr
    · rw [state, Array.getD_of_size_le (by rw [hasize]; exact Nat.not_lt.1 hq)] at hr
      cases hr

/-- Lookaheads are exact. The automaton of a grammar that does not mention the rule that accepts is
built, and in every state and before every lookahead it reduces what has been recognised of an
alternative with a nullable rest exactly when the lookahead follows the rule where the alternative
was begun; it shifts exactly over its transitions, and accepts exactly at the end of everything. No
action is listed twice. -/
theorem Automaton.actions_exact (hg : g.Built) (hs : g.AvoidsStart) :
    ∃ a, Automaton.ofGrammar g = .ok a ∧ ∀ q < a.states.size, ∀ l,
      (∀ A alt α β, A ≠ g.start → alt < (g.rule A).alternatives.size →
        (g.alternative A alt).symbols = α ++ β → g.Nullable β →
        (.reduce A alt α.length ∈ (a.state q).actions l ↔
          ∃ p, a.walk? p α = some q ∧ a.Follow g p A l)) ∧
      (∀ target, .shift target ∈ (a.state q).actions l ↔
        ∃ t, l = .terminal t ∧ a.shift? q t = some target) ∧
      (.accept ∈ (a.state q).actions l ↔
        (∃ i ∈ (a.state q).items, i.rule = g.start ∧ i.isComplete g = true) ∧ l = .finish) ∧
      ((a.state q).actions l).Nodup := by
  obtain ⟨a, hok, hexact⟩ := exists_isExact hg.wellFormed hs
  refine ⟨a, hok, fun q hq l => ⟨fun A alt α β => hexact.reduce_iff q hq A alt α β l,
    fun target => State.shift_mem_actions_iff, ?_, hexact.nodup q l⟩⟩
  rw [State.accept_mem_actions_iff, hexact.accepting_iff q hq]
  rfl

/-- An item is shifted at the beginning of a list. It is reduced to a list before another item and before the
end of input, for a list and the end may come after a list. -/
theorem Automaton.actions_exact_list :
    ∃ a, Automaton.ofGrammar Grammar.list = .ok a ∧ .shift 2 ∈ (a.state 0).actions (.terminal 0) ∧
      .reduce 2 1 1 ∈ (a.state 2).actions (.terminal 0) ∧
      .reduce 2 1 1 ∈ (a.state 2).actions (.terminal 1) := by
  obtain ⟨a, hok, h⟩ := Automaton.actions_exact Grammar.list_built Grammar.list_avoidsStart
  have hsize : a.states.size = 6 := (size_states hok).trans (by cbv)
  have hitem : a.walk? 0 [.terminal 0] = some 2 := (walk?_of_ofGrammar hok _ _).trans (by cbv)
  have hlist : a.walk? 0 [.rule 2] = some 1 := (walk?_of_ofGrammar hok _ _).trans (by cbv)
  have hshift : a.shift? 0 0 = some 2 := (Option.bind_fun_some _).symm.trans hitem
  have hgoto : a.goto? 0 2 = some 1 := (Option.bind_fun_some _).symm.trans hlist
  have hmore : Grammar.list.alternative 2 0 ∈ (Grammar.list.rule 2).alternatives :=
    Grammar.alternative_mem (by decide)
  have hend : Grammar.list.alternative 0 0 ∈ (Grammar.list.rule 0).alternatives :=
    Grammar.alternative_mem (by decide)
  -- a list comes after a list
  have hfollow : a.Follow Grammar.list 0 2 (.terminal 0) := by
    refine .first (.inl ⟨1, hgoto⟩) hmore (show _ = [] ++ Symbol.rule 2 :: [.rule 2] from rfl) rfl ⟨[], ?_⟩
    exact Grammar.derives_rule (show Grammar.list.alternative 2 1 ∈ _ from Grammar.alternative_mem (by decide))
      (.refl _)
  have hfollow' : a.Follow Grammar.list 0 2 (.terminal 1) := by
    refine .first (.inr ⟨rfl, rfl⟩) hend (show _ = [] ++ Symbol.rule 2 :: [.rule 1] from rfl) rfl ⟨[], ?_⟩
    exact Grammar.derives_rule (show Grammar.list.alternative 1 0 ∈ _ from Grammar.alternative_mem (by decide))
      (.refl _)
  have hreduce := fun l => (h 2 (hsize ▸ by decide) l).1 2 1 [.terminal 0] [] (by decide) (by decide) rfl
    Grammar.nullable_nil
  exact ⟨a, hok, (h 0 (hsize ▸ by decide) _).2.1 2 |>.2 ⟨0, rfl, hshift⟩, (hreduce _).2 ⟨0, hitem, hfollow⟩,
    (hreduce _).2 ⟨0, hitem, hfollow'⟩⟩

end ParseForest
