import ParseForest.Proofs.Automaton.Propagation
import ParseForest.Proofs.Automaton.Relations

/-!
# What follows a rule

`Automaton.Follow` is the specification of lookaheads: the least family of sets over the pairs of a
state and a rule that obeys the two rules by which lookaheads arise. `followSets` computes it
(`lists_followSets_iff`): what a pair reads follows every pair that leads to it through the inclusions
(`Reads.follow_of_leads`), and all that follows a pair comes about like this
(`Automaton.Follow.exists_reads`).

The code never computes first terminals. What it does instead is covered by `CanRead`: a terminal
can be read in a state when it can be shifted there after any number of gotos on nullable rules.
That is so exactly when the terminal is first after the dot of some item of the kernel
(`canRead_of_first`, `first_of_canRead`).
-/

namespace ParseForest

variable {g : Grammar} {a : Automaton}

/-- What may follow a rule that is begun in a state. -/
inductive Automaton.Follow (a : Automaton) (g : Grammar) : StateId → RuleId → Lookahead → Prop
  /-- Everything may be at its end -/
  | finish : Follow a g 0 g.start .finish
  /-- The rule may be followed by what the symbols after it begin with -/
  | first {p₀ p : StateId} {A B : RuleId} {alt : Alternative} {β γ : List Symbol} {t : TerminalId}
      (hp : IsPair g a.states p₀ A) (ha : alt ∈ (g.rule A).alternatives)
      (hs : alt.symbols = β ++ .rule B :: γ) (hw : a.walk? p₀ β = some p) (ht : g.Begins γ t) :
      Follow a g p B (.terminal t)
  /-- If the symbols after it may vanish, by what follows the rule that it is part of -/
  | tail {p₀ p : StateId} {A B : RuleId} {alt : Alternative} {β γ : List Symbol} {l : Lookahead}
      (hp : IsPair g a.states p₀ A) (ha : alt ∈ (g.rule A).alternatives)
      (hs : alt.symbols = β ++ .rule B :: γ) (hw : a.walk? p₀ β = some p) (hn : g.Nullable γ)
      (h : Follow a g p₀ A l) : Follow a g p B l

/-- Follow sets depend on transitions only. -/
theorem Automaton.Follow.congr {a a' : Automaton} (hg : ∀ p A, a'.goto? p A = a.goto? p A)
    (hw : ∀ p β, a'.walk? p β = a.walk? p β) {p : StateId} {A : RuleId} {l : Lookahead}
    (h : a.Follow g p A l) : a'.Follow g p A l := by
  have hpair : ∀ {p A}, IsPair g a.states p A → IsPair g a'.states p A := fun {p A} hp =>
    hp.imp_left fun ⟨q, hq⟩ => ⟨q, (hg p A).trans hq⟩
  induction h with
  | finish => exact .finish
  | first hp ha hs hwalk ht => exact .first (hpair hp) ha hs ((hw _ _).trans hwalk) ht
  | tail hp ha hs hwalk hn _ ih => exact .tail (hpair hp) ha hs ((hw _ _).trans hwalk) hn ih

/-! ## Reading -/

variable {states : Array State}

/-- A goto on a nullable rule. -/
def Skips (g : Grammar) (states : Array State) (q q' : StateId) : Prop :=
  ∃ C, g.Nullable [.rule C] ∧ (states.getD q default).goto? C = some q'

/-- The terminal can be shifted, perhaps after gotos on nullable rules. -/
def CanRead (g : Grammar) (states : Array State) (q : StateId) (t : TerminalId) : Prop :=
  ∃ q', Relation.ReflTransGen (Skips g states) q q' ∧
    ((states.getD q' default).shift? t).isSome

namespace IsLR0

variable (h : IsLR0 g states)
include h

/-- What is first after the dot of an item can be read. -/
theorem canRead_of_first {α : List Symbol} {t : TerminalId} (hf : g.First α t) {q : StateId}
    (hq : q < states.size) {i : Item} (hi : i ∈ (states.getD q default).items)
    (hα : (g.alternative i.rule i.alt).symbols.drop i.dot = α) : CanRead g states q t := by
  induction hf generalizing q i with
  | terminal t rest =>
    obtain ⟨q', hq'⟩ := h.total q hq i hi _ (Item.next?_of_drop hα)
    exact ⟨q, .refl, Option.isSome_iff_exists.2 ⟨q', hq'⟩⟩
  | @rule rule a t rest ha _ ih =>
    obtain ⟨alt, halt, rfl⟩ := Grammar.mem_alternatives_iff.1 ha
    exact ih hq (h.item_start hq hi (Item.next?_of_drop hα) halt) rfl
  | @skip s rest t hs _ ih =>
    cases s with
    | terminal t' => exact absurd hs Grammar.not_nullable_terminal
    | rule C =>
      obtain ⟨q', hq'⟩ := h.total q hq i hi _ (Item.next?_of_drop hα)
      obtain ⟨r, hsteps, hr⟩ := ih (h.target_lt hq') (h.step_item hi (Item.next?_of_drop hα) hq') (by
        rw [Item.advance, ← List.drop_drop, hα]
        rfl)
      exact ⟨r, .head ⟨C, hs, hq'⟩ hsteps, hr⟩

/-- What is first after the dot of any item is first after the dot of one of the kernel. -/
theorem first_of_kernel {q : StateId} (hq : q < states.size) {i : Item}
    (hi : i ∈ (states.getD q default).items) {t : TerminalId}
    (hf : g.First ((g.alternative i.rule i.alt).symbols.drop i.dot) t) :
    ∃ j ∈ (states.getD q default).kernel,
      g.First ((g.alternative j.rule j.alt).symbols.drop j.dot) t := by
  have hent := (h.mem_items_iff q hq i).1 hi
  clear hi
  induction hent with
  | kernel hk => exact ⟨_, hk, hf⟩
  | @start i j rule _ hr hj ih =>
    obtain ⟨hrule, hdot, halt⟩ := Item.mem_initial_iff.1 hj
    rw [hdot, List.drop_zero, hrule] at hf
    have hx := Item.nextRule?_eq_some_iff.1 hr
    refine ih ?_
    obtain ⟨hlt, he⟩ := List.getElem?_eq_some_iff.1 hx
    rw [List.drop_eq_getElem_cons hlt, he]
    exact .rule _ (Grammar.alternative_mem halt) hf

/-- A terminal that can be read after a transition is first after the dot of an item that has just
moved its dot over the symbol of the transition. -/
theorem first_of_canRead {q q' : StateId} {x : Symbol} {t : TerminalId}
    (hx : (states.getD q default).transition? x = some q') (hr : CanRead g states q' t) :
    ∃ i ∈ (states.getD q default).items, i.next? g = some x ∧
      g.First ((g.alternative i.rule i.alt).symbols.drop (i.dot + 1)) t := by
  have hback : ∀ {q q' : StateId} {x : Symbol} {i : Item},
      (states.getD q default).transition? x = some q' → i ∈ (states.getD q' default).items →
      g.First ((g.alternative i.rule i.alt).symbols.drop i.dot) t →
      ∃ j ∈ (states.getD q default).items, j.next? g = some x ∧
        g.First ((g.alternative j.rule j.alt).symbols.drop (j.dot + 1)) t := by
    intro q q' x i hx hi hf
    obtain ⟨-, hq', -, hk⟩ := h.target q x q' hx
    obtain ⟨k, hmem, hf⟩ := h.first_of_kernel hq' hi hf
    obtain ⟨j, hj, hnext, rfl⟩ := (hk k).1 hmem
    exact ⟨j, hj, hnext, hf⟩
  obtain ⟨r, hsteps, hr⟩ := hr
  induction hsteps using Relation.ReflTransGen.head_induction_on generalizing q x with
  | refl =>
    obtain ⟨s, hs⟩ := Option.isSome_iff_exists.1 hr
    obtain ⟨-, -, ⟨i, hi, hnext⟩, -⟩ := h.target r (.terminal t) s hs
    refine hback hx hi ?_
    obtain ⟨hlt, he⟩ := List.getElem?_eq_some_iff.1 hnext
    rw [List.drop_eq_getElem_cons hlt, he]
    exact .terminal t _
  | @head q₁ q₂ hskip _ ih =>
    obtain ⟨C, hC, hgoto⟩ := hskip
    obtain ⟨i, hi, hnext, hf⟩ := ih (x := .rule C) hgoto
    refine hback hx hi ?_
    obtain ⟨hlt, he⟩ := List.getElem?_eq_some_iff.1 hnext
    rw [List.drop_eq_getElem_cons hlt, he]
    exact .skip hC hf

end IsLR0

/-! ## The sets -/

theorem over_insertAll {n : Nat} (ts : List (TerminalId × StateId)) (hts : ∀ x ∈ ts, x.1 < n)
    {s : LookaheadSet} (hs : s.Over n) :
    (ts.foldl (fun s (a, _) => s.insert (.terminal a)) s).Over n ∧
      ∀ l, (ts.foldl (fun s (a, _) => s.insert (.terminal a)) s).lists l = true ↔
        s.lists l = true ∨ ∃ x ∈ ts, l = .terminal x.1 := by
  induction ts generalizing s with
  | nil => exact ⟨hs, by simp⟩
  | cons x ts ih =>
    have hx : (Lookahead.terminal x.1).IsOver n := hts x (.head _)
    obtain ⟨hover, hl⟩ := ih (fun y hy => hts y (.tail _ hy)) (LookaheadSet.over_insert hs hx)
    refine ⟨hover, fun l => ?_⟩
    rw [List.foldl_cons, hl, LookaheadSet.lists_insert_iff hs hx]
    simp only [List.mem_cons, exists_eq_or_imp]
    tauto

section Sets

variable {transitions : RuleTransitions} {w : Walks}

theorem IsLR0.shift_lt (hg : g.WellFormed) (h : IsLR0 g states) {q q' : StateId} {t : TerminalId}
    (ht : (states.getD q default).shift? t = some q') : t < g.terminals.size := by
  obtain ⟨hq, -, ⟨⟨rule, alt, dot⟩, hi, hx⟩, -⟩ := h.target q (.terminal t) q' ht
  have halt := (Item.mem_allItems_iff.1 (h.mem_allItems q hq _ hi)).1
  exact hg.terminal_lt rule _ (Grammar.alternative_mem halt) t (List.mem_of_getElem? hx)

/-- The terminals that can be shifted after a transition follow it directly, and the end follows the
virtual one. -/
theorem directFollow_spec (hg : g.WellFormed) (h : IsLR0 g states) (t : Nat) (p : StateId)
    (rule : RuleId) :
    (directFollow g.terminals.size states t p rule).Over g.terminals.size ∧
      ∀ l, (directFollow g.terminals.size states t p rule).lists l = true ↔
        (t = 0 ∧ l = .finish) ∨ (t ≠ 0 ∧ ∃ q, (states.getD p default).goto? rule = some q ∧
          ∃ a, ((states.getD q default).shift? a).isSome ∧ l = .terminal a) := by
  have hempty := LookaheadSet.over_empty g.terminals.size
  by_cases ht : t = 0
  · rw [directFollow, if_pos ht]
    have hfin : Lookahead.finish.IsOver g.terminals.size := trivial
    refine ⟨LookaheadSet.over_insert hempty hfin, fun l => ?_⟩
    rw [LookaheadSet.lists_insert_iff hempty hfin]
    simp [ht, LookaheadSet.not_lists_empty]
  · rw [directFollow, if_neg ht, targetState?, if_neg ht]
    cases hq : (states.getD p default).goto? rule with
    | none => exact ⟨hempty, fun l => by simp [ht, LookaheadSet.not_lists_empty]⟩
    | some q =>
      have hlookup : ∀ a, (∃ x ∈ (states.getD q default).shifts, x.1 = a) ↔
          ((states.getD q default).shift? a).isSome := fun a =>
        (isSome_searchKey_iff (h.increasing_shifts q)).symm
      obtain ⟨hover, hl⟩ := over_insertAll (states.getD q default).shifts (fun x hx => by
        obtain ⟨q', hq'⟩ := Option.isSome_iff_exists.1 ((hlookup x.1).1 ⟨x, hx, rfl⟩)
        exact h.shift_lt hg hq') hempty
      refine ⟨hover, fun l => ?_⟩
      rw [hl]
      simp only [ht, LookaheadSet.not_lists_empty, false_and, false_or, not_false_eq_true, true_and,
        ne_eq, Option.some.injEq, exists_eq_left', ← hlookup, Bool.false_eq_true]
      constructor
      · rintro ⟨x, hx, rfl⟩
        exact ⟨x.1, ⟨x, hx, rfl⟩, rfl⟩
      · rintro ⟨_, ⟨x, hx, rfl⟩, rfl⟩
        exact ⟨x, hx, rfl⟩

theorem mem_readsOf_iff (hg : g.WellFormed) (h : IsLR0 g states)
    (hn : IsNumbering g states transitions) {x y : Nat} {p : StateId} {rule : RuleId} :
    y ∈ readsOf g states transitions x p rule ↔ x ≠ 0 ∧ ∃ q q' C,
      (states.getD p default).goto? rule = some q ∧ g.Nullable [.rule C] ∧
      (states.getD q default).goto? C = some q' ∧ transitions.list[y]? = some (q, C) := by
  by_cases hx : x = 0
  · simp [readsOf, targetState?, hx]
  · rw [readsOf, targetState?, if_neg hx]
    cases hq : (states.getD p default).goto? rule with
    | none => simp
    | some q =>
      simp only [List.mem_filterMap, ne_eq, hx, not_false_eq_true, true_and, Option.some.injEq]
      constructor
      · rintro ⟨⟨C, q'⟩, hmem, hfind⟩
        by_cases hnull : g.isNullable C = true
        · rw [if_pos hnull] at hfind
          exact ⟨q, q', C, rfl, (hg.isNullable_iff C).1 hnull,
            h.goto?_eq_some_iff.2 hmem, (hn.find?_eq_some_iff q C y).1 hfind⟩
        · rw [if_neg hnull] at hfind
          cases hfind
      · rintro ⟨_, q', C, rfl, hnull, hgoto, hlist⟩
        refine ⟨(C, q'), h.goto?_eq_some_iff.1 hgoto, ?_⟩
        rw [if_pos ((hg.isNullable_iff C).2 hnull)]
        exact (hn.find?_eq_some_iff q C y).2 hlist

/-- What a transition reads: the end if it is the virtual one, and otherwise the terminals that can
be read where it leads. -/
def Reads (g : Grammar) (states : Array State) (transitions : RuleTransitions) (x : Nat)
    (l : Lookahead) : Prop :=
  (x = 0 ∧ l = .finish) ∨ (x ≠ 0 ∧ ∃ p rule q t, transitions.list[x]? = some (p, rule) ∧
    (states.getD p default).goto? rule = some q ∧ CanRead g states q t ∧ l = .terminal t)

theorem reads_iff (hg : g.WellFormed) (h : IsLR0 g states) (hn : IsNumbering g states transitions)
    {relation : Array (List Nat)} (hr : ∀ x p rule, transitions.list[x]? = some (p, rule) →
      relation.getD x [] = readsOf g states transitions x p rule)
    {x : Nat} {p : StateId} {rule : RuleId} (hx : transitions.list[x]? = some (p, rule))
    (l : Lookahead) :
    (∃ y p' rule', Leads relation x y ∧ transitions.list[y]? = some (p', rule') ∧
      (directFollow g.terminals.size states y p' rule').lists l = true) ↔
      Reads g states transitions x l := by
  constructor
  · rintro ⟨y, p', rule', hlead, hy, hl⟩
    rw [(directFollow_spec hg h y p' rule').2] at hl
    induction hlead using Relation.ReflTransGen.head_induction_on generalizing p rule with
    | refl =>
      rcases hl with hl | ⟨hne, q, hq, t, ht, rfl⟩
      · exact .inl hl
      · exact .inr ⟨hne, p', rule', q, t, hy, hq, ⟨q, .refl, ht⟩, rfl⟩
    | @head x z hz _ ih =>
      rw [hr x p rule hx, mem_readsOf_iff hg h hn] at hz
      obtain ⟨hne, q, q', C, hq, hC, hgoto, hlist⟩ := hz
      have hstart : z ≠ 0 := by
        rintro rfl
        rw [hn.virtual] at hlist
        obtain ⟨rfl, rfl⟩ := Prod.mk.inj (Option.some.inj hlist)
        exact h.ne_zero p (.rule rule) hq
      rcases ih hlist with ⟨h0, -⟩ | ⟨-, p₁, rule₁, q₁, t, hlist', hq₁, hread, rfl⟩
      · exact absurd h0 hstart
      · obtain ⟨rfl, rfl⟩ := Prod.mk.inj (Option.some.inj (hlist.symm.trans hlist'))
        obtain rfl := Option.some.inj (hgoto.symm.trans hq₁)
        obtain ⟨r, hsteps, ht⟩ := hread
        exact .inr ⟨hne, p, rule, q, t, hx, hq, ⟨r, .head ⟨C, hC, hgoto⟩ hsteps, ht⟩, rfl⟩
  · rintro (⟨rfl, rfl⟩ | ⟨hne, p', rule', q, t, hx', hq, hread, rfl⟩)
    · exact ⟨0, p, rule, .refl, hx, (directFollow_spec hg h 0 p rule).2 _ |>.2 (.inl ⟨rfl, rfl⟩)⟩
    · obtain ⟨r, hsteps, ht⟩ := hread
      clear hx
      induction hsteps using Relation.ReflTransGen.head_induction_on generalizing x p' rule' with
      | refl =>
        exact ⟨x, p', rule', .refl, hx',
          (directFollow_spec hg h x p' rule').2 _ |>.2 (.inr ⟨hne, r, hq, t, ht, rfl⟩)⟩
      | @head q₁ q₂ hskip _ ih =>
        obtain ⟨C, hC, hgoto⟩ := hskip
        obtain ⟨z, hz⟩ := Array.mem_iff_getElem?.1 ((hn.mem_iff q₁ C).2 (.inl ⟨q₂, hgoto⟩))
        have hz0 : z ≠ 0 := by
          rintro rfl
          rw [hn.virtual] at hz
          obtain ⟨rfl, rfl⟩ := Prod.mk.inj (Option.some.inj hz)
          exact h.ne_zero p' (.rule rule') hq
        obtain ⟨y, p₁, rule₁, hlead, hy, hl⟩ := ih hz0 q₁ C hz hgoto
        refine ⟨y, p₁, rule₁, .head ?_ hlead, hy, hl⟩
        rw [hr x p' rule' hx', mem_readsOf_iff hg h hn]
        exact ⟨hne, q₁, q₂, C, hq, hC, hgoto, hz⟩

theorem reads_sets (hg : g.WellFormed) (h : IsLR0 g states) (hn : IsNumbering g states transitions) :
    ∃ sets, propagate (transitions.list.mapIdx fun t (p, rule) => readsOf g states transitions t p rule)
        (transitions.list.mapIdx fun t (p, rule) => directFollow g.terminals.size states t p rule) =
        sets ∧ sets.size = transitions.list.size ∧ AllOver g.terminals.size sets ∧
      ∀ x < transitions.list.size, ∀ l,
        (sets.getD x default).lists l = true ↔ Reads g states transitions x l := by
  have hdirect : AllOver g.terminals.size (transitions.list.mapIdx fun t (p, rule) =>
      directFollow g.terminals.size states t p rule) := by
    intro x hx
    have hx' : x < transitions.list.size := by simpa using hx
    rw [Array.getD_mapIdx (Array.getElem?_eq_getElem hx')]
    exact (directFollow_spec hg h x _ _).1
  refine ⟨_, rfl, by rw [size_propagate hdirect (by simp), Array.size_mapIdx],
    allOver_propagate hdirect (by simp), fun x hx l => ?_⟩
  obtain ⟨⟨p, rule⟩, hv⟩ : ∃ v, transitions.list[x]? = some v := ⟨_, Array.getElem?_eq_getElem hx⟩
  have hrelation : ∀ x p rule, transitions.list[x]? = some (p, rule) →
      (transitions.list.mapIdx fun t (p, rule) =>
        readsOf g states transitions t p rule).getD x [] = readsOf g states transitions x p rule :=
    fun x p rule hx => Array.getD_mapIdx hx
  rw [lists_propagate_iff hdirect (by simp) (by simpa using hx), ← reads_iff hg h hn hrelation hv]
  constructor
  · rintro ⟨y, hy, hlead, hl⟩
    have hy' : y < transitions.list.size := by simpa using hy
    obtain ⟨⟨p', rule'⟩, hv'⟩ : ∃ v, transitions.list[y]? = some v :=
      ⟨_, Array.getElem?_eq_getElem hy'⟩
    rw [Array.getD_mapIdx hv'] at hl
    exact ⟨y, p', rule', hlead, hv', hl⟩
  · rintro ⟨y, p', rule', hlead, hv', hl⟩
    have hy := (Array.getElem?_eq_some_iff.1 hv').1
    refine ⟨y, by simpa using hy, hlead, ?_⟩
    rw [Array.getD_mapIdx hv']
    exact hl

theorem IsNumbering.isPair_iff (hn : IsNumbering g states transitions) {p : StateId} {A : RuleId} :
    (∃ x : Nat, transitions.list[x]? = some (p, A)) ↔ IsPair g states p A := by
  rw [← Array.mem_iff_getElem?, hn.mem_iff]

/-- What a pair reads follows it. -/
theorem Reads.follow (h : IsLR0 g states) (hn : IsNumbering g states transitions) {x : Nat}
    {p : StateId} {A : RuleId} {l : Lookahead} (hread : Reads g states transitions x l)
    (hx : transitions.list[x]? = some (p, A)) : (⟨states⟩ : Automaton).Follow g p A l := by
  rcases hread with ⟨rfl, rfl⟩ | ⟨-, p', A', q, t, hy, hq, hread, rfl⟩
  · obtain ⟨rfl, rfl⟩ := Prod.mk.inj (Option.some.inj (hn.virtual.symm.trans hx))
    exact .finish
  · obtain ⟨rfl, rfl⟩ := Prod.mk.inj (Option.some.inj (hx.symm.trans hy))
    obtain ⟨⟨rule, alt, dot⟩, hi, hnext, hf⟩ := h.first_of_canRead (x := .rule A) hq hread
    have hp := h.source_lt (x := .rule A) hq
    obtain ⟨p₀, hp₀, hwalk, hstart⟩ := h.exists_walk hp hi
    have halt := (Item.mem_allItems_iff.1 (h.mem_allItems p hp _ hi)).1
    refine .first (h.isPair_of_item hp₀ hstart) (Grammar.alternative_mem halt) ?_ hwalk
      (Grammar.begins_iff_first.2 hf)
    obtain ⟨hlt, he⟩ := List.getElem?_eq_some_iff.1 hnext
    rw [← he, ← List.drop_eq_getElem_cons, List.take_append_drop]

/-- What the symbols after a rule begin with is read by the pair of the rule. -/
theorem reads_of_begins (hg : g.WellFormed) (h : IsLR0 g states)
    (hn : IsNumbering g states transitions) {p₀ p : StateId} {A B : RuleId} {alt : Alternative}
    {β γ : List Symbol} {t : TerminalId} (hp : IsPair g states p₀ A)
    (ha : alt ∈ (g.rule A).alternatives) (hs : alt.symbols = β ++ .rule B :: γ)
    (hwalk : (⟨states⟩ : Automaton).walk? p₀ β = some p) (ht : g.Begins γ t) {x : Nat}
    (hx : transitions.list[x]? = some (p, B)) : Reads g states transitions x (.terminal t) := by
  obtain ⟨alt, halt, rfl⟩ := Grammar.mem_alternatives_iff.1 ha
  obtain ⟨q, hq, hi⟩ := h.inner_of_isPair hg hp halt hs hwalk
  have hread : CanRead g states q t := by
    refine h.canRead_of_first (α := γ) (Grammar.begins_iff_first.1 ht)
      (h.target_lt (x := .rule B) hq) hi ?_
    rw [hs, ← List.drop_drop, List.drop_left]
    rfl
  have hx0 : x ≠ 0 := by
    rintro rfl
    obtain ⟨rfl, rfl⟩ := Prod.mk.inj (Option.some.inj (hn.virtual.symm.trans hx))
    exact hn.not_start 0 q hq
  exact .inr ⟨hx0, p, B, q, t, hx, hq, hread, rfl⟩

/-- What is read by a pair follows every pair that leads to it through the inclusions: each of these
is a use of the second rule. -/
theorem Reads.follow_of_leads (h : IsLR0 g states) (hn : IsNumbering g states transitions)
    (hw : IsRelations g states transitions w) {x y : Nat} {p : StateId} {A : RuleId} {l : Lookahead}
    (hread : Reads g states transitions y l) (hlead : Leads w.includes x y)
    (hx : transitions.list[x]? = some (p, A)) : (⟨states⟩ : Automaton).Follow g p A l := by
  induction hlead using Relation.ReflTransGen.head_induction_on generalizing p A with
  | refl => exact hread.follow h hn hx
  | @head x z hz _ ih =>
    obtain ⟨p₀, A₀, hz', a, ha, β, B, γ, q, hs, hnull, hwalk, hfind⟩ := (hw.includes_iff x z).1 hz
    have hxq := (hn.find?_eq_some_iff q B x).1 hfind
    obtain ⟨rfl, rfl⟩ := Prod.mk.inj (Option.some.inj (hx.symm.trans hxq))
    exact .tail (hn.isPair_iff.1 ⟨z, hz'⟩) ha hs hwalk hnull (ih hz')

/-- Whatever follows a pair is read by one that it leads to through the inclusions. -/
theorem Automaton.Follow.exists_reads (hg : g.WellFormed) (h : IsLR0 g states)
    (hn : IsNumbering g states transitions) (hw : IsRelations g states transitions w) {p : StateId}
    {A : RuleId} {l : Lookahead} (hf : (⟨states⟩ : Automaton).Follow g p A l) {x : Nat}
    (hx : transitions.list[x]? = some (p, A)) :
    ∃ y < transitions.list.size, Leads w.includes x y ∧ Reads g states transitions y l := by
  induction hf generalizing x with
  | finish =>
    obtain rfl : x = 0 := by
      have h0 := (hn.find?_eq_some_iff _ _ _).2 hn.virtual
      exact Option.some.inj (((hn.find?_eq_some_iff _ _ _).2 hx).symm.trans h0)
    exact ⟨0, (Array.getElem?_eq_some_iff.1 hx).1, .refl, .inl ⟨rfl, rfl⟩⟩
  | first hp ha hs hwalk ht =>
    exact ⟨x, (Array.getElem?_eq_some_iff.1 hx).1, .refl, reads_of_begins hg h hn hp ha hs hwalk ht hx⟩
  | @tail p₀ p A B alt β γ l hp ha hs hwalk hnull _ ih =>
    obtain ⟨z, hz⟩ := hn.isPair_iff.2 hp
    obtain ⟨y, hy, hlead, hread⟩ := ih hz
    refine ⟨y, hy, .head ((hw.includes_iff x z).2 ⟨p₀, A, hz, alt, ha, β, B, γ, p, hs, hnull, hwalk,
      (hn.find?_eq_some_iff p B x).2 hx⟩) hlead, hread⟩

/-- The code's follow sets are the specified ones. -/
theorem lists_followSets_iff (hg : g.WellFormed) (h : IsLR0 g states)
    (hn : IsNumbering g states transitions) (hw : IsRelations g states transitions w) :
    AllOver g.terminals.size (followSets g states transitions w.includes) ∧
      (followSets g states transitions w.includes).size = transitions.list.size ∧
      ∀ x p A, transitions.list[x]? = some (p, A) → ∀ l,
        ((followSets g states transitions w.includes).getD x default).lists l = true ↔
          (⟨states⟩ : Automaton).Follow g p A l := by
  obtain ⟨sets, hsets, hsize, hover, hreads⟩ := reads_sets hg h hn
  have hfollow : followSets g states transitions w.includes = propagate w.includes sets := by
    rw [← hsets]
    rfl
  have hincludes : w.includes.size = sets.size := hw.size_eq.trans hsize.symm
  have hlists : ∀ x < transitions.list.size, ∀ l,
      ((propagate w.includes sets).getD x default).lists l = true ↔
        ∃ y < transitions.list.size, Leads w.includes x y ∧ Reads g states transitions y l := by
    intro x hx l
    rw [lists_propagate_iff hover hincludes (hsize ▸ hx), hsize]
    refine exists_congr fun y => and_congr_right fun hy => and_congr_right fun _ => hreads y hy l
  rw [hfollow]
  refine ⟨allOver_propagate hover hincludes, by rw [size_propagate hover hincludes, hsize],
    fun x p A hx l => ?_⟩
  rw [hlists x (Array.getElem?_eq_some_iff.1 hx).1 l]
  constructor
  · rintro ⟨y, -, hlead, hread⟩
    exact hread.follow_of_leads h hn hw hlead hx
  · intro hf
    exact hf.exists_reads hg h hn hw hx

/-- Only pairs are followed by anything. -/
theorem Automaton.Follow.isPair (hg : g.WellFormed) (h : IsLR0 g states) {p : StateId} {A : RuleId}
    {l : Lookahead} (hf : (⟨states⟩ : Automaton).Follow g p A l) : IsPair g states p A := by
  have hinner : ∀ {p₀ p : StateId} {A B : RuleId} {a : Alternative} {β γ : List Symbol},
      IsPair g states p₀ A → a ∈ (g.rule A).alternatives → a.symbols = β ++ .rule B :: γ →
      walkFrom states p₀ β = some p → IsPair g states p B := by
    intro p₀ p A B a β γ hp ha hs hw
    obtain ⟨alt, halt, rfl⟩ := Grammar.mem_alternatives_iff.1 ha
    obtain ⟨q, hq, -⟩ := h.inner_of_isPair hg hp halt hs hw
    exact .inl ⟨q, hq⟩
  cases hf with
  | finish => exact .inr ⟨rfl, rfl⟩
  | first hp ha hs hw _ => exact hinner hp ha hs hw
  | tail hp ha hs hw _ _ => exact hinner hp ha hs hw

end Sets

end ParseForest
