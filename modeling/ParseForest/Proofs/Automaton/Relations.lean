import ParseForest.Proofs.Automaton.Transitions

/-!
# The relations between rule transitions

`walkAll` never fails on the automaton of a grammar, and notes exactly the pairs that the header of
`Automaton.Reductions` describes: which transition includes which (`Walks.Includes`), and from which
transitions an item is reduced in a state (`Walks.Looks`).

Every step only adds pairs. So each is described by what it adds (`Walks.Adds`), and a loop adds
what its steps add (`foldlM_adds`).
-/

namespace ParseForest

namespace Walks

/-- Transition `i` includes transition `t`. -/
def Includes (w : Walks) (i t : Nat) : Prop := t ∈ w.includes.getD i []

/-- The item is reduced in the state from transition `t`. -/
def Looks (w : Walks) (q : StateId) (item : Item) (t : Nat) : Prop :=
  t ∈ (w.lookback[(q, item)]?).getD []

/-- Nothing is noted without a transition. -/
def Sourced (w : Walks) : Prop := ∀ key : StateId × Item, w.lookback[key]? ≠ some []

/-- The second relations are the first ones and the given pairs. -/
structure Adds (w w' : Walks) (I : Nat → Nat → Prop) (L : StateId → Item → Nat → Prop) : Prop where
  size_eq : w'.includes.size = w.includes.size
  includes_iff : ∀ i t, w'.Includes i t ↔ w.Includes i t ∨ I i t
  looks_iff : ∀ q item t, w'.Looks q item t ↔ w.Looks q item t ∨ L q item t
  sourced : w.Sourced → w'.Sourced

variable {w w' w'' : Walks} {I I' : Nat → Nat → Prop} {L L' : StateId → Item → Nat → Prop}

theorem Adds.refl (w : Walks) : w.Adds w (fun _ _ => False) (fun _ _ _ => False) :=
  ⟨rfl, by simp, by simp, id⟩

theorem Adds.trans (h : w.Adds w' I L) (h' : w'.Adds w'' I' L') :
    w.Adds w'' (fun i t => I i t ∨ I' i t) (fun q item t => L q item t ∨ L' q item t) where
  size_eq := h'.size_eq.trans h.size_eq
  includes_iff i t := by rw [h'.includes_iff, h.includes_iff, or_assoc]
  looks_iff q item t := by rw [h'.looks_iff, h.looks_iff, or_assoc]
  sourced hs := h'.sourced (h.sourced hs)

theorem Adds.congr (h : w.Adds w' I L) (hI : ∀ i t, I i t ↔ I' i t)
    (hL : ∀ q item t, L q item t ↔ L' q item t) : w.Adds w' I' L' where
  size_eq := h.size_eq
  includes_iff i t := by rw [h.includes_iff, hI]
  looks_iff q item t := by rw [h.looks_iff, hL]
  sourced := h.sourced

theorem adds_addLookback (w : Walks) (q : StateId) (item : Item) (t : Nat) :
    w.Adds (w.addLookback q item t) (fun _ _ => False)
      (fun q' item' t' => q' = q ∧ item' = item ∧ t' = t) where
  size_eq := rfl
  includes_iff i t := by simp [Includes, addLookback]
  looks_iff q' item' t' := by
    rw [Looks, addLookback, Std.HashMap.getElem?_alter, Looks]
    by_cases h : (q, item) = (q', item')
    · obtain ⟨rfl, rfl⟩ := Prod.mk.inj h
      simp [or_comm]
    · rw [if_neg (by simpa using h)]
      refine ⟨.inl, ?_⟩
      rintro (h' | ⟨rfl, rfl, -⟩)
      · exact h'
      · exact absurd rfl h
  sourced hs key := by
    rw [addLookback, Std.HashMap.getElem?_alter]
    split
    · simp
    · exact hs key

theorem adds_ite_addLookback (w : Walks) (c : Prop) [Decidable c] (q : StateId) (item : Item) (t : Nat) :
    w.Adds (if c then w.addLookback q item t else w) (fun _ _ => False)
      (fun q' item' t' => t' = t ∧ c ∧ q' = q ∧ item' = item) := by
  by_cases hc : c
  · rw [if_pos hc]
    refine (adds_addLookback w q item t).congr (fun _ _ => Iff.rfl) fun q' item' t' => ?_
    simp only [hc, true_and]
    tauto
  · rw [if_neg hc]
    exact (Adds.refl w).congr (fun _ _ => Iff.rfl) (by simp [hc])

theorem adds_addInclude (w : Walks) {i : Nat} (hi : i < w.includes.size) (t : Nat) :
    w.Adds (w.addInclude i t) (fun i' t' => i' = i ∧ t' = t) (fun _ _ _ => False) where
  size_eq := by simp [addInclude]
  includes_iff i' t' := by
    rw [Includes, addInclude, Includes]
    by_cases h : i = i'
    · subst h
      rw [Array.getD_modify_self hi]
      simp [or_comm]
    · rw [Array.getD_modify_ne h]
      simp [Ne.symm h]
  looks_iff q item t := by simp [Looks, addInclude]
  sourced hs := hs

theorem adds_addInclude? (w : Walks) (inner : Option Nat) (t : Nat) :
    (∀ i, inner = some i → i < w.includes.size) →
    w.Adds (match inner with
      | some i => w.addInclude i t
      | none => w) (fun i t' => t' = t ∧ inner = some i) (fun _ _ _ => False) := by
  intro h
  cases inner with
  | none => exact (Adds.refl w).congr (by simp) (by simp)
  | some i =>
    refine (adds_addInclude w (h i rfl) t).congr (fun j t' => ?_) (by simp)
    rw [Option.some.injEq, and_comm, eq_comm (a := i)]

/-- A loop adds what its steps add. -/
theorem foldlM_adds {α : Type} {n : Nat} {f : Walks → α → Except GrammarError Walks}
    {I : α → Nat → Nat → Prop} {L : α → StateId → Item → Nat → Prop} (xs : List α)
    (hf : ∀ x ∈ xs, ∀ w : Walks, w.includes.size = n →
      ∃ w', f w x = .ok w' ∧ w.Adds w' (I x) (L x))
    {w : Walks} (hw : w.includes.size = n) :
    ∃ w', xs.foldlM f w = .ok w' ∧
      w.Adds w' (fun i t => ∃ x ∈ xs, I x i t) (fun q item t => ∃ x ∈ xs, L x q item t) := by
  induction xs generalizing w with
  | nil => exact ⟨w, rfl, (Adds.refl w).congr (by simp) (by simp)⟩
  | cons x xs ih =>
    obtain ⟨w', hx, ha⟩ := hf x (.head _) w hw
    obtain ⟨w'', hxs, ha'⟩ :=
      ih (fun y hy => hf y (.tail _ hy)) (w := w') (ha.size_eq.trans hw)
    refine ⟨w'', ?_, (ha.trans ha').congr (by simp) (by simp)⟩
    rw [List.foldlM_cons, hx]
    exact hxs

end Walks

/-! ## One walk -/

section

variable {g : Grammar} {states : Array State} {transitions : RuleTransitions}

/-- The transitions that a walk from `q` over the symbols finds to include its own. -/
def InnerOf (states : Array State) (transitions : RuleTransitions) (nullableFrom dot : Nat)
    (q : StateId) (symbols : List Symbol) (i : Nat) : Prop :=
  ∃ β B γ p, symbols = β ++ .rule B :: γ ∧ nullableFrom ≤ dot + β.length + 1 ∧
    walkFrom states q β = some p ∧ transitions.find? p B = some i

/-- Where a walk from `q` over the symbols finds an item to reduce. -/
def ReducedAt (states : Array State) (rule : RuleId) (alt nullableFrom dot : Nat) (q : StateId)
    (symbols : List Symbol) (p : StateId) (item : Item) : Prop :=
  ∃ α β, symbols = α ++ β ∧ nullableFrom ≤ dot + α.length ∧ walkFrom states q α = some p ∧
    item = ⟨rule, alt, dot + α.length⟩

theorem innerOf_cons_iff {nullableFrom dot : Nat} {q q' : StateId} {x : Symbol}
    {symbols : List Symbol} (hx : (states.getD q default).transition? x = some q') {i : Nat} :
    InnerOf states transitions nullableFrom dot q (x :: symbols) i ↔
      (nullableFrom ≤ dot + 1 ∧ ∃ B, x = .rule B ∧ transitions.find? q B = some i) ∨
        InnerOf states transitions nullableFrom (dot + 1) q' symbols i := by
  constructor
  · rintro ⟨β, B, γ, p, hs, hn, hw, hi⟩
    cases β with
    | nil =>
      obtain ⟨rfl, rfl⟩ := List.cons.inj hs
      obtain rfl := Option.some.inj hw
      exact .inl ⟨hn, B, rfl, hi⟩
    | cons y β =>
      obtain ⟨rfl, rfl⟩ := List.cons.inj hs
      rw [walkFrom, hx] at hw
      exact .inr ⟨β, B, γ, p, rfl, by rw [List.length_cons] at hn; omega, hw, hi⟩
  · rintro (⟨hn, B, rfl, hi⟩ | ⟨β, B, γ, p, rfl, hn, hw, hi⟩)
    · exact ⟨[], B, symbols, q, rfl, hn, rfl, hi⟩
    · exact ⟨x :: β, B, γ, p, rfl, by rw [List.length_cons]; omega, by rw [walkFrom, hx]; exact hw,
        hi⟩

theorem reducedAt_cons_iff {rule : RuleId} {alt nullableFrom dot : Nat} {q q' p : StateId}
    {x : Symbol} {symbols : List Symbol} {item : Item}
    (hx : (states.getD q default).transition? x = some q') :
    ReducedAt states rule alt nullableFrom dot q (x :: symbols) p item ↔
      (nullableFrom ≤ dot ∧ p = q ∧ item = ⟨rule, alt, dot⟩) ∨
        ReducedAt states rule alt nullableFrom (dot + 1) q' symbols p item := by
  constructor
  · rintro ⟨α, β, hs, hn, hw, rfl⟩
    cases α with
    | nil => exact .inl ⟨hn, (Option.some.inj hw).symm, rfl⟩
    | cons y α =>
      obtain ⟨rfl, rfl⟩ := List.cons.inj hs
      rw [walkFrom, hx] at hw
      rw [List.length_cons] at hn ⊢
      exact .inr ⟨α, β, rfl, by omega, hw, by rw [Nat.add_assoc, Nat.add_comm 1]⟩
  · rintro (⟨hn, rfl, rfl⟩ | ⟨α, β, rfl, hn, hw, rfl⟩)
    · exact ⟨[], x :: symbols, rfl, hn, rfl, rfl⟩
    · exact ⟨x :: α, β, rfl, by rw [List.length_cons]; omega, by rw [walkFrom, hx]; exact hw,
        by rw [List.length_cons, Nat.add_assoc, Nat.add_comm 1]⟩

/-- A walk over symbols that lead somewhere notes what it should, and does not fail. -/
theorem walkSymbols_adds {t : Nat} {rule : RuleId} {alt nullableFrom : Nat} {n : Nat}
    (hfind : ∀ p B i, transitions.find? p B = some i → i < n) (symbols : List Symbol) {dot : Nat}
    {q : StateId} (hq : (walkFrom states q symbols).isSome) (hend : nullableFrom ≤ dot + symbols.length)
    {w : Walks} (hw : w.includes.size = n) :
    ∃ w', walkSymbols g states transitions t rule alt nullableFrom dot q symbols w = .ok w' ∧
      w.Adds w' (fun i t' => t' = t ∧ InnerOf states transitions nullableFrom dot q symbols i)
        (fun p item t' => t' = t ∧ ReducedAt states rule alt nullableFrom dot q symbols p item) := by
  induction symbols generalizing dot q w with
  | nil =>
    refine ⟨_, rfl, (Walks.adds_addLookback w q ⟨rule, alt, dot⟩ t).congr (fun i t' => ?_)
      fun p item t' => ?_⟩
    · simp [InnerOf]
    · constructor
      · rintro ⟨rfl, rfl, rfl⟩
        exact ⟨rfl, [], [], rfl, hend, rfl, rfl⟩
      · rintro ⟨rfl, α, β, hs, -, hw, rfl⟩
        obtain ⟨rfl, rfl⟩ := List.append_eq_nil_iff.1 hs.symm
        exact ⟨(Option.some.inj hw).symm, rfl, rfl⟩
  | cons x symbols ih =>
    obtain ⟨r, hr⟩ := Option.isSome_iff_exists.1 hq
    obtain ⟨q', hx, hrest⟩ := Option.bind_eq_some_iff.1 hr
    -- what the step notes before it moves on: the item, and then the inner transition
    have ha₁ := w.adds_ite_addLookback (nullableFrom ≤ dot) q ⟨rule, alt, dot⟩ t
    generalize hw₁ : (if nullableFrom ≤ dot then w.addLookback q ⟨rule, alt, dot⟩ t else w) = w₁ at ha₁
    obtain ⟨inner, hinner⟩ : ∃ inner, (if nullableFrom ≤ dot + 1
        then x.rule?.bind (transitions.find? q) else none) = inner := ⟨_, rfl⟩
    have hinner_iff : ∀ i, inner = some i ↔
        nullableFrom ≤ dot + 1 ∧ ∃ B, x = .rule B ∧ transitions.find? q B = some i := by
      intro i
      rw [← hinner]
      by_cases hn : nullableFrom ≤ dot + 1
      · cases x <;> simp [hn, Symbol.rule?]
      · simp [hn]
    have ha₂ := Walks.adds_addInclude? w₁ inner t fun i hi => by
      obtain ⟨-, B, -, hB⟩ := (hinner_iff i).1 hi
      rw [ha₁.size_eq, hw]
      exact hfind q B i hB
    have hsome : (walkFrom states q' symbols).isSome = true := by
      rw [hrest]
      rfl
    have hend' : nullableFrom ≤ dot + 1 + symbols.length := by
      rw [List.length_cons] at hend
      omega
    obtain ⟨w', hrun, ha⟩ := ih hsome hend'
      (ha₂.size_eq.trans (ha₁.size_eq.trans hw))
    refine ⟨w', ?_, ((ha₁.trans ha₂).trans ha).congr (fun i t' => ?_) fun p item t' => ?_⟩
    · rw [walkSymbols]
      simp only [hw₁, hinner, hx]
      exact hrun
    · rw [innerOf_cons_iff hx, hinner_iff, false_or, ← and_or_left]
    · rw [reducedAt_cons_iff hx, or_false, ← and_or_left]

end

/-! ## All walks -/

variable {g : Grammar} {states : Array State}

/-- What walks from a transition note. -/
structure IsRelations (g : Grammar) (states : Array State) (transitions : RuleTransitions)
    (w : Walks) : Prop where
  size_eq : w.includes.size = transitions.list.size
  includes_iff : ∀ i t, w.Includes i t ↔ ∃ p rule, transitions.list[t]? = some (p, rule) ∧
    ∃ a ∈ (g.rule rule).alternatives, ∃ β B γ q, a.symbols = β ++ .rule B :: γ ∧ g.Nullable γ ∧
      walkFrom states p β = some q ∧ transitions.find? q B = some i
  looks_iff : ∀ q item t, w.Looks q item t ↔ ∃ p, transitions.list[t]? = some (p, item.rule) ∧
    item.alt < (g.rule item.rule).alternatives.size ∧
    ∃ α β, (g.alternative item.rule item.alt).symbols = α ++ β ∧ α.length = item.dot ∧
      g.Nullable β ∧ walkFrom states p α = some q
  sourced : w.Sourced

theorem mem_zipIdx_alternatives_iff {rule : RuleId} {y : Alternative × Nat} :
    y ∈ (g.rule rule).alternatives.toList.zipIdx ↔
      ∃ alt < (g.rule rule).alternatives.size, (g.alternative rule alt, alt) = y := by
  have halts : (g.rule rule).alternatives.toList.zipIdx =
      (List.range (g.rule rule).alternatives.size).map fun alt => (g.alternative rule alt, alt) :=
    Array.zipIdx_toList _ default
  simp only [halts, List.mem_map, List.mem_range]

/-- Whether the rest of an alternative after some of its symbols can be left out. -/
theorem Grammar.WellFormed.nullableFrom_le_length_iff (hg : g.WellFormed) {rule : RuleId} {a : Alternative}
    (ha : a ∈ (g.rule rule).alternatives) {α β : List Symbol} (hs : a.symbols = α ++ β) :
    a.nullableFrom ≤ α.length ↔ g.Nullable β := by
  rw [hg.nullableFrom_le_iff rule _ ha, hs, List.drop_left]

section

variable {transitions : RuleTransitions} (h : IsListing g states transitions) (hlr : IsLR0 g states)
  (hg : g.WellFormed)
include h hlr hg

/-- The walk of one alternative from one transition. -/
theorem IsListing.walkSymbols_ok {t : Nat} {p : StateId} {rule : RuleId} {alt : Nat}
    (ht : transitions.list[t]? = some (p, rule)) (halt : alt < (g.rule rule).alternatives.size)
    {w : Walks} (hw : w.includes.size = transitions.list.size) :
    ∃ w', walkSymbols g states transitions t rule alt (g.alternative rule alt).nullableFrom 0 p
        (g.alternative rule alt).symbols w = .ok w' ∧
      w.Adds w' (fun i t' => t' = t ∧ InnerOf states transitions
          (g.alternative rule alt).nullableFrom 0 p (g.alternative rule alt).symbols i)
        (fun q item t' => t' = t ∧ ReducedAt states rule alt
          (g.alternative rule alt).nullableFrom 0 p (g.alternative rule alt).symbols q item) := by
  have hfind : ∀ p B i, transitions.find? p B = some i → i < transitions.list.size :=
    fun p B i hi => (Array.getElem?_eq_some_iff.1 (h.getElem?_of_find? p B i hi)).1
  obtain ⟨hp, hitem⟩ := hlr.item_of_isPair hg ((h.mem_iff p rule).1 (Array.mem_of_getElem? ht)) halt
  obtain ⟨q, hq, -⟩ := hlr.walk_item hp hitem (α := (g.alternative rule alt).symbols) (β := [])
    (by simp)
  refine walkSymbols_adds hfind _ (by rw [hq]; rfl) ?_ hw
  rw [Nat.zero_add, hg.nullableFrom_le_length_iff (Grammar.alternative_mem halt) (List.append_nil _).symm]
  exact Grammar.nullable_nil

/-- The walks of all alternatives from one transition. -/
theorem IsListing.walkAlternatives_ok {x : (StateId × RuleId) × Nat}
    (hx : x ∈ transitions.list.toList.zipIdx) {w : Walks}
    (hw : w.includes.size = transitions.list.size) :
    ∃ w', (g.rule x.1.2).alternatives.toList.zipIdx.foldlM
        (fun w (y : Alternative × Nat) => walkSymbols g states transitions x.2 x.1.2 y.2
          y.1.nullableFrom 0 x.1.1 y.1.symbols w) w = .ok w' ∧
      w.Adds w' (fun i t' => ∃ y ∈ (g.rule x.1.2).alternatives.toList.zipIdx, t' = x.2 ∧
          InnerOf states transitions y.1.nullableFrom 0 x.1.1 y.1.symbols i)
        (fun q item t' => ∃ y ∈ (g.rule x.1.2).alternatives.toList.zipIdx, t' = x.2 ∧
          ReducedAt states x.1.2 y.2 y.1.nullableFrom 0 x.1.1 y.1.symbols q item) := by
  obtain ⟨⟨p, rule⟩, t⟩ := x
  have ht : transitions.list[t]? = some (p, rule) := by
    simpa using List.mk_mem_zipIdx_iff_getElem?.1 hx
  refine Walks.foldlM_adds _ (fun y hy w hw => ?_) hw
  obtain ⟨alt, halt, rfl⟩ := mem_zipIdx_alternatives_iff.1 hy
  exact h.walkSymbols_ok hlr hg ht halt hw

theorem IsListing.walkAll_ok :
    ∃ w, walkAll g states transitions = .ok w ∧ IsRelations g states transitions w := by
  obtain ⟨w, hrun, ha⟩ := Walks.foldlM_adds _ (fun x hx w hw => h.walkAlternatives_ok hlr hg hx hw)
    (w := ⟨Array.replicate transitions.list.size [], ∅⟩) (by simp)
  have hempty : ∀ i : Nat, (Array.replicate transitions.list.size ([] : List Nat)).getD i [] = [] := by
    intro i
    by_cases hi : i < transitions.list.size <;> simp [Array.getD, hi]
  have hmem : ∀ {t : Nat} {p rule}, ((p, rule), t) ∈ transitions.list.toList.zipIdx ↔
      transitions.list[t]? = some (p, rule) := by
    intro t p rule
    rw [List.mk_mem_zipIdx_iff_getElem?, Array.getElem?_toList]
  refine ⟨w, hrun, by rw [ha.size_eq, Array.size_replicate], fun i t => ?_, fun q item t => ?_,
    ha.sourced fun key => by simp⟩
  · rw [ha.includes_iff, Walks.Includes, hempty]
    simp only [List.not_mem_nil, false_or]
    constructor
    · rintro ⟨⟨⟨p, rule⟩, t⟩, hx, y, hy, rfl, β, B, γ, q, hs, hn, hw, hi⟩
      obtain ⟨alt, halt, rfl⟩ := mem_zipIdx_alternatives_iff.1 hy
      have hmem' := Grammar.alternative_mem halt
      refine ⟨p, rule, hmem.1 hx, _, hmem', β, B, γ, q, hs, ?_, hw, hi⟩
      exact (hg.nullableFrom_le_length_iff hmem' (hs.trans (List.append_cons β _ γ))).1 (by simpa using hn)
    · rintro ⟨p, rule, ht, a, ha', β, B, γ, q, hs, hn, hw, hi⟩
      obtain ⟨alt, halt, rfl⟩ := Grammar.mem_alternatives_iff.1 ha'
      refine ⟨_, hmem.2 ht, (g.alternative rule alt, alt), mem_zipIdx_alternatives_iff.2 ⟨alt, halt, rfl⟩,
        rfl, β, B, γ, q, hs, ?_, hw, hi⟩
      simpa using (hg.nullableFrom_le_length_iff ha' (hs.trans (List.append_cons β _ γ))).2 hn
  · rw [ha.looks_iff]
    constructor
    · rintro (h' | ⟨⟨⟨p, rule⟩, t⟩, hx, y, hy, rfl, α, β, hs, hn, hw, rfl⟩)
      · simp [Walks.Looks] at h'
      · obtain ⟨alt, halt, rfl⟩ := mem_zipIdx_alternatives_iff.1 hy
        rw [Nat.zero_add, hg.nullableFrom_le_length_iff (Grammar.alternative_mem halt) hs] at hn
        exact ⟨p, hmem.1 hx, halt, α, β, hs, (Nat.zero_add _).symm, hn, hw⟩
    · rintro ⟨p, ht, halt, α, β, hs, hlen, hn, hw⟩
      obtain ⟨rule, alt, dot⟩ := item
      subst hlen
      refine .inr ⟨_, hmem.2 ht, (g.alternative rule alt, alt),
        mem_zipIdx_alternatives_iff.2 ⟨alt, halt, rfl⟩, rfl, α, β, hs, ?_, hw, ?_⟩
      · rwa [Nat.zero_add, hg.nullableFrom_le_length_iff (Grammar.alternative_mem halt) hs]
      · rw [Nat.zero_add]

end

end ParseForest
