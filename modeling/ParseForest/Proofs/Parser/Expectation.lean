import ParseForest.Proofs.Automaton.Actions
import ParseForest.Proofs.Parser.Recognition

/-!
# What the states of a level expect

Where a derivation comes to a terminal (`ComesTo`), whether or not the next token satisfies it, some
stack node at its position has an action before it (`Finished.exists_expecting`). A level reduces only
before the token that it has, so this need not be the node that shifts the terminal; it may be one at
the end of a tree whose reduction the terminal would allow (`Finished.foretold`).
-/

namespace ParseForest

/-!
## Viable prefixes

Symbols that lead from the first state to a state begin something that the rule that accepts derives,
and after them may come what stands after the dot of any item of the state
(`IsLR0.exists_derives_of_walk`). Conversely a state has an action before every terminal that may come
first after one of its dots (`Automaton.IsExact.expects_of_first`): it shifts the terminal, or reduces an
empty rule that stands before it.
-/

section

variable {g : Grammar}

/-- If the items of the kernel may come after symbols, so may all items of the state. -/
theorem exists_derives_of_entailed {α : List Symbol} {kernel : List Item}
    (hkernel : ∀ i ∈ kernel, ∃ δ, g.Derives [.rule g.start]
      (α ++ (g.alternative i.rule i.alt).symbols.drop i.dot ++ δ)) {i : Item}
    (h : Entailed g kernel i) :
    ∃ δ, g.Derives [.rule g.start] (α ++ (g.alternative i.rule i.alt).symbols.drop i.dot ++ δ) := by
  induction h with
  | kernel hk => exact hkernel _ hk
  | @start i j rule _ hr hj ih =>
    obtain ⟨hrule, hdot, halt⟩ := Item.mem_initial_iff.1 hj
    obtain ⟨hlt, he⟩ := List.getElem?_eq_some_iff.1 (Item.nextRule?_eq_some_iff.1 hr)
    obtain ⟨δ, hd⟩ := ih
    rw [List.drop_eq_getElem_cons hlt, he] at hd
    refine ⟨(g.alternative i.rule i.alt).symbols.drop (i.dot + 1) ++ δ, hd.tail ?_⟩
    have := Grammar.Produces.replace α ((g.alternative i.rule i.alt).symbols.drop (i.dot + 1) ++ δ) rule
      _ (Grammar.alternative_mem halt)
    rw [hdot, List.drop_zero, hrule]
    simpa only [List.append_assoc, List.cons_append] using this

/-- After symbols that lead to a state may come what stands after the dot of any of its items. -/
theorem IsLR0.exists_derives_of_walk {states : Array State} (h : IsLR0 g states) {α : List Symbol}
    {q : StateId} (hw : walkFrom states 0 α = some q) {i : Item}
    (hi : i ∈ (states.getD q default).items) : ∃ δ, g.Derives [.rule g.start]
      (α ++ (g.alternative i.rule i.alt).symbols.drop i.dot ++ δ) := by
  have hq := h.walk_lt h.pos hw
  refine exists_derives_of_entailed ?_ ((h.mem_items_iff q hq i).1 hi)
  clear hi
  induction α using List.reverseRecOn generalizing q with
  | nil =>
    obtain rfl : 0 = q := Option.some.inj hw
    intro i hi
    rw [h.first, List.mem_singleton] at hi
    subst hi
    have halt := (Item.mem_allItems_iff.1 (h.mem_allItems 0 h.pos _ h.item_first)).1
    exact ⟨[], by simpa using Grammar.derives_rule (Grammar.alternative_mem halt) (.refl _)⟩
  | append_singleton α x ih =>
    obtain ⟨p, hp, hx⟩ := walkFrom_append_eq_some.1 hw
    rw [walkFrom_singleton] at hx
    obtain ⟨hplt, -, -, hkernel⟩ := h.target p x q hx
    intro j hj
    obtain ⟨i, hi, hnext, rfl⟩ := (hkernel j).1 hj
    obtain ⟨δ, hd⟩ := exists_derives_of_entailed (ih hp hplt) ((h.mem_items_iff p hplt i).1 hi)
    obtain ⟨hlt, he⟩ := List.getElem?_eq_some_iff.1 hnext
    rw [List.drop_eq_getElem_cons hlt, he] at hd
    exact ⟨δ, by simpa [Item.advance] using hd⟩

/-- A state that is reached has an item. -/
theorem IsLR0.exists_item {states : Array State} (h : IsLR0 g states) {q : StateId}
    (hq : q < states.size) : ∃ i, i ∈ (states.getD q default).items := by
  by_cases h0 : q = 0
  · exact ⟨_, h0 ▸ h.item_first⟩
  · obtain ⟨p, -, x, hx⟩ := h.reached q hq h0
    obtain ⟨-, -, ⟨i, hi, hnext⟩, -⟩ := h.target p x q hx
    exact ⟨_, h.step_item hi hnext hx⟩

/-! ## What a state expects -/

/-- A state expects the lookaheads before which it does something. -/
theorem State.mem_expected_iff {s : State} {n : Nat} (hshifts : Increasing s.shifts)
    (hover : ∀ r ∈ s.reductions, r.lookahead.Over n) {l : Lookahead} :
    l ∈ s.expected ↔ ∃ action, action ∈ s.actions l := by
  have hshift : ∀ t, (∃ x ∈ s.shifts, Lookahead.terminal x.1 = .terminal t) ↔ (s.shift? t).isSome := by
    intro t
    rw [shift?, isSome_searchKey_iff hshifts]
    simp only [Lookahead.terminal.injEq]
  simp only [expected, List.mem_eraseDups, List.mem_mergeSort, List.mem_append, List.mem_map,
    List.mem_flatMap]
  constructor
  · rintro ((⟨⟨t, q⟩, hmem, rfl⟩ | ⟨r, hr, hl⟩) | hacc)
    · obtain ⟨q', hq'⟩ := Option.isSome_iff_exists.1 ((hshift t).1 ⟨_, hmem, rfl⟩)
      exact ⟨_, shift_mem_actions_iff.2 ⟨t, rfl, hq'⟩⟩
    · exact ⟨_, reduce_mem_actions_iff.2 ⟨_, hr, (LookaheadSet.mem_members_iff (hover r hr)).1 hl⟩⟩
    · split at hacc
      · rename_i h
        exact ⟨_, accept_mem_actions_iff.2 ⟨h, List.mem_singleton.1 hacc⟩⟩
      · cases hacc
  · rintro ⟨action, ha⟩
    cases action with
    | shift q =>
      obtain ⟨t, rfl, hq⟩ := shift_mem_actions_iff.1 ha
      exact .inl (.inl ((hshift t).2 (Option.isSome_iff_exists.2 ⟨q, hq⟩)))
    | reduce rule alt k =>
      obtain ⟨la, hr, hl⟩ := reduce_mem_actions_iff.1 ha
      exact .inl (.inr ⟨_, hr, (LookaheadSet.mem_members_iff (hover _ hr)).2 hl⟩)
    | accept =>
      obtain ⟨hacc, rfl⟩ := accept_mem_actions_iff.1 ha
      exact .inr (by rw [if_pos hacc]; exact .head _)

namespace Automaton.IsExact

variable {a : Automaton} (h : a.IsExact g) {q : StateId}
include h

theorem mem_expected_iff {l : Lookahead} :
    l ∈ (a.state q).expected ↔ ∃ action, action ∈ (a.state q).actions l :=
  State.mem_expected_iff (h.increasing_shifts q) (h.over_terminals q)

/-- A terminal that may come first after the dot of an item is expected. -/
theorem expects_of_first (hlr : IsLR0 g a.states) (hs : g.AvoidsStart) {α : List Symbol}
    {t : TerminalId} (hf : g.First α t) (hq : q < a.states.size) {i : Item}
    (hi : i ∈ (a.state q).items) (hα : (g.alternative i.rule i.alt).symbols.drop i.dot = α) :
    .terminal t ∈ (a.state q).expected := by
  rw [h.mem_expected_iff]
  induction hf generalizing i with
  | terminal t rest =>
    obtain ⟨q', hq'⟩ := hlr.total q hq i hi _ (Item.next?_of_drop hα)
    exact ⟨_, State.shift_mem_actions_iff.2 ⟨t, rfl, hq'⟩⟩
  | @rule rule alternative t rest ha _ ih =>
    obtain ⟨alt, halt, rfl⟩ := Grammar.mem_alternatives_iff.1 ha
    exact ih (hlr.item_start hq hi (Item.next?_of_drop hα) halt) rfl
  | @skip x rest t hx hf _ =>
    cases x with
    | terminal t' => exact absurd hx Grammar.not_nullable_terminal
    | rule C =>
      -- what stands before the terminal is reduced from nothing
      obtain ⟨A, alt, dot⟩ := i
      obtain ⟨p, hp, hwalk, hstart⟩ := hlr.exists_walk hq hi
      have halt := (Item.mem_allItems_iff.1 (hlr.mem_allItems q hq _ hi)).1
      have hsym : (g.alternative A alt).symbols =
          (g.alternative A alt).symbols.take dot ++ .rule C :: rest := by
        rw [← hα, List.take_append_drop]
      have hfollow : a.Follow g q C (.terminal t) :=
        .first (hlr.isPair_of_item hp hstart) (Grammar.alternative_mem halt) hsym hwalk hf.begins
      have hC : C ≠ g.start := by
        rintro rfl
        refine hs A _ (Grammar.alternative_mem halt) ?_
        rw [hsym]
        exact List.mem_append_right _ (.head _)
      obtain ⟨alternative, ha, hnull⟩ := Grammar.nullable_rule_iff.1 hx
      obtain ⟨alt', halt', rfl⟩ := Grammar.mem_alternatives_iff.1 ha
      exact ⟨_, (h.reduce_iff q hq C alt' [] _ _ hC halt' rfl hnull).2 ⟨q, rfl, hfollow⟩⟩

end Automaton.IsExact

end

variable {σ : Type}

/-! ## Prefixes of what is derived -/

section

variable {g : Grammar} {m : TerminalMatcher} {tokens : TokenStream} {P : Nat → Tree → Prop}

/-- Where tokens satisfy terminals, what derives these and another terminal comes to it. -/
theorem Grammar.Derives.exists_comesTo (hP : ∀ l t, P l t) {α : List Symbol}
    {w rest : List TerminalId} {t : TerminalId} {toks : List Token} {l i : Nat}
    (hd : g.Derives α ((w ++ t :: rest).map Symbol.terminal))
    (hw : List.Forall₂ (fun tok t => t ∈ m.matching tok) toks w) (hspans : tokens.Spans toks l i) :
    ∃ us β y γ k, α = β ++ y :: γ ∧ Tree.FitsAll g m us β ∧
      tokens.Spans (Tree.leavesOfAll us) l k ∧ ComesTo g m tokens P y k i t := by
  induction hd using Relation.ReflTransGen.head_induction_on with
  | refl =>
    refine ⟨_, _, _, _, i, by rw [List.map_append]; rfl, fitsAll_terminals hw, ?_, .terminal i t⟩
    rwa [leavesOfAll_tokens]
  | head hp _ ih =>
    obtain ⟨before, after, A, a, ha⟩ := hp
    obtain ⟨alt, halt, rfl⟩ := Grammar.mem_alternatives_iff.1 ha
    obtain ⟨us, β, y, γ, k, hsplit, hfits, hus, hcomes⟩ := ih
    rw [List.append_assoc] at hsplit
    rcases List.append_cons_eq_append_cases hsplit.symm with ⟨mid, rfl, -⟩ | ⟨mid, rfl, hrest⟩
    · -- the symbol stands before the rule
      exact ⟨us, β, y, mid ++ .rule A :: after, k, by simp, hfits, hus, hcomes⟩
    · rcases List.append_cons_eq_append_cases hrest.symm with ⟨δ, hsym, -⟩ | ⟨δ, rfl, rfl⟩
      · -- the symbol is one of the alternative
        obtain ⟨us, inner, rfl, hus', hinner⟩ := hfits.split
        rw [Tree.leavesOfAll_append, TokenStream.spans_append_iff] at hus
        exact ⟨us, before, .rule A, after, _, rfl, hus', hus.1,
          .rule halt hsym hinner hus.2 (Tree.everywhereAll_of_forall hP _ _) hcomes⟩
      · -- the symbol stands after the rule
        obtain ⟨us, vs, rfl, hus', hvs⟩ := hfits.split
        obtain ⟨inner, vs, rfl, hinner, hvs⟩ := hvs.split
        refine ⟨us ++ .rule (g.rule A).name A alt inner :: vs, before ++ .rule A :: δ, y, γ, k,
          by simp, hus'.append (.cons (.rule halt hinner) hvs), ?_, hcomes⟩
        simpa only [Tree.leavesOfAll_append, Tree.leavesOfAll, Tree.leaves] using hus

end

/-! ## What comes after a symbol -/

/-- The terminal may come after the symbol where this is begun in a state. -/
def Automaton.Precedes (a : Automaton) (g : Grammar) (q : StateId) (t : TerminalId) : Symbol → Prop
  | .terminal b => ∀ q', (a.state q).shift? b = some q' → .terminal t ∈ (a.state q').expected
  | .rule A => a.Follow g q A (.terminal t)

namespace Engine

section

variable (input : ParseInput σ) (L : Nat) (P : Nat → Tree → Prop) (e : Engine σ) (t : TerminalId)

/-- Some stack node of the level has an action before the terminal. -/
def ExpectsAt (r : Nat) : Prop :=
  ∃ v < e.stack.nodes.size, (e.stack.node v).level = r ∧
    .terminal t ∈ (input.compiled.automaton.state (e.stack.node v).state).expected

/-- Wherever a stack node waits for the symbol, the tree stands there, and the terminal may come after
the symbol, the terminal is expected at the end of the tree. -/
def Foretold (tree : Tree) (x : Symbol) : Prop :=
  ∀ l r u, tree.leaves ≠ [] → input.tokens.Spans tree.leaves l r → tree.Everywhere P l → r ≤ L →
    u < e.stack.nodes.size → (e.stack.node u).level = l →
    input.compiled.automaton.Expects input.grammar (e.stack.node u).state x →
    input.compiled.automaton.Precedes input.grammar (e.stack.node u).state t x → e.ExpectsAt input t r

end

variable {input : ParseInput σ} {start : StackId} {e : Engine σ} {L : Nat} {P : Nat → Tree → Prop}
  {R : NodeId → Tree → Prop} {t : TerminalId}

/-- What may come when the symbols after the next one are left may come after this one. -/
theorem Waits.precedes (hr : input.Ready) (hs : input.grammar.AvoidsStart) {p₀ : StateId} {A : RuleId}
    {alt : Nat} {β γ : List Symbol} {x : Symbol} {u : StackId} (hw : e.Waits input p₀ A alt β u)
    (hpair : IsPair input.grammar input.compiled.automaton.states p₀ A)
    (halt : alt < (input.grammar.rule A).alternatives.size)
    (hsym : (input.grammar.alternative A alt).symbols = β ++ x :: γ)
    (ha : input.compiled.automaton.Ahead input.grammar p₀ A γ (.terminal t)) :
    input.compiled.automaton.Precedes input.grammar (e.stack.node u).state t x := by
  have hlr := hr.automaton.isLR0
  cases x with
  | rule B => exact ha.follow hpair halt hsym hw.walk
  | terminal b =>
    intro q hq
    have hnext : (Item.mk A alt β.length).next? input.grammar = some (.terminal b) := by
      rw [Item.next?_eq, hsym, List.getElem?_append_right (Nat.le_refl _), Nat.sub_self]
      rfl
    have hq' := hlr.target_lt (x := .terminal b) hq
    rcases ha with ⟨t', ht', hf⟩ | ⟨hnull, hfollow⟩
    · cases ht'
      refine (hr.exact hs).expects_of_first hlr hs hf hq' (hlr.step_item hw.item hnext hq) ?_
      rw [Item.advance, hsym]
      simp
    · -- the rule that accepts has no terminal in its alternative
      have hA : A ≠ input.grammar.start := by
        rintro rfl
        obtain ⟨hone, hstart⟩ := hr.wellFormed.alternative_start
        obtain rfl : alt = 0 := by omega
        have hmem : Symbol.terminal b ∈ (input.grammar.alternative input.grammar.start 0).symbols := by
          simp [hsym]
        simp [hstart] at hmem
      have hwalk : input.compiled.automaton.walk? p₀ (β ++ [.terminal b]) = some q :=
        walkFrom_append_eq_some.2 ⟨_, hw.walk, by rw [walkFrom_singleton]; exact hq⟩
      exact (hr.exact hs).mem_expected_iff.2 ⟨_, ((hr.exact hs).reduce_iff q hq' A alt
        (β ++ [.terminal b]) γ _ hA halt (by simp [hsym]) hnull).2 ⟨p₀, hwalk, hfollow⟩⟩

namespace Finished

variable (hr : input.Ready) (h : Finished input start L e) (hs : input.grammar.AvoidsStart)
  (htracks : e.Tracks input P R)
include hr h hs htracks

/-- What may come after trees of the first symbols of an alternative is expected at their end. -/
theorem expectsAt_of_trees {A : RuleId} {alt : Nat} {α γ : List Symbol} {ts : List Tree} {u : StackId}
    {l r : Nat} (hu : u < e.stack.nodes.size) (hl : (e.stack.node u).level = l)
    (hpair : IsPair input.grammar input.compiled.automaton.states (e.stack.node u).state A)
    (halt : alt < (input.grammar.rule A).alternatives.size)
    (hsym : (input.grammar.alternative A alt).symbols = α ++ γ)
    (hfits : Tree.FitsAll input.grammar input.compiled.matcher ts α)
    (hall : List.Forall₂ (e.Foretold input L P t) ts α)
    (hne : Tree.leavesOfAll ts ≠ []) (hspans : input.tokens.Spans (Tree.leavesOfAll ts) l r)
    (hgood : Tree.EverywhereAll P l ts) (hrL : r ≤ L)
    (ha : input.compiled.automaton.Ahead input.grammar (e.stack.node u).state A γ (.terminal t)) :
    e.ExpectsAt input t r := by
  -- the last tree with tokens decides
  obtain ⟨us, c, vs, rfl, hc, hvs⟩ := Tree.exists_last_of_leaves hne
  obtain ⟨xs, zs, rfl, hus, hrest⟩ := List.forall₂_append_left_iff.1 hall
  obtain ⟨x, ys, hcx, -, rfl⟩ := List.forall₂_cons_left_iff.1 hrest
  obtain ⟨us', rest', hsplit, hfus, hfrest⟩ := hfits.split
  obtain ⟨rfl, rfl⟩ := List.append_inj hsplit (by
    rw [hus.length_eq, (Tree.fitsAll_iff_forall₂.1 hfus).length_eq])
  cases hfrest with
  | cons hfc hfvs =>
    obtain ⟨hgus, hgc, -⟩ := Tree.everywhereAll_append_iff.1 hgood
    rw [Tree.leavesOfAll_append, TokenStream.spans_append_iff, Tree.leavesOfAll, hvs,
      List.append_nil] at hspans
    obtain ⟨hsus, hsc⟩ := hspans
    obtain ⟨tok, rest, hcons⟩ := List.exists_cons_of_ne_nil hc
    obtain ⟨b, hb, hfirst⟩ := Tree.first_of_leaves.1 c x hfc rest hcons
    have hsym' : (input.grammar.alternative A alt).symbols = xs ++ x :: (ys ++ γ) := by
      rw [hsym, List.append_assoc, List.cons_append]
    obtain ⟨w, hww, hlw, hxw⟩ := h.exists_waits hr hs htracks hu hl hpair halt hsym' hfus hsus hgus
      (Nat.le_trans hsc.le hrL) ⟨tok, (hcons ▸ hsc).get?_of_cons, hb⟩ hfirst
    exact hcx _ r w hc hsc hgc hrL hww.lt_size hlw hxw (hww.precedes hr hs hpair halt hsym'
      (ha.skip (Tree.nullable_of_leaves.2 _ _ hfvs hvs)))

/-- What may come after a tree with tokens is expected at its end. -/
theorem foretold :
    (∀ c x, c.Fits input.grammar input.compiled.matcher x → e.Foretold input L P t c x) ∧
    ∀ cs xs, Tree.FitsAll input.grammar input.compiled.matcher cs xs →
      List.Forall₂ (e.Foretold input L P t) cs xs := by
  refine Tree.fits_induction (fun tok a ha l r u _ hspans _ hrL hu hl hx hprec => ?_)
    (fun A alt children halt hfits ih l r u hne hspans hgood hrL hu hl hx hprec => ?_) .nil
    fun c cs x xs _ _ ih ih' => .cons ih ih'
  · have htok := hspans.get?_of_cons
    obtain rfl : r = l + 1 := hspans.2
    obtain ⟨q, hq⟩ := Option.isSome_iff_exists.1 hx
    obtain ⟨v, label, hv, hstate, hedge, -⟩ := h.shifted l hrL u hu hl a q ⟨tok, htok, ha⟩ hq
    exact ⟨v, GraphStack.lt_size_of_mem_edges hedge, hv, hstate ▸ hprec q hq⟩
  · exact h.expectsAt_of_trees hr hs htracks (γ := []) hu hl hx halt (List.append_nil _).symm hfits ih
      hne hspans hgood.2 hrL (.inr ⟨Grammar.nullable_nil, hprec⟩)

/-- The terminal that a derivation comes to is expected. -/
theorem expectsAt {x : Symbol} {l i : Nat}
    (hcomes : ComesTo input.grammar input.compiled.matcher input.tokens P x l i t) (hi : i ≤ L)
    {u : StackId} (hu : u < e.stack.nodes.size) (hl : (e.stack.node u).level = l)
    (hx : input.compiled.automaton.Expects input.grammar (e.stack.node u).state x) :
    e.ExpectsAt input t i := by
  induction hcomes generalizing u with
  | terminal i t =>
    obtain ⟨q, hq⟩ := Option.isSome_iff_exists.1 hx
    exact ⟨u, hu, hl, (hr.exact hs).mem_expected_iff.2 ⟨_, State.shift_mem_actions_iff.2 ⟨t, rfl, hq⟩⟩⟩
  | @rule A alt α γ y ts l k i t halt hsym hfits hspans hgood hcomes ih =>
    obtain ⟨b, hf, hbefore, hat⟩ := hcomes.first
    rcases Nat.lt_or_eq_of_le hcomes.le with hlt | rfl
    · obtain ⟨v, hwv, hlv, hxv⟩ := h.exists_waits hr hs htracks hu hl hx halt hsym hfits hspans hgood
        (Nat.le_trans hcomes.le hi) (hbefore hlt) hf
      exact ih hi hwv.lt_size hlv hxv
    · -- the terminal is the first one of what is left of the alternative
      obtain rfl := hat rfl
      have hfirst := hf.append_right γ
      by_cases hnil : Tree.leavesOfAll ts = []
      · have hlr := hr.automaton.isLR0
        have hlt := h.work.state_lt u hu
        rw [hnil, TokenStream.spans_nil_iff] at hspans
        refine ⟨u, hu, hl.trans hspans.symm, (hr.exact hs).expects_of_first hlr hs
          (hfirst.append_left (Tree.nullable_of_leaves.2 ts α hfits hnil)) hlt
          (hlr.item_of_isPair hr.wellFormed hx halt).2 ?_⟩
        exact hsym
      · exact h.expectsAt_of_trees hr hs htracks hu hl hx halt hsym hfits
          ((h.foretold hr hs htracks).2 ts α hfits) hnil hspans hgood hi (.inl ⟨_, rfl, hfirst⟩)

end Finished

end Engine

end ParseForest
