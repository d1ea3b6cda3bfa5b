import ParseForest.Proofs.Parser.Outcome
import ParseForest.Proofs.Parser.Placement

/-!
# What can be derived is accepted

A derivation that comes to a terminal (`ComesTo`) is followed by the stack: where the tokens before the
terminal are as the derivation has them, some stack node at its position can shift it
(`Finished.exists_reader`). So a parse is never stuck before the end of a tree that can be tracked, and
then the root is there for the tree (`Finished.exists_root`). Only the limits of the stack can keep a
parse from arriving at it (`run_arrives`), and what is at the root stands for the tree if nothing in it
has been turned down (`run_complete`).
-/

namespace ParseForest

variable {σ : Type}

/-! ## Derivations up to a terminal -/

/-- A derivation from the symbol, which begins at `l`, comes to the terminal at `i`: before it stand
trees that have the tokens from `l` to `i`, and that the property holds everywhere in. -/
inductive ComesTo (g : Grammar) (m : TerminalMatcher) (tokens : TokenStream) (P : Nat → Tree → Prop) :
    Symbol → Nat → Nat → TerminalId → Prop
  | terminal (i : Nat) (a : TerminalId) : ComesTo g m tokens P (.terminal a) i i a
  | rule {A : RuleId} {alt : Nat} {α γ : List Symbol} {y : Symbol} {ts : List Tree} {l k i : Nat}
      {a : TerminalId} (halt : alt < (g.rule A).alternatives.size)
      (hs : (g.alternative A alt).symbols = α ++ y :: γ) (hfits : Tree.FitsAll g m ts α)
      (hspans : tokens.Spans (Tree.leavesOfAll ts) l k) (hgood : Tree.EverywhereAll P l ts)
      (h : ComesTo g m tokens P y k i a) : ComesTo g m tokens P (.rule A) l i a

section ComesTo

variable {g : Grammar} {m : TerminalMatcher} {tokens : TokenStream} {P : Nat → Tree → Prop}
  {x : Symbol} {l r i : Nat} {a : TerminalId}

theorem ComesTo.le (h : ComesTo g m tokens P x l i a) : l ≤ i := by
  induction h with
  | terminal => exact Nat.le_refl _
  | rule _ _ _ hspans _ _ ih => exact Nat.le_trans hspans.le ih

/-- A first terminal of the symbol begins such a derivation: the first token satisfies it, or it is the
one that the derivation comes to. -/
theorem ComesTo.first (h : ComesTo g m tokens P x l i a) :
    ∃ t, g.First [x] t ∧ (l < i → tokens.Satisfies m l t) ∧ (l = i → t = a) := by
  induction h with
  | terminal i a => exact ⟨a, .terminal a [], fun h => absurd h (Nat.lt_irrefl i), fun _ => rfl⟩
  | @rule A alt α γ y ts l k i a halt hs hfits hspans _ h ih =>
    have hmem := Grammar.alternative_mem halt
    cases hl : Tree.leavesOfAll ts with
    | nil =>
      rw [hl, TokenStream.spans_nil_iff] at hspans
      obtain ⟨t, hf, ht⟩ := ih
      refine ⟨t, .rule [] hmem ?_, hspans ▸ ht⟩
      rw [hs]
      exact (hf.append_right γ).append_left (Tree.nullable_of_leaves.2 ts α hfits hl)
    | cons tok rest =>
      rw [hl] at hspans
      obtain ⟨t, ht, hf⟩ := Tree.first_of_leaves.2 ts α hfits rest hl
      have hlt : l < i := by
        have := hspans.2
        have := h.le
        rw [List.length_cons] at *
        omega
      refine ⟨t, .rule [] hmem ?_, fun _ => ⟨tok, hspans.get?_of_cons, ht⟩, fun h =>
        absurd h (Nat.ne_of_lt hlt)⟩
      rw [hs]
      exact hf.append_right _

/-- A tree leads to each of its tokens. -/
theorem exists_comesTo :
    (∀ t x, Tree.Fits g m t x → ∀ l r, tokens.Spans t.leaves l r → t.Everywhere P l → ∀ i, l ≤ i → i < r →
      ∃ a, ComesTo g m tokens P x l i a ∧ tokens.Satisfies m i a) ∧
    ∀ ts xs, Tree.FitsAll g m ts xs → ∀ l r, tokens.Spans (Tree.leavesOfAll ts) l r →
      Tree.EverywhereAll P l ts → ∀ i, l ≤ i → i < r →
      ∃ us α y γ k a, xs = α ++ y :: γ ∧ Tree.FitsAll g m us α ∧
        tokens.Spans (Tree.leavesOfAll us) l k ∧ Tree.EverywhereAll P l us ∧
        ComesTo g m tokens P y k i a ∧ tokens.Satisfies m i a := by
  refine Tree.fits_induction (fun tok a ha l r hspans _ i hl hir => ?_)
    (fun A alt children halt _ ih l r hspans hgood i hl hir => ?_)
    (fun l r hspans _ i hl hir => ?_)
    fun t ts x xs hfit _ ih ih' l r hspans hgood i hl hir => ?_
  · obtain rfl : r = l + 1 := hspans.2
    obtain rfl : i = l := by omega
    exact ⟨a, .terminal i a, tok, hspans.get?_of_cons, ha⟩
  · obtain ⟨us, α, y, γ, k, a, hs, hfits, hspans', hgood', hlead, ha⟩ :=
      ih l r hspans hgood.2 i hl hir
    exact ⟨a, .rule halt hs hfits hspans' hgood' hlead, ha⟩
  · obtain rfl := TokenStream.spans_nil_iff.1 hspans
    omega
  · obtain ⟨hgood, hgoods⟩ := hgood
    obtain ⟨hspan, hspans⟩ := TokenStream.spans_append_iff.1 hspans
    by_cases hi : i < l + t.leaves.length
    · obtain ⟨a, hlead, ha⟩ := ih l _ hspan hgood i hl hi
      exact ⟨[], [], x, xs, l, a, rfl, .nil, TokenStream.spans_nil l, trivial, hlead, ha⟩
    · obtain ⟨us, α, y, γ, k, a, rfl, hfits, hspans', hgood', hlead, ha⟩ :=
        ih' _ r hspans hgoods i (Nat.not_lt.1 hi) hir
      exact ⟨t :: us, x :: α, y, γ, k, a, rfl, .cons hfit hfits, hspan.append hspans',
        ⟨hgood, hgood'⟩, hlead, ha⟩

end ComesTo

/-- The symbol stands after the dot of some item of the state, or is the rule that accepts in the
first one. -/
def Automaton.Expects (a : Automaton) (g : Grammar) (q : StateId) : Symbol → Prop
  | .terminal t => ((a.state q).shift? t).isSome
  | .rule A => IsPair g a.states q A

theorem IsLR0.expects {g : Grammar} {a : Automaton} (h : IsLR0 g a.states) {q : StateId}
    (hq : q < a.states.size) {i : Item} (hi : i ∈ (a.state q).items) {x : Symbol}
    (hx : i.next? g = some x) : a.Expects g q x := by
  obtain ⟨q', hq'⟩ := h.total q hq i hi x hx
  cases x with
  | terminal t => exact Option.isSome_iff_exists.2 ⟨q', hq'⟩
  | rule A => exact .inl ⟨q', hq'⟩

namespace Engine

variable {input : ParseInput σ} {start : StackId} {e : Engine σ} {L : Nat} {P : Nat → Tree → Prop}
  {R : NodeId → Tree → Prop}

namespace Finished

section

variable (hr : input.Ready) (h : Finished input start L e) (hs : input.grammar.AvoidsStart)
  (htracks : e.Tracks input P R)
include hr h hs htracks

/-- The stack node that a derivation has come to before one of the symbols of an alternative. -/
theorem exists_waits {A : RuleId} {alt : Nat} {α γ : List Symbol} {y : Symbol} {ts : List Tree}
    {u : StackId} {l k : Nat} {t : TerminalId} (hu : u < e.stack.nodes.size)
    (hl : (e.stack.node u).level = l)
    (hpair : IsPair input.grammar input.compiled.automaton.states (e.stack.node u).state A)
    (halt : alt < (input.grammar.rule A).alternatives.size)
    (hsym : (input.grammar.alternative A alt).symbols = α ++ y :: γ)
    (hfits : Tree.FitsAll input.grammar input.compiled.matcher ts α)
    (hspans : input.tokens.Spans (Tree.leavesOfAll ts) l k) (hgood : Tree.EverywhereAll P l ts)
    (hkL : k ≤ L) (ht : input.tokens.Satisfies input.compiled.matcher k t)
    (hf : input.grammar.First [y] t) :
    ∃ v, e.Waits input (e.stack.node u).state A alt α v ∧ (e.stack.node v).level = k ∧
      input.compiled.automaton.Expects input.grammar (e.stack.node v).state y := by
  have hlr := hr.automaton.isLR0
  have hw : e.Waits input (e.stack.node u).state A alt [] u :=
    ⟨hu, (hlr.item_of_isPair hr.wellFormed hpair halt).2, rfl⟩
  obtain ⟨v, labels, hwv, hlv, -⟩ := h.exists_path hr hpair halt (by rw [hsym]; rfl) hw hl hfits
    ((h.placed hr hs htracks).2 ts α hfits) hspans hgood hkL
    ⟨.terminal t, mem_lookaheadsAt_iff.2 ht, .inl ⟨t, rfl, hf.append_right γ⟩⟩
  refine ⟨v, hwv, hlv, hlr.expects (h.work.state_lt v hwv.lt_size) hwv.item ?_⟩
  rw [List.nil_append, Item.next?_eq, hsym, List.getElem?_append_right (Nat.le_refl _), Nat.sub_self]
  rfl

/-- Some stack node can shift the terminal that a derivation leads to. -/
theorem exists_reader {x : Symbol} {l i : Nat} {a : TerminalId}
    (hlead : ComesTo input.grammar input.compiled.matcher input.tokens P x l i a)
    (ha : input.tokens.Satisfies input.compiled.matcher i a) (hi : i ≤ L) {u : StackId}
    (hu : u < e.stack.nodes.size) (hl : (e.stack.node u).level = l)
    (hx : input.compiled.automaton.Expects input.grammar (e.stack.node u).state x) :
    ∃ v < e.stack.nodes.size, (e.stack.node v).level = i ∧
      ((input.compiled.automaton.state (e.stack.node v).state).shift? a).isSome := by
  induction hlead generalizing u with
  | terminal i a => exact ⟨u, hu, hl, hx⟩
  | rule halt hsym hfits hspans hgood hlead ih =>
    obtain ⟨t, hf, hbefore, hat⟩ := hlead.first
    have ht := (Nat.lt_or_eq_of_le hlead.le).elim hbefore fun heq => by rwa [hat heq, heq]
    obtain ⟨v, hwv, hlv, hxv⟩ := h.exists_waits hr hs htracks hu hl hx halt hsym hfits hspans hgood
      (Nat.le_trans hlead.le hi) ht hf
    exact ih ha hi hwv.lt_size hlv hxv

/-- A parse is not stuck at a terminal that a derivation leads to. -/
theorem shifts_ne_nil {a : TerminalId}
    (hlead : ComesTo input.grammar input.compiled.matcher input.tokens P (.rule input.grammar.start) 0
      L a)
    (ha : input.tokens.Satisfies input.compiled.matcher L a) : e.shifts ≠ #[] := by
  have hpair : input.compiled.automaton.Expects input.grammar (e.stack.node start).state
      (.rule input.grammar.start) := .inr ⟨h.start_state, rfl⟩
  obtain ⟨v, hv, hlv, hshift⟩ := h.exists_reader hr hs htracks hlead ha (Nat.le_refl L) h.start_lt
    h.start_level hpair
  obtain ⟨q, hq⟩ := Option.isSome_iff_exists.1 hshift
  have hmem := h.shiftable v hv hlv a q ha hq
  intro hnil
  rw [hnil] at hmem
  simp at hmem

end

end Finished

end Engine

/-! ## The end of input -/

/-- A tree of the first rule over all tokens but the last. -/
structure ParseInput.IsParse (input : ParseInput σ) (t : Tree) : Prop where
  fits : t.Fits input.grammar input.compiled.matcher (.rule input.grammar.first)
  spans : input.tokens.Spans t.leaves 0 (input.tokens.length - 1)

/-- The tree of the end of input. -/
def ParseInput.endTree (input : ParseInput σ) (last : Token) : Tree :=
  .rule (input.grammar.rule input.grammar.eofRule).name input.grammar.eofRule 0 [.token last]

/-- The last token is the end of input. -/
def ParseInput.EndsWith (input : ParseInput σ) (last : Token) : Prop :=
  input.tokens.get? (input.tokens.length - 1) = some last ∧
    input.grammar.eof ∈ input.compiled.matcher.matching last

theorem ParseInput.EndsWith.length_pos {input : ParseInput σ} {last : Token}
    (h : input.EndsWith last) : 0 < input.tokens.length := by
  have := (Array.getElem?_eq_some_iff.1 h.1).1
  exact Nat.lt_of_le_of_lt (Nat.zero_le _) this

/-- The tree of the end of input is one of its rule. -/
theorem ParseInput.EndsWith.fits_endTree {input : ParseInput σ} {last : Token}
    (h : input.EndsWith last) (hg : input.grammar.WellFormed) :
    (input.endTree last).Fits input.grammar input.compiled.matcher (.rule input.grammar.eofRule) := by
  obtain ⟨hone, hsym⟩ := hg.alternative_eofRule
  refine .rule (by rw [hone]; exact Nat.zero_lt_one) ?_
  rw [hsym]
  exact .cons (.token h.2) .nil

theorem ParseInput.EndsWith.spans_endTree {input : ParseInput σ} {last : Token}
    (h : input.EndsWith last) : input.tokens.Spans (input.endTree last).leaves
      (input.tokens.length - 1) input.tokens.length := by
  have := TokenStream.spans_singleton h.1
  rwa [Nat.sub_add_cancel h.length_pos] at this

namespace Engine

variable {input : ParseInput σ} {start : StackId} {e : Engine σ} {L : Nat} {P : Nat → Tree → Prop}
  {R : NodeId → Tree → Prop} {t : Tree} {last : Token}

/-- A parse tree leads to every token. -/
theorem comesTo_of_isParse (hg : input.grammar.WellFormed) (ht : input.IsParse t)
    (hgood : t.Everywhere P 0) (hend : input.EndsWith last)
    (hgoodEnd : (input.endTree last).Everywhere P (input.tokens.length - 1)) {i : Nat}
    (hi : i < input.tokens.length) : ∃ a,
      ComesTo input.grammar input.compiled.matcher input.tokens P (.rule input.grammar.start) 0 i a ∧
      input.tokens.Satisfies input.compiled.matcher i a := by
  obtain ⟨hone, hsym⟩ := hg.alternative_start
  have halt : 0 < (input.grammar.rule input.grammar.start).alternatives.size := by
    rw [hone]
    exact Nat.zero_lt_one
  by_cases hlt : i < input.tokens.length - 1
  · obtain ⟨a, hlead, ha⟩ := exists_comesTo.1 t _ ht.fits 0 _ ht.spans hgood i (Nat.zero_le i) hlt
    exact ⟨a, .rule (α := []) halt hsym .nil (TokenStream.spans_nil 0) trivial hlead, ha⟩
  · obtain ⟨a, hlead, ha⟩ := exists_comesTo.1 _ _ (hend.fits_endTree hg) _ _ hend.spans_endTree
      hgoodEnd i (Nat.not_lt.1 hlt) hi
    have hspans : input.tokens.Spans (Tree.leavesOfAll [t]) 0 (input.tokens.length - 1) := by
      rw [Tree.leavesOfAll, Tree.leavesOfAll, List.append_nil]
      exact ht.spans
    exact ⟨a, .rule (α := [_]) halt hsym (.cons ht.fits .nil) hspans ⟨hgood, trivial⟩ hlead, ha⟩

namespace Finished

variable (hr : input.Ready) (h : Finished input start input.tokens.length e)
  (hs : input.grammar.AvoidsStart)
include hr h hs

/-- On one level the start rule has got to a given place at one stack node only. -/
theorem eq_of_start_item {u v : StackId} {dot : Nat} (hu : u < e.stack.nodes.size)
    (hv : v < e.stack.nodes.size) (hl : (e.stack.node u).level = (e.stack.node v).level)
    (hi : ⟨input.grammar.start, 0, dot⟩ ∈ (input.compiled.automaton.state (e.stack.node u).state).items)
    (hi' : ⟨input.grammar.start, 0, dot⟩ ∈
      (input.compiled.automaton.state (e.stack.node v).state).items) : u = v := by
  have hwalk : ∀ {w}, w < e.stack.nodes.size →
      ⟨input.grammar.start, 0, dot⟩ ∈ (input.compiled.automaton.state (e.stack.node w).state).items →
      input.compiled.automaton.walk? Automaton.start
        ((input.grammar.alternative input.grammar.start 0).symbols.take dot) =
          some (e.stack.node w).state := fun hw hi =>
    hr.automaton.isLR0.walk_of_start hs (h.work.state_lt _ hw) hi
  have hstate := Option.some.inj ((hwalk hu hi).symm.trans (hwalk hv hi'))
  exact h.work.indexed.unique u hu v hv hstate hl

/-- The one stack node that accepts is that on which the start rule is complete. -/
theorem find_accepting {top : StackId} {p₀ : StateId} {x y : Symbol}
    (htop : e.Waits input p₀ input.grammar.start 0 [x, y] top)
    (hlevel : (e.stack.node top).level = input.tokens.length) :
    (e.stack.level input.tokens.length).find? (fun id =>
      (input.compiled.automaton.state (e.stack.node id).state).accepting) = some top := by
  obtain ⟨-, hsym⟩ := hr.wellFormed.alternative_start
  have hmem : top ∈ e.stack.level input.tokens.length :=
    (h.work.indexed.mem_level_iff _ top).2 ⟨htop.lt_size, hlevel⟩
  have haccepting : (input.compiled.automaton.state (e.stack.node top).state).accepting = true := by
    refine ((hr.exact hs).accepting_iff _ (h.work.state_lt top htop.lt_size)).2 ⟨_, htop.item, rfl, ?_⟩
    simp [Item.isComplete, Alternative.length, hsym]
  obtain ⟨top', hfind⟩ : ∃ top', (e.stack.level input.tokens.length).find? (fun id =>
      (input.compiled.automaton.state (e.stack.node id).state).accepting) = some top' :=
    Option.isSome_iff_exists.1 (Array.find?_isSome.2 ⟨top, hmem, haccepting⟩)
  obtain ⟨hlt, hl⟩ := (h.work.indexed.mem_level_iff _ top').1 (Array.mem_of_find?_eq_some hfind)
  have hitem := hr.automaton.start_item hr.wellFormed (h.work.state_lt top' hlt)
    (by simpa using Array.find?_some hfind)
  obtain rfl := h.eq_of_start_item hr hs hlt htop.lt_size (hl.trans hlevel.symm) hitem htop.item
  exact hfind

/-- The root is what lies between the first stack node and the end of the input. -/
theorem acceptedRoot?_eq_some {v top : StackId} {root label : NodeId} {p₀ : StateId} {x y : Symbol}
    (hv : e.Waits input p₀ input.grammar.start 0 [x] v)
    (hbefore : (e.stack.node v).level = input.tokens.length - 1)
    (hroot : ⟨start, root⟩ ∈ (e.stack.node v).edges)
    (htop : e.Waits input p₀ input.grammar.start 0 [x, y] top)
    (hlevel : (e.stack.node top).level = input.tokens.length)
    (hedge : ⟨v, label⟩ ∈ (e.stack.node top).edges) : e.acceptedRoot? input start = some root := by
  obtain ⟨-, hsym⟩ := hr.wellFormed.alternative_start
  -- every edge down from the accepting node is the one over the end of input
  have hbelow : ∀ edge ∈ (e.stack.node top).edges, edge = ⟨v, label⟩ := by
    intro edge hmem
    obtain ⟨-, z, hz, hst⟩ := h.work.labelled top edge hmem
    obtain ⟨hi, hz'⟩ := hr.automaton.isLR0.step_back_eq hz htop.item
    rw [hsym] at hz'
    obtain rfl := Option.some.inj hz'
    have heof := (Spells.eof hr.wellFormed (h.forest.formed.backed.spells_of_stands hst)).1
    have hv' := h.eq_of_start_item hr hs (h.work.indexed.target_lt top edge hmem) hv.lt_size
      (by omega) hi hv.item
    exact h.work.edge_unique hr h.forest.formed hmem hedge hv'
  have hfirst : ((e.stack.node v).edges.find? (·.target == start)).map StackEdge.label = some root := by
    obtain ⟨edge, hedge'⟩ := Option.isSome_iff_exists.1
      (Array.find?_isSome.2 ⟨_, hroot, beq_self_eq_true start⟩ :
        ((e.stack.node v).edges.find? (·.target == start)).isSome = true)
    have htarget : edge.target = start := by simpa using Array.find?_some hedge'
    rw [hedge', h.work.edge_unique hr h.forest.formed (Array.mem_of_find?_eq_some hedge') hroot htarget]
    rfl
  rw [acceptedRoot?, h.find_accepting hr hs htop hlevel]
  change (e.stack.node top).edges.findSome? _ = some root
  obtain ⟨found, hfound⟩ : ∃ found, (e.stack.node top).edges.findSome? (fun beforeEof =>
      ((e.stack.node beforeEof.target).edges.find? (·.target == start)).map StackEdge.label) =
        some found := by
    apply Option.isSome_iff_exists.1
    rw [Array.findSome?_isSome_iff]
    exact ⟨_, hedge, by rw [hfirst]; rfl⟩
  rw [hfound]
  obtain ⟨edge, hmem, hlabel⟩ := Array.exists_of_findSome?_eq_some hfound
  rw [hbelow edge hmem, hfirst] at hlabel
  exact hlabel.symm

/-- The root is the node of the tree. -/
theorem exists_root (htracks : e.Tracks input P R) (ht : input.IsParse t) (hgood : t.Everywhere P 0)
    (hend : input.EndsWith last)
    (hgoodEnd : (input.endTree last).Everywhere P (input.tokens.length - 1)) :
    ∃ root, e.acceptedRoot? input start = some root ∧ R root t := by
  obtain ⟨hone, hsym⟩ := hr.wellFormed.alternative_start
  have halt : 0 < (input.grammar.rule input.grammar.start).alternatives.size := by
    rw [hone]
    exact Nat.zero_lt_one
  have hplaced := h.placed hr hs htracks
  have hpair : IsPair input.grammar input.compiled.automaton.states Automaton.start
      input.grammar.start := .inr ⟨rfl, rfl⟩
  have hw : e.Waits input Automaton.start input.grammar.start 0 [] start :=
    ⟨h.start_lt, by rw [h.start_state]; exact hr.automaton.isLR0.item_first, by rw [h.start_state]; rfl⟩
  have hfirst := hr.wellFormed.first_eofRule
  -- the first rule is on top of the first stack node, and the end of input on top of that
  obtain ⟨v, root, hwv, hlv, hroot, hread⟩ := h.exists_step hr hpair halt (β := []) (by rw [hsym]; rfl)
    hw h.start_level (hplaced.1 t _ ht.fits) ht.spans hgood (Nat.sub_le _ _)
    ⟨.terminal input.grammar.eof, mem_lookaheadsAt_iff.2 ⟨last, hend.1, hend.2⟩, .inl ⟨_, rfl, hfirst⟩⟩
  have hfinish : Lookahead.finish ∈ lookaheadsAt input input.tokens.length := by
    rw [lookaheadsAt, TokenStream.get?, TokenStream.length, Array.getElem?_size]
    exact .head _
  obtain ⟨top, label, hwtop, hltop, hedge, -⟩ := h.exists_step hr hpair halt (γ := [])
    (by rw [hsym]; rfl) hwv hlv (hplaced.1 _ _ (hend.fits_endTree hr.wellFormed)) hend.spans_endTree
    hgoodEnd (Nat.le_refl _) ⟨.finish, hfinish, .inr ⟨Grammar.nullable_nil, .finish⟩⟩
  exact ⟨root, h.acceptedRoot?_eq_some hr hs hwv hlv hroot hwtop hltop hedge, hread⟩

end Finished

/-! ## Runs -/

section

variable (hr : input.Ready) (hs : input.grammar.AvoidsStart) (ht : input.IsParse t)
  (hgood : t.Everywhere P 0) (hend : input.EndsWith last)
  (hgoodEnd : (input.endTree last).Everywhere P (input.tokens.length - 1))
include hr hs ht hgood hend hgoodEnd

/-- Where there is a tree that can be tracked, a run fails early or because the root has no
alternative. -/
theorem Fails.mayFail_or_empty
    (htracks : ∀ start l e, Finished input start l e → ∃ R, e.Tracks input P R) {err : ParseError}
    (h : Fails input err) : input.MayFail err ∨ err = .emptyForest := by
  cases h with
  | early h => exact .inl h
  | stuck hf hl hnil =>
    obtain ⟨R, htracks⟩ := htracks _ _ _ hf
    obtain ⟨a, hcomes, ha⟩ := comesTo_of_isParse hr.wellFormed ht hgood hend hgoodEnd hl
    exact absurd hnil (hf.shifts_ne_nil hr hs htracks hcomes ha)
  | unaccepted hf hnone =>
    obtain ⟨R, htracks⟩ := htracks _ _ _ hf
    obtain ⟨root, hroot, -⟩ := hf.exists_root hr hs htracks ht hgood hend hgoodEnd
    rw [hnone] at hroot
    cases hroot
  | empty => exact .inr rfl

/-- Where the label of the tree has an alternative too, a run can only fail early. -/
theorem Fails.mayFail (htracks : ∀ start l e, Finished input start l e →
      ∃ R, e.Tracks input P R ∧ e.KeepsAlive R)
    {err : ParseError} (h : Fails input err) : input.MayFail err := by
  refine (h.mayFail_or_empty hr hs ht hgood hend hgoodEnd fun start l e hf =>
    (htracks start l e hf).imp fun _ => And.left).resolve_right fun he => ?_
  cases h with
  | early hmay =>
    subst he
    exact hmay
  | stuck | unaccepted => cases he
  | empty hf hroot hnil =>
    obtain ⟨R, htracks, halive⟩ := htracks _ _ _ hf
    obtain ⟨root, hroot', hR⟩ := hf.exists_root hr hs htracks ht hgood hend hgoodEnd
    obtain rfl := Option.some.inj (hroot.symm.trans hroot')
    exact halive _ _ hR (by rw [Node.isChoice, (hf.stands_root hr hroot).1]) hnil

/-- Where there is a tree that can be tracked, a run arrives or finds that the root has no alternative,
unless a limit of the stack is reached. -/
theorem run_arrives_or_empty
    (htracks : ∀ start l e, Finished input start l e → ∃ R, e.Tracks input P R)
    (hone : input.tokens.EndsOnce) (user : σ) :
    (∃ e root, Arrives input user e root ∧ (run input user).1 = finish input e root) ∨
    (Fails input .emptyForest ∧ (run input user).1 = .error .emptyForest) ∨
    GraphStack.idLimit ≤ input.tokens.length ∨
    ∃ limit, (run input user).1 = .error (.stackLimit limit) := by
  rcases run_cases hr user with harr | ⟨hb, hnone, -⟩ | ⟨-, hlong, -⟩ | ⟨-, -, err, hfails, hrun⟩
  · exact .inl harr
  · have hspans := ht.spans
    rw [length_of_isBlank hone hb] at hspans
    have hnull := Tree.nullable_of_leaves.1 t _ ht.fits
      (List.length_eq_zero_iff.1 (by have := hspans.2; omega))
    obtain ⟨id, hid⟩ := hr.epsilon.exists_symbol hr.wellFormed hnull
    rw [hnone] at hid
    cases hid
  · exact .inr (.inr (.inl hlong))
  · rcases hfails.mayFail_or_empty hr hs ht hgood hend hgoodEnd htracks with hmay | rfl
    · cases err with
      | stackLimit limit => exact .inr (.inr (.inr ⟨limit, hrun⟩))
      | unexpectedToken | emptyForest | lexing | internal => exact hmay.elim
    · exact .inr (.inl ⟨hfails, hrun⟩)

/-- Where there is a tree that can be tracked, and its label has an alternative, a run arrives unless a
limit of the stack is reached. -/
theorem run_arrives (htracks : ∀ start l e, Finished input start l e →
      ∃ R, e.Tracks input P R ∧ e.KeepsAlive R)
    (hone : input.tokens.EndsOnce) (user : σ) :
    (∃ e root, Arrives input user e root ∧ (run input user).1 = finish input e root) ∨
    GraphStack.idLimit ≤ input.tokens.length ∨
    ∃ limit, (run input user).1 = .error (.stackLimit limit) := by
  rcases run_arrives_or_empty hr hs ht hgood hend hgoodEnd (fun start l e hf =>
    (htracks start l e hf).imp fun _ => And.left) hone user with harr | ⟨hfails, -⟩ | hlimits
  · exact .inl harr
  · exact (hfails.mayFail hr hs ht hgood hend hgoodEnd htracks).elim
  · exact .inr hlimits

variable (hspares : ∀ start l e, Finished input start l e → e.Spares input P)
include hspares

/-- Where a parse arrives, the root stands for a tree of which nothing is turned down. -/
theorem Arrives.reads (hone : input.tokens.EndsOnce) {user : σ} {root : NodeId}
    (h : Arrives input user e root) : e.nodes.Reads input.grammar input.tokens root t := by
  cases h with
  | blank hb hroot =>
    have hspans := ht.spans
    rw [length_of_isBlank hone hb] at hspans
    exact hr.epsilon.reads_symbol hr.wellFormed hroot ht.fits
      (List.length_eq_zero_iff.1 (by have := hspans.2; omega))
  | levels _ hf hroot _ =>
    obtain ⟨root', hroot', hread⟩ := hf.exists_root hr hs (hf.tracks_of_spares hr (hspares _ _ _ hf)) ht
      hgood hend hgoodEnd
    rwa [Option.some.inj (hroot.symm.trans hroot')]

/-- Where there is a tree of which nothing is turned down, a run answers a forest with the tree, unless
a limit of the stack is reached. -/
theorem run_complete (hone : input.tokens.EndsOnce) (user : σ) :
    (∃ e root, Arrives input user e root ∧ e.nodes.Reads input.grammar input.tokens root t ∧
      (run input user).1 = finish input e root) ∨
    GraphStack.idLimit ≤ input.tokens.length ∨
    ∃ limit, (run input user).1 = .error (.stackLimit limit) := by
  refine (run_arrives hr hs ht hgood hend hgoodEnd (fun _ _ _ hf =>
    ⟨_, hf.tracks_of_spares hr (hspares _ _ _ hf), Finished.keepsAlive_reads⟩) hone user).imp_left ?_
  rintro ⟨e, root, harr, hrun⟩
  exact ⟨e, root, harr, harr.reads hr hs ht hgood hend hgoodEnd hspares hone, hrun⟩

end

end Engine

end ParseForest
