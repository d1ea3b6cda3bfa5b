import ParseForest.Proofs.Forest.Yield
import ParseForest.Proofs.Parser.Levels

/-!
# Every tree finds its place

Where the stack waits for a symbol, and a tree of the symbol stands in the input, the symbol is on the
stack (`Engine.Placed`). The proof is by induction on the tree: the trees of a right-hand side make a
path over the stack (`Finished.exists_path`), and along it the reduction has been made
(`LevelReduced.paths`). What makes it before the next token is that lookaheads are exact
(`Automaton.IsExact`).

What is known of the label and the tree is left open (`Engine.Tracks`). Where nothing in the tree has
been turned down, the label stands for the tree (`Finished.tracks_of_spares`). Where judging is lenient,
it has an alternative at least (`Finished.tracks_of_lenient`).
-/

namespace ParseForest

variable {σ : Type}

/-! ## What comes after the rest of an alternative -/

/-- The lookahead may come when the symbols `γ` are left of an alternative of a rule that was begun
in a state. -/
def Automaton.Ahead (a : Automaton) (g : Grammar) (p₀ : StateId) (A : RuleId) (γ : List Symbol)
    (la : Lookahead) : Prop :=
  (∃ t, la = .terminal t ∧ g.First γ t) ∨ (g.Nullable γ ∧ a.Follow g p₀ A la)

namespace Automaton

variable {a : Automaton} {g : Grammar} {p₀ p : StateId} {A B : RuleId} {β γ ξ : List Symbol}
  {la : Lookahead}

theorem Ahead.skip (h : a.Ahead g p₀ A γ la) (hξ : g.Nullable ξ) : a.Ahead g p₀ A (ξ ++ γ) la := by
  rcases h with ⟨t, rfl, hf⟩ | ⟨hn, hfollow⟩
  · exact .inl ⟨t, rfl, hf.append_left hξ⟩
  · exact .inr ⟨Grammar.nullable_append_iff.2 ⟨hξ, hn⟩, hfollow⟩

/-- What comes after a rule in an alternative follows the rule. -/
theorem Ahead.follow (h : a.Ahead g p₀ A γ la) (hp : IsPair g a.states p₀ A) {alt : Nat}
    (halt : alt < (g.rule A).alternatives.size)
    (hs : (g.alternative A alt).symbols = β ++ .rule B :: γ) (hw : a.walk? p₀ β = some p) :
    a.Follow g p B la := by
  have ha := Grammar.alternative_mem halt
  rcases h with ⟨t, rfl, hf⟩ | ⟨hn, hfollow⟩
  · exact .first hp ha hs hw hf.begins
  · exact .tail hp ha hs hw hn hfollow

end Automaton

namespace Engine

section

variable (input : ParseInput σ) (L : Nat) (P : Nat → Tree → Prop) (R : NodeId → Tree → Prop)
  (e : Engine σ)

/-- No derivation has been turned down that stands for a tree with the property. -/
def Spares : Prop :=
  ∀ d : Deferred, d.Valid input e.nodes → d.key ∈ e.rejected → ∀ ts,
    e.nodes.ReadsAll input.grammar input.tokens d.children.toList ts →
    ¬ P d.span.left (.rule (input.grammar.rule d.rule).name d.rule d.alt ts)

/-- Something that holds of the labels on the stack and of the trees for which they are there. It holds
of tokens and of what derives nothing, and where a derivation has been offered for labels of which it
holds, and the tree has the property, the symbol is on the stack with a label of which it holds. -/
structure Tracks : Prop where
  token : ∀ {label i tok}, (Arena.node e.nodes label).kind = .terminal i →
    input.tokens.get? i = some tok → R label (.token tok)
  empty : ∀ {A label t}, input.compiled.epsilon.symbol? A = some label →
    t.Fits input.grammar input.compiled.matcher (.rule A) → t.leaves = [] → R label t
  rule : ∀ {r u A alt labels rest children ts us}, List.Forall₂ R labels ts →
    Tree.FitsAll input.grammar input.compiled.matcher us
      ((input.grammar.alternative A alt).symbols.drop labels.length) →
    Tree.leavesOfAll us = [] → input.IsLeftOut A alt labels.length rest →
    e.nodes.Folds A alt labels rest children → e.Completed input r u A alt children →
    P (e.stack.node u).level (.rule (input.grammar.rule A).name A alt (ts ++ us)) →
    ∃ id, e.HasGoto input r u A id ∧ R id (.rule (input.grammar.rule A).name A alt (ts ++ us))

/-- What the property holds of has an alternative, if it is a choice. -/
def KeepsAlive : Prop :=
  ∀ id t, R id t → (Arena.node e.nodes id).isChoice = true → Arena.childrenOf e.nodes id ≠ []

/-- On top of a stack node there is one of a state and a level, for the tree. -/
def HasTop (u : StackId) (q : StateId) (r : Nat) (t : Tree) : Prop :=
  ∃ v label, (e.stack.node v).level = r ∧ (e.stack.node v).state = q ∧
    ⟨u, label⟩ ∈ (e.stack.node v).edges ∧ R label t

/-- Wherever a stack node waits for the symbol and the tree stands there, the symbol is on top of it,
provided that what comes after the tree may follow the symbol. -/
def Placed (t : Tree) (x : Symbol) : Prop :=
  ∀ l r u q, input.tokens.Spans t.leaves l r → t.Everywhere P l → r ≤ L →
    u < e.stack.nodes.size → (e.stack.node u).level = l →
    (input.compiled.automaton.state (e.stack.node u).state).transition? x = some q →
    (∀ A, x = .rule A → ∃ la ∈ lookaheadsAt input r,
      input.compiled.automaton.Follow input.grammar (e.stack.node u).state A la) →
    e.HasTop R u q r t

/-- An item waits at a stack node, and its alternative was begun in a state. -/
structure Waits (p₀ : StateId) (A : RuleId) (alt : Nat) (β : List Symbol) (u : StackId) : Prop where
  lt_size : u < e.stack.nodes.size
  item : ⟨A, alt, β.length⟩ ∈ (input.compiled.automaton.state (e.stack.node u).state).items
  walk : input.compiled.automaton.walk? p₀ β = some (e.stack.node u).state

end

variable {input : ParseInput σ} {start : StackId} {e : Engine σ} {L : Nat} {P : Nat → Tree → Prop}
  {R : NodeId → Tree → Prop}

/-- What comes after trees may come before them, if they have no tokens, and otherwise their first
token may. -/
theorem exists_ahead {p₀ : StateId} {A : RuleId} {γ xs : List Symbol} {ts : List Tree} {k r : Nat}
    (hfits : Tree.FitsAll input.grammar input.compiled.matcher ts xs)
    (hspans : input.tokens.Spans (Tree.leavesOfAll ts) k r)
    (hla : ∃ la ∈ lookaheadsAt input r, input.compiled.automaton.Ahead input.grammar p₀ A γ la) :
    ∃ la ∈ lookaheadsAt input k, input.compiled.automaton.Ahead input.grammar p₀ A (xs ++ γ) la := by
  cases hl : Tree.leavesOfAll ts with
  | nil =>
    rw [hl, TokenStream.spans_nil_iff] at hspans
    obtain ⟨la, hmem, ha⟩ := hla
    exact ⟨la, hspans ▸ hmem, ha.skip (Tree.nullable_of_leaves.2 ts xs hfits hl)⟩
  | cons tok rest =>
    rw [hl] at hspans
    obtain ⟨t, ht, hf⟩ := Tree.first_of_leaves.2 ts xs hfits rest hl
    have hsat : input.tokens.Satisfies input.compiled.matcher k t := ⟨tok, hspans.get?_of_cons, ht⟩
    exact ⟨.terminal t, mem_lookaheadsAt_iff.2 hsat, .inl ⟨t, rfl, hf.append_right γ⟩⟩

namespace Finished

variable (hr : input.Ready) (h : Finished input start L e)
include hr h

/-- One tree further along an alternative. -/
theorem exists_step {p₀ : StateId} {A : RuleId} {alt : Nat} {β γ : List Symbol} {x : Symbol}
    {u : StackId} {t : Tree} {l r : Nat}
    (hpair : IsPair input.grammar input.compiled.automaton.states p₀ A)
    (halt : alt < (input.grammar.rule A).alternatives.size)
    (hs : (input.grammar.alternative A alt).symbols = β ++ x :: γ)
    (hw : e.Waits input p₀ A alt β u) (hl : (e.stack.node u).level = l)
    (hplaced : e.Placed input L P R t x) (hspans : input.tokens.Spans t.leaves l r)
    (hgood : t.Everywhere P l) (hrL : r ≤ L)
    (hla : ∃ la ∈ lookaheadsAt input r, input.compiled.automaton.Ahead input.grammar p₀ A γ la) :
    ∃ v label, e.Waits input p₀ A alt (β ++ [x]) v ∧ (e.stack.node v).level = r ∧
      ⟨u, label⟩ ∈ (e.stack.node v).edges ∧ R label t := by
  have hlr := hr.automaton.isLR0
  have hnext : (Item.mk A alt β.length).next? input.grammar = some x := by
    rw [Item.next?_eq, hs, List.getElem?_append_right (Nat.le_refl _), Nat.sub_self]
    rfl
  obtain ⟨q, hq⟩ := hlr.total _ (h.work.state_lt u hw.lt_size) _ hw.item x hnext
  have hfollow : ∀ B, x = .rule B → ∃ la ∈ lookaheadsAt input r,
      input.compiled.automaton.Follow input.grammar (e.stack.node u).state B la := by
    rintro B rfl
    obtain ⟨la, hmem, ha⟩ := hla
    exact ⟨la, hmem, ha.follow hpair halt hs hw.walk⟩
  obtain ⟨v, label, hv, hstate, hedge, hread⟩ :=
    hplaced l r u q hspans hgood hrL hw.lt_size hl hq hfollow
  refine ⟨v, label, ⟨GraphStack.lt_size_of_mem_edges hedge, ?_, ?_⟩, hv, hedge, hread⟩
  · rw [hstate, List.length_append]
    exact hlr.step_item hw.item hnext hq
  · rw [hstate]
    exact walkFrom_append_eq_some.2 ⟨_, hw.walk, by rw [walkFrom_singleton]; exact hq⟩

/-- Trees of a right-hand side make a path over the stack. -/
theorem exists_path {p₀ : StateId} {A : RuleId} {alt : Nat} {β γ xs : List Symbol} {u : StackId}
    {ts : List Tree} {l r : Nat}
    (hpair : IsPair input.grammar input.compiled.automaton.states p₀ A)
    (halt : alt < (input.grammar.rule A).alternatives.size)
    (hs : (input.grammar.alternative A alt).symbols = β ++ xs ++ γ)
    (hw : e.Waits input p₀ A alt β u) (hl : (e.stack.node u).level = l)
    (hfits : Tree.FitsAll input.grammar input.compiled.matcher ts xs)
    (hplaced : List.Forall₂ (e.Placed input L P R) ts xs)
    (hspans : input.tokens.Spans (Tree.leavesOfAll ts) l r) (hgood : Tree.EverywhereAll P l ts)
    (hrL : r ≤ L)
    (hla : ∃ la ∈ lookaheadsAt input r, input.compiled.automaton.Ahead input.grammar p₀ A γ la) :
    ∃ v labels, e.Waits input p₀ A alt (β ++ xs) v ∧ (e.stack.node v).level = r ∧
      e.stack.Path u labels v ∧ List.Forall₂ R labels ts := by
  induction hplaced generalizing β u l with
  | nil =>
    obtain rfl := TokenStream.spans_nil_iff.1 hspans
    rw [List.append_nil]
    exact ⟨u, [], hw, hl, .nil, .nil⟩
  | @cons t x ts xs hp _ ih =>
    cases hfits with
    | cons ht hts =>
      obtain ⟨hgood, hgoods⟩ := hgood
      obtain ⟨hspan, hspans⟩ := TokenStream.spans_append_iff.1 hspans
      have hs' : (input.grammar.alternative A alt).symbols = β ++ x :: (xs ++ γ) := by
        rw [hs, List.append_assoc, List.cons_append]
      obtain ⟨v₁, label, hw₁, hl₁, hedge, hread⟩ := h.exists_step hr hpair halt hs' hw hl hp hspan
        hgood (Nat.le_trans hspans.le hrL) (exists_ahead hts hspans hla)
      obtain ⟨v, labels, hw', hl', hpath, hreads⟩ := ih (β := β ++ [x])
        (by rw [hs', List.append_assoc, List.append_assoc]; rfl) hw₁ hl₁ hts hspans hgoods
      rw [List.append_assoc] at hw'
      exact ⟨v, label :: labels, hw', hl', hpath.cons hedge, .cons hread hreads⟩

omit hr in
/-- A token is placed by a shift. -/
theorem placed_token (htracks : e.Tracks input P R) {tok : Token} {t : TerminalId}
    (ht : t ∈ input.compiled.matcher.matching tok) :
    e.Placed input L P R (.token tok) (.terminal t) := by
  intro l r u q hspans _ hrL hu hl hq _
  have htok := hspans.get?_of_cons
  obtain rfl : r = l + 1 := hspans.2
  obtain ⟨v, label, hv, hstate, hedge, hk⟩ := h.shifted l hrL u hu hl t q ⟨tok, htok, ht⟩ hq
  exact ⟨v, label, hv, hstate, hedge, htracks.token hk htok⟩

/-- A tree without tokens is placed by an empty reduction. -/
theorem placed_empty (hs : input.grammar.AvoidsStart) (htracks : e.Tracks input P R) {A : RuleId} {t : Tree}
    (hfits : t.Fits input.grammar input.compiled.matcher (.rule A)) (hempty : t.leaves = []) :
    e.Placed input L P R t (.rule A) := by
  intro l r u q hspans _ hrL hu hl hq hfollow
  have hlr := hr.automaton.isLR0
  rw [hempty] at hspans
  obtain rfl := TokenStream.spans_nil_iff.1 hspans
  obtain ⟨la, hmem, hla⟩ := hfollow A rfl
  have hA : A ≠ input.grammar.start := by
    rintro rfl
    exact hlr.goto?_start hs _ q hq
  cases hfits with
  | @rule A alt children halt hchildren =>
    have hnull := Tree.nullable_of_leaves.2 _ _ hchildren hempty
    have haction : .reduce A alt 0 ∈
        (input.compiled.automaton.state (e.stack.node u).state).actions la :=
      ((hr.exact hs).reduce_iff _ (h.work.state_lt u hu) A alt [] _ la hA halt rfl hnull).2
        ⟨_, rfl, hla⟩
    obtain ⟨label, hlabel, v, hv, hedge, hgoto⟩ :=
      (h.reduced r hrL).zeros u hu hl la hmem A alt haction
    exact ⟨v, label, hv, Option.some.inj (hgoto.symm.trans hq), hedge,
      htracks.empty hlabel (.rule halt hchildren) hempty⟩

/-- A tree with tokens is placed by the reduction of its alternative up to the last child with
tokens. -/
theorem placed_rule (hs : input.grammar.AvoidsStart) (htracks : e.Tracks input P R) {A : RuleId}
    {alt : Nat} {children : List Tree} (halt : alt < (input.grammar.rule A).alternatives.size)
    (hfits : Tree.FitsAll input.grammar input.compiled.matcher children
      (input.grammar.alternative A alt).symbols)
    (hplaced : List.Forall₂ (e.Placed input L P R) children
      (input.grammar.alternative A alt).symbols)
    (hne : Tree.leavesOfAll children ≠ []) :
    e.Placed input L P R (.rule (input.grammar.rule A).name A alt children) (.rule A) := by
  intro l r u q hspans hgood hrL hu hl hq hfollow
  have hlr := hr.automaton.isLR0
  obtain ⟨la, hmem, hla⟩ := hfollow A rfl
  have hA : A ≠ input.grammar.start := by
    rintro rfl
    exact hlr.goto?_start hs _ q hq
  have hpair : IsPair input.grammar input.compiled.automaton.states (e.stack.node u).state A :=
    .inl ⟨q, hq⟩
  -- the children up to the last one with tokens, that one, and the others
  obtain ⟨us, t, vs, rfl, ht, hvs⟩ := Tree.exists_last_of_leaves hne
  obtain ⟨xs, ys, hxy, hpus, hprest⟩ := List.forall₂_append_left_iff.1 hplaced
  obtain ⟨x, ys, hpt, -, rfl⟩ := List.forall₂_cons_left_iff.1 hprest
  rw [hxy] at hfits
  obtain ⟨us', rest', hsplit, hfus, hfrest⟩ := hfits.split
  have hlen : us.length = us'.length := by
    rw [hpus.length_eq, (Tree.fitsAll_iff_forall₂.1 hfus).length_eq]
  obtain ⟨rfl, rfl⟩ := List.append_inj hsplit hlen
  cases hfrest with
  | cons hft hfvs =>
    have hnull := Tree.nullable_of_leaves.2 _ _ hfvs hvs
    obtain ⟨hP, hgood⟩ := hgood
    obtain ⟨hgus, hgt, -⟩ := Tree.everywhereAll_append_iff.1 hgood
    have hspans' := hspans
    rw [Tree.leaves, Tree.leavesOfAll_append, TokenStream.spans_append_iff, Tree.leavesOfAll, hvs,
      List.append_nil] at hspans'
    obtain ⟨hsus, hst⟩ := hspans'
    -- the path over the children
    have hw : e.Waits input (e.stack.node u).state A alt [] u :=
      ⟨hu, hlr.item_of_goto hq halt, rfl⟩
    have hahead : ∃ la ∈ lookaheadsAt input r, input.compiled.automaton.Ahead input.grammar
        (e.stack.node u).state A ys la := ⟨la, hmem, .inr ⟨hnull, hla⟩⟩
    have hstail : input.tokens.Spans (Tree.leavesOfAll [t]) (l + (Tree.leavesOfAll us).length) r := by
      rw [Tree.leavesOfAll, Tree.leavesOfAll, List.append_nil]
      exact hst
    obtain ⟨w, labels, hww, hlw, hpath, hreads⟩ := h.exists_path hr hpair halt
      (γ := [x] ++ ys) (by rw [hxy]; rfl) hw hl hfus hpus hsus hgus (Nat.le_trans hst.le hrL)
      (exists_ahead (.cons hft .nil) hstail hahead)
    rw [List.nil_append] at hww
    obtain ⟨v, label, hwv, hlv, hedge, hread⟩ :=
      h.exists_step hr hpair halt hxy hww hlw hpt hst hgt hrL hahead
    -- the reduction along it
    have hlt : (e.stack.node w).level < r := by
      have := hst.2
      have := List.length_pos_iff.2 ht
      omega
    have hlabels : labels.length = xs.length := hreads.length_eq.trans hpus.length_eq
    have haction : .reduce A alt (labels.length + 1) ∈
        (input.compiled.automaton.state (e.stack.node v).state).actions la := by
      have := ((hr.exact hs).reduce_iff _ (h.work.state_lt v hwv.lt_size) A alt (xs ++ [x]) ys la
        hA halt (by rw [hxy, List.append_assoc]; rfl) hnull).2 ⟨_, hwv.walk, hla⟩
      rwa [List.length_append, List.length_singleton, ← hlabels] at this
    obtain ⟨rest, kids, hrest, hfolds, hcompleted⟩ := (h.reduced r hrL).paths v u ⟨w, label⟩ labels hlv
      hedge hlt hpath la hmem A alt haction
    have hlen' : (labels ++ [label]).length = labels.length + 1 := by simp
    have hdrop : (input.grammar.alternative A alt).symbols.drop (labels ++ [label]).length = ys := by
      rw [hxy, hlen', hlabels, List.drop_append, List.drop_of_length_le (Nat.le_succ _),
        Nat.add_sub_cancel_left]
      rfl
    have happend : (us ++ [t]) ++ vs = us ++ t :: vs := by rw [List.append_assoc]; rfl
    obtain ⟨id, ⟨v', hlv', hedge', hgoto⟩, hR⟩ := htracks.rule
      (List.rel_append hreads (.cons hread .nil)) (hdrop ▸ hfvs) hvs (hlen' ▸ hrest) hfolds hcompleted
      (by rw [hl, happend]; exact hP)
    exact ⟨v', id, hlv', Option.some.inj (hgoto.symm.trans hq), hedge', happend ▸ hR⟩

/-- Every tree finds its place. -/
theorem placed (hs : input.grammar.AvoidsStart) (htracks : e.Tracks input P R) :
    (∀ t x, t.Fits input.grammar input.compiled.matcher x → e.Placed input L P R t x) ∧
    ∀ ts xs, Tree.FitsAll input.grammar input.compiled.matcher ts xs →
      List.Forall₂ (e.Placed input L P R) ts xs := by
  refine Tree.fits_induction (fun tok t ht => h.placed_token htracks ht)
    (fun A alt children halt hfits ih => ?_) .nil fun t ts x xs _ _ ih ih' => .cons ih ih'
  by_cases hempty : Tree.leavesOfAll children = []
  · exact h.placed_empty hr hs htracks (.rule halt hfits) hempty
  · exact h.placed_rule hr hs htracks halt hfits ih hempty

/-! ## What can be tracked -/

omit hr h in
/-- What stands for a tree has an alternative. -/
theorem keepsAlive_reads : e.KeepsAlive (e.nodes.Reads input.grammar input.tokens) := by
  intro id t hread hc
  cases hread with
  | token hk _ => simp [Node.isChoice, hk] at hc
  | rule _ hp _ _ => exact List.ne_nil_of_mem hp

/-- A label stands for a tree of which nothing has been turned down. -/
theorem tracks_of_spares (hspares : e.Spares input P) :
    e.Tracks input P (e.nodes.Reads input.grammar input.tokens) := by
  have hbase := input.formed_fragments hr.wellFormed hr.epsilon
  refine ⟨.token, fun hlabel hfits hempty => ?_,
    fun {r u A alt labels rest children ts us} hreads hfits hempty hrest hfolds hcompleted hP => ?_⟩
  · apply (hbase.reads_grows hr.epsilon h.forest.formed.base).1
    exact hr.epsilon.reads_symbol hr.wellFormed hlabel hfits hempty
  · have hrestReads : e.nodes.ReadsAll input.grammar input.tokens rest.toList us := by
      rcases hrest with ⟨hle, rfl⟩ | ⟨-, part, rfl, hpart⟩
      · rw [List.drop_of_length_le hle] at hfits
        cases hfits
        exact .nil
      · apply (hbase.reads_grows hr.epsilon h.forest.formed.base).2
        · exact hr.epsilon.reads_tail hr.wellFormed hpart hfits hempty
        · simpa using (hr.epsilon.tail A alt _ part hpart).1
    have hkids := hfolds.readsAll hreads hrestReads
    obtain ⟨id, hk, hspan, hmarked, hcase⟩ := hcompleted
    -- it has not been turned down
    have hkept : ⟨id, alt, children⟩ ∉ e.rejected := fun hrej =>
      hspares _ ((h.forest.dropped _ hrej).valid hk hspan).1 hrej _ hkids hP
    refine ⟨id, hcase.resolve_right fun hrej => hkept hrej.2.1, ?_⟩
    rcases (h.forest.packed_iff _).1 (hmarked.resolve_right hkept) with
      ⟨-, B, -, p, hp, hnode⟩ | ⟨d, hd, -⟩
    · refine .rule hk hp (by rw [hnode]; rfl) ?_
      rw [Arena.childrenOf, hnode]
      exact hkids
    · cases hd

/-- Where judging is lenient, a symbol that is on the stack has an alternative. -/
theorem tracks_of_lenient (hlenient : input.Lenient) : e.Tracks input P fun id _ =>
    (Arena.node e.nodes id).isChoice = true → Arena.childrenOf e.nodes id ≠ [] := by
  have halive : ∀ {id}, e.Usable input id → (Arena.node e.nodes id).isChoice = true →
      Arena.childrenOf e.nodes id ≠ [] := fun hu hc => (hu.productive hlenient.prompt).children_ne_nil hc
  refine ⟨fun hk _ hc => by simp [Node.isChoice, hk] at hc, fun hlabel _ _ =>
    halive (h.forest.usable_symbol? hr hlabel), fun _ _ _ _ _ hcompleted _ => ?_⟩
  obtain ⟨label, -, -, -, hcase⟩ := hcompleted
  have hgoto := hcase.resolve_right fun hrej => hrej.1 hlenient
  obtain ⟨v, -, hedge, -⟩ := id hgoto
  exact ⟨label, hgoto, halive (h.work.labelled v _ hedge).1⟩

end Finished

end Engine

end ParseForest
