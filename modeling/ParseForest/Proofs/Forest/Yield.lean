import ParseForest.Proofs.Forest.Fragments

/-!
# Trees over tokens

Where a tree stands in the input is told by its leaves (`TokenStream.Spans`): the trees of a
right-hand side stand one after the other (`TokenStream.spans_append_iff`). A property of rule nodes
and the positions at which they begin may hold of all rule nodes of a tree (`Tree.Everywhere`); a tree
that begins with a token makes its terminal a first one of the symbol (`Tree.first_of_leaves`).
-/

namespace ParseForest

namespace TokenStream

/-- The tokens are those from `l` up to but not including `r`. -/
def Spans (tokens : TokenStream) (toks : List Token) (l r : Nat) : Prop :=
  (∀ i tok, toks[i]? = some tok → tokens.get? (l + i) = some tok) ∧ r = l + toks.length

variable {tokens : TokenStream} {us vs : List Token} {l k r : Nat}

theorem Spans.le (h : tokens.Spans us l r) : l ≤ r := by
  obtain ⟨-, rfl⟩ := h
  exact Nat.le_add_right l _

theorem spans_nil (l : Nat) : tokens.Spans [] l l := ⟨by simp, rfl⟩

theorem spans_nil_iff : tokens.Spans [] l r ↔ r = l := by
  constructor
  · rintro ⟨-, rfl⟩
    rfl
  · rintro rfl
    exact spans_nil _

theorem spans_append_iff : tokens.Spans (us ++ vs) l r ↔
    tokens.Spans us l (l + us.length) ∧ tokens.Spans vs (l + us.length) r := by
  constructor
  · rintro ⟨h, rfl⟩
    refine ⟨⟨fun i tok hi => h i tok ?_, rfl⟩, fun i tok hi => ?_, ?_⟩
    · rw [List.getElem?_append_left (List.getElem?_eq_some_iff.1 hi).1]
      exact hi
    · rw [Nat.add_assoc]
      apply h
      rw [List.getElem?_append_right (Nat.le_add_right _ _), Nat.add_sub_cancel_left]
      exact hi
    · rw [List.length_append, Nat.add_assoc]
  · rintro ⟨⟨h, -⟩, h', rfl⟩
    refine ⟨fun i tok hi => ?_, by rw [List.length_append, Nat.add_assoc]⟩
    by_cases hlt : i < us.length
    · rw [List.getElem?_append_left hlt] at hi
      exact h i tok hi
    · rw [List.getElem?_append_right (Nat.not_lt.1 hlt)] at hi
      have := h' _ tok hi
      rwa [Nat.add_assoc, Nat.add_sub_cancel' (Nat.not_lt.1 hlt)] at this

theorem Spans.append (h : tokens.Spans us l k) (h' : tokens.Spans vs k r) :
    tokens.Spans (us ++ vs) l r := by
  obtain rfl : k = l + us.length := h.2
  exact spans_append_iff.2 ⟨h, h'⟩

/-- The first of the tokens is the one at the beginning. -/
theorem Spans.get?_of_cons {tok : Token} (h : tokens.Spans (tok :: us) l r) :
    tokens.get? l = some tok := h.1 0 tok rfl

theorem spans_singleton {tok : Token} (h : tokens.get? l = some tok) :
    tokens.Spans [tok] l (l + 1) := by
  refine ⟨fun i tok' hi => ?_, rfl⟩
  cases i with
  | zero => exact h.trans hi
  | succ i => cases hi

theorem spans_slice (hle : l ≤ r) (hr : r ≤ tokens.length) : tokens.Spans (tokens.slice l r) l r := by
  constructor
  · intro i tok hi
    rw [slice, Array.getElem?_toList, Array.getElem?_extract] at hi
    split at hi
    · exact hi
    · cases hi
  · rw [slice, Array.length_toList, Array.size_extract]
    rw [length] at hr
    omega

/-- Between two positions there is only one list of tokens. -/
theorem Spans.unique (h : tokens.Spans us l r) (h' : tokens.Spans vs l r) : us = vs := by
  obtain ⟨h, hlen⟩ := h
  obtain ⟨h', hlen'⟩ := h'
  have heq : us.length = vs.length := by omega
  refine List.ext_getElem heq fun i hi hi' => ?_
  have hu := h i us[i] (List.getElem?_eq_getElem hi)
  have hv := h' i vs[i] (List.getElem?_eq_getElem hi')
  exact Option.some.inj (hu.symm.trans hv)

end TokenStream

namespace Tree

mutual

/-- The property holds of all rule nodes of the tree and the positions at which they begin. -/
def Everywhere (P : Nat → Tree → Prop) : Nat → Tree → Prop
  | _, .token _ => True
  | l, .rule name A alt children => P l (.rule name A alt children) ∧ EverywhereAll P l children

/-- The property holds of all rule nodes of trees that stand one after the other. -/
def EverywhereAll (P : Nat → Tree → Prop) : Nat → List Tree → Prop
  | _, [] => True
  | l, t :: ts => Everywhere P l t ∧ EverywhereAll P (l + t.leaves.length) ts

end

theorem everywhereAll_append_iff {P : Nat → Tree → Prop} {ts us : List Tree} {l : Nat} :
    EverywhereAll P l (ts ++ us) ↔
      EverywhereAll P l ts ∧ EverywhereAll P (l + (leavesOfAll ts).length) us := by
  induction ts generalizing l with
  | nil => simp [EverywhereAll, leavesOfAll]
  | cons t ts ih =>
    simp only [List.cons_append, EverywhereAll, ih, leavesOfAll, List.length_append, Nat.add_assoc,
      and_assoc]

mutual

/-- What holds of all trees holds everywhere. -/
theorem everywhere_of_forall {P : Nat → Tree → Prop} (h : ∀ l t, P l t) :
    ∀ l t, Everywhere P l t
  | _, .token _ => trivial
  | l, .rule _ _ _ children => ⟨h l _, everywhereAll_of_forall h l children⟩

theorem everywhereAll_of_forall {P : Nat → Tree → Prop} (h : ∀ l t, P l t) :
    ∀ l ts, EverywhereAll P l ts
  | _, [] => trivial
  | l, t :: ts => ⟨everywhere_of_forall h l t, everywhereAll_of_forall h _ ts⟩

end

variable {g : Grammar} {m : TerminalMatcher}

/-- The first token of a tree satisfies a first terminal of its symbol. -/
theorem first_of_leaves {tok : Token} :
    (∀ t x, Fits g m t x → ∀ rest, t.leaves = tok :: rest →
      ∃ a ∈ m.matching tok, g.First [x] a) ∧
    ∀ ts xs, FitsAll g m ts xs → ∀ rest, leavesOfAll ts = tok :: rest →
      ∃ a ∈ m.matching tok, g.First xs a := by
  refine fits_induction (fun tok' a ha rest h => ?_) (fun A alt children halt _ ih rest h => ?_)
    (fun rest h => ?_) fun t ts x xs ht hts ih ih' rest h => ?_
  · obtain ⟨rfl, -⟩ := List.cons.inj h
    exact ⟨a, ha, .terminal a []⟩
  · obtain ⟨a, ha, hf⟩ := ih rest h
    exact ⟨a, ha, .rule [] (Grammar.alternative_mem halt) hf⟩
  · cases h
  · rw [leavesOfAll] at h
    cases hl : t.leaves with
    | nil =>
      -- the first token is in the other trees
      rw [hl, List.nil_append] at h
      obtain ⟨a, ha, hf⟩ := ih' rest h
      exact ⟨a, ha, .skip (nullable_of_leaves.1 t x ht hl) hf⟩
    | cons tok' rest' =>
      rw [hl] at h
      obtain ⟨rfl, -⟩ := List.cons.inj h
      obtain ⟨a, ha, hf⟩ := ih rest' hl
      exact ⟨a, ha, hf.append_right xs⟩

/-- Of trees that have tokens there is a last one that has. -/
theorem exists_last_of_leaves {ts : List Tree} (h : leavesOfAll ts ≠ []) :
    ∃ us t vs, ts = us ++ t :: vs ∧ t.leaves ≠ [] ∧ leavesOfAll vs = [] := by
  induction ts with
  | nil => exact absurd rfl h
  | cons t ts ih =>
    by_cases hts : leavesOfAll ts = []
    · refine ⟨[], t, ts, rfl, fun ht => h ?_, hts⟩
      rw [leavesOfAll, ht, hts]
      rfl
    · obtain ⟨us, t', vs, rfl, ht, hvs⟩ := ih hts
      exact ⟨t :: us, t', vs, rfl, ht, hvs⟩

end Tree

/-! ## Trees of nodes -/

/-- What is spelled by tokens ends where the tokens do. -/
theorem Spells.le_length {g : Grammar} {m : TerminalMatcher} {tokens : TokenStream} {α : List Symbol}
    {l r : Nat} (h : Spells g m tokens α l r) (hlt : l < r) : r ≤ tokens.length := by
  obtain ⟨w, -, rfl, hw⟩ := h
  have hi : w.length - 1 < w.length := by omega
  obtain ⟨tok, htok, -⟩ := hw (w.length - 1) _ (List.getElem?_eq_getElem hi)
  have := (Array.getElem?_eq_some_iff.1 htok).1
  rw [TokenStream.length]
  omega

namespace Arena

variable {g : Grammar} {m : TerminalMatcher} {tokens : TokenStream} {nodes : Arena}

/-- The trees of what covers symbols are trees of the symbols, over the same tokens. -/
theorem Backed.spans_of_covers (h : Backed g m tokens nodes) {A : RuleId} {alt dot l r : Nat}
    {cs : List NodeId} (hc : Covers g m tokens nodes A alt dot l r cs) {ts : List Tree}
    (hts : nodes.ReadsAll g tokens cs ts) :
    Tree.FitsAll g m ts ((g.alternative A alt).symbols.drop dot) ∧
      tokens.Spans (Tree.leavesOfAll ts) l r := by
  obtain ⟨hle, hfits, hleaves⟩ := h.toSound.fits.2 cs ts hts A alt dot l r hc
  refine ⟨hfits, ?_⟩
  rw [hleaves]
  rcases Nat.lt_or_eq_of_le hle with hlt | rfl
  · exact TokenStream.spans_slice hle ((h.spells_of_covers hc).le_length hlt)
  · rw [TokenStream.slice_self]
    exact TokenStream.spans_nil l

/-- The trees of what stands for a symbol are trees of the symbol, over the same tokens. -/
theorem Backed.spans_of_stands (h : Backed g m tokens nodes) {x : Symbol} {l r : Nat} {id : NodeId}
    (hs : nodes.Stands m tokens x l r id) {t : Tree} (ht : nodes.Reads g tokens id t) :
    t.Fits g m x ∧ tokens.Spans t.leaves l r := by
  obtain ⟨hle, hfits, hleaves⟩ := h.toSound.fits.1 id t ht x l r hs
  cases hfits with
  | cons hfit _ =>
    refine ⟨hfit, ?_⟩
    rw [Tree.leavesOfAll, Tree.leavesOfAll, List.append_nil] at hleaves
    rw [hleaves]
    rcases Nat.lt_or_eq_of_le hle with hlt | rfl
    · exact TokenStream.spans_slice hle ((h.spells_of_stands hs).le_length hlt)
    · rw [TokenStream.slice_self]
      exact TokenStream.spans_nil l

/-! ## What holds of all rule nodes -/

/-- What holds of the rule nodes that stand at the choices of an arena holds everywhere in its trees. -/
theorem Backed.everywhere_of_reads (h : Backed g m tokens nodes) {P : Nat → Tree → Prop}
    (hP : ∀ id p A B alt l r ts, nodes.Stands m tokens (.rule A) l r id → p ∈ childrenOf nodes id →
      (node nodes p).kind = .packed B alt → nodes.ReadsAll g tokens (childrenOf nodes p) ts →
      P l (.rule (g.rule A).name A alt ts)) :
    (∀ id t, nodes.Reads g tokens id t → ∀ x l r, nodes.Stands m tokens x l r id →
      t.Everywhere P l) ∧
    ∀ cs ts, nodes.ReadsAll g tokens cs ts → ∀ A alt dot l r,
      Covers g m tokens nodes A alt dot l r cs → Tree.EverywhereAll P l ts := by
  -- the reading of the children is needed again for the property itself
  have hall : (∀ id t, nodes.Reads g tokens id t → nodes.Reads g tokens id t ∧
      ∀ x l r, nodes.Stands m tokens x l r id → t.Everywhere P l) ∧
      ∀ cs ts, nodes.ReadsAll g tokens cs ts → nodes.ReadsAll g tokens cs ts ∧
        ∀ A alt dot l r, Covers g m tokens nodes A alt dot l r cs → Tree.EverywhereAll P l ts := by
    refine reads_induction ?token ?rule ?nil ?epsilon ?nulled ?intermediate ?tree
    case token =>
      intro id i tok hk htok
      exact ⟨.token hk htok, fun _ _ _ _ => trivial⟩
    case rule =>
      intro id p A A' alt children hk hp hpk ⟨hread, ih⟩
      refine ⟨.rule hk hp hpk hread, fun x l r hx => ?_⟩
      cases x with
      | terminal t => simp [hx.1] at hk
      | rule B =>
        obtain rfl := NodeKind.symbol.inj (hk.symm.trans hx.1)
        obtain ⟨alt', -, hcov⟩ := h.symbol id A hk p hp
        exact ⟨hP id p A A' alt l r children hx hp hpk hread, ih A alt' 0 l r (hcov l r hx.2).2⟩
    case nil => exact ⟨.nil, fun _ _ _ _ _ _ => trivial⟩
    case epsilon =>
      intro c cs ts hk ⟨hread, ih⟩
      exact ⟨.epsilon hk hread, fun A alt dot l r hc => ih A alt dot l r (hc.of_epsilon hk)⟩
    case nulled =>
      intro c cs us ts A' alt' dot' hk ⟨hread, ih⟩ hrest ⟨hreads, _⟩
      refine ⟨.nulled hk hread hreads, fun A alt dot l r hc => ?_⟩
      obtain ⟨hk', rfl, rfl⟩ := hc.of_nulled hk
      cases hrest
      rw [List.append_nil]
      exact ih A alt dot l l (h.nulled c A alt dot l hk')
    case intermediate =>
      intro c p cs us ts A' alt' dot' hk hp ⟨hread, ih⟩ hrest ⟨hreads, _⟩
      refine ⟨.intermediate hk hp hread hreads, fun A alt dot l r hc => ?_⟩
      obtain ⟨hk', hspan, rfl⟩ := hc.of_intermediate hk
      cases hrest
      rw [List.append_nil]
      exact ih A alt dot l r (h.intermediate c A alt dot l r hk' hspan p hp).2
    case tree =>
      intro c cs t ts _ ⟨hread, ih⟩ ⟨hreads, ih'⟩
      refine ⟨.tree hread hreads, fun A alt dot l r hc => ?_⟩
      obtain ⟨x, k, -, hstands, hc⟩ := hc.of_reads hread
      obtain rfl := (h.spans_of_stands hstands hread).2.2
      exact ⟨ih x l _ hstands, ih' A alt (dot + 1) _ r hc⟩
  exact ⟨fun id t ht => (hall.1 id t ht).2, fun cs ts hts => (hall.2 cs ts hts).2⟩

end Arena

end ParseForest
