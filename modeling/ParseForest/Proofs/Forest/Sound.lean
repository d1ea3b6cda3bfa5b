import ParseForest.Grammar.Matching
import ParseForest.Proofs.Grammar.Built
import ParseForest.Token.Stream
import ParseForest.Proofs.Forest.Reads

/-!
# Sound arenas

An arena is sound when every alternative of a choice covers the symbols that the choice stands for,
over the span of the choice (`Arena.Sound`). This is a condition on single nodes, so it makes sense
for cyclic forests; that the trees of a sound arena are derivation trees over the right tokens
(`Sound.fits`) is an induction on the tree that is read.
-/

namespace ParseForest

/-!
## Spelling

Symbols *spell* a stretch of the tokens when they derive a string of terminals that the tokens
satisfy one by one (`Spells`). This is what recognition is about, apart from any forest.
-/

section

namespace TokenStream

/-- Token number `i` satisfies the terminal. -/
def Satisfies (tokens : TokenStream) (m : TerminalMatcher) (i : Nat) (t : TerminalId) : Prop :=
  ∃ tok, tokens.get? i = some tok ∧ t ∈ m.matching tok

/-- The tokens from `l` up to but not including `r`. -/
def slice (tokens : TokenStream) (l r : Nat) : List Token := (tokens.tokens.extract l r).toList

@[simp] theorem slice_self (tokens : TokenStream) (l : Nat) : tokens.slice l l = [] := by
  simp [slice]

theorem slice_append (tokens : TokenStream) {l m r : Nat} (h : l ≤ m) (h' : m ≤ r) :
    tokens.slice l m ++ tokens.slice m r = tokens.slice l r := by
  rw [slice, slice, slice, ← Array.toList_append, Array.extract_append_extract, Nat.min_eq_left h,
    Nat.max_eq_right h']

theorem slice_succ {tokens : TokenStream} {i : Nat} {tok : Token} (h : tokens.get? i = some tok) :
    tokens.slice i (i + 1) = [tok] := by
  obtain ⟨hlt, rfl⟩ := Array.getElem?_eq_some_iff.1 h
  rw [slice, Array.extract_succ_right (Nat.lt_succ_self i) hlt,
    Array.extract_empty_of_stop_le_start (Nat.le_refl i)]
  rfl

end TokenStream

/-- The symbols derive terminals that the tokens from `l` up to but not including `r` satisfy. -/
def Spells (g : Grammar) (m : TerminalMatcher) (tokens : TokenStream) (α : List Symbol)
    (l r : Nat) : Prop :=
  ∃ w : List TerminalId, g.Derives α (w.map Symbol.terminal) ∧ r = l + w.length ∧
    ∀ (i : Nat) t, w[i]? = some t → tokens.Satisfies m (l + i) t

variable {g : Grammar} {m : TerminalMatcher} {tokens : TokenStream} {α β : List Symbol}
  {l k r : Nat}

theorem Spells.le (h : Spells g m tokens α l r) : l ≤ r := by
  obtain ⟨w, -, rfl, -⟩ := h
  exact Nat.le_add_right _ _

theorem spells_of_nullable (h : g.Nullable α) (l : Nat) : Spells g m tokens α l l :=
  ⟨[], h, rfl, by simp⟩

theorem spells_nil (l : Nat) : Spells g m tokens [] l l := spells_of_nullable Grammar.nullable_nil l

theorem spells_terminal {t : TerminalId} (h : tokens.Satisfies m l t) :
    Spells g m tokens [.terminal t] l (l + 1) := by
  refine ⟨[t], .refl _, rfl, fun i t' ht => ?_⟩
  cases i with
  | zero =>
    obtain rfl := Option.some.inj ht
    exact h
  | succ i => simp at ht

theorem Spells.append (h : Spells g m tokens α l k) (h' : Spells g m tokens β k r) :
    Spells g m tokens (α ++ β) l r := by
  obtain ⟨w, hd, rfl, hw⟩ := h
  obtain ⟨w', hd', rfl, hw'⟩ := h'
  refine ⟨w ++ w', by rw [List.map_append]; exact Grammar.derives_append hd hd',
    by rw [List.length_append, Nat.add_assoc], fun i t ht => ?_⟩
  by_cases hi : i < w.length
  · rw [List.getElem?_append_left hi] at ht
    exact hw i t ht
  · rw [List.getElem?_append_right (Nat.not_lt.1 hi)] at ht
    have := hw' _ t ht
    rwa [Nat.add_assoc, Nat.add_sub_cancel' (Nat.not_lt.1 hi)] at this

theorem spells_rule {A : RuleId} {a : Alternative} (ha : a ∈ (g.rule A).alternatives)
    (h : Spells g m tokens a.symbols l r) : Spells g m tokens [.rule A] l r := by
  obtain ⟨w, hd, hr, hw⟩ := h
  exact ⟨w, Grammar.derives_rule ha hd, hr, hw⟩

/-- A rule that has only a terminal spells one token. -/
theorem Spells.of_terminal {A : RuleId} {t : TerminalId}
    (hA : ∀ a ∈ (g.rule A).alternatives, a.symbols = [.terminal t])
    (h : Spells g m tokens [.rule A] l r) : r = l + 1 ∧ tokens.Satisfies m l t := by
  obtain ⟨w, hd, rfl, hw⟩ := h
  rcases Grammar.derives_rule_iff.1 hd with h | ⟨a, ha, hd⟩
  · cases w <;> simp at h
  · rw [hA a ha, Grammar.derives_terminal_iff] at hd
    obtain rfl : w = [t] := by
      cases w with
      | nil => simp at hd
      | cons t' w =>
        obtain ⟨ht, hw⟩ := List.cons.inj hd
        obtain rfl := List.map_eq_nil_iff.1 hw
        rw [Symbol.terminal.inj ht]
    exact ⟨rfl, hw 0 t rfl⟩

/-- The rule of the end of input spells the token that marks it. -/
theorem Spells.eof (hg : g.WellFormed) (h : Spells g m tokens [.rule g.eofRule] l r) :
    r = l + 1 ∧ tokens.Satisfies m l g.eof := by
  obtain ⟨a, hall, hsym⟩ := hg.eof_alternatives
  refine h.of_terminal fun a' ha' => ?_
  obtain rfl : a' = a := by simpa [hall] using ha'
  exact hsym

end

/-! ## Sound arenas -/

namespace Arena

variable (g : Grammar) (m : TerminalMatcher) (tokens : TokenStream) (nodes : Arena)

/-- The node stands for the symbol from `l` to `r`. The fragments of empty derivations have no span
and stand for their rule anywhere. -/
def Stands : Symbol → Nat → Nat → NodeId → Prop
  | .terminal t, l, r, id =>
    (node nodes id).kind = .terminal l ∧ r = l + 1 ∧ tokens.Satisfies m l t
  | .rule A, l, r, id => (node nodes id).kind = .symbol A ∧
    ((node nodes id).span = some ⟨l, r⟩ ∨ ((node nodes id).span = none ∧ l = r))

/-- The nodes cover the symbols of an alternative from `dot` on, from `l` to `r`. -/
inductive Covers (A : RuleId) (alt : Nat) : Nat → Nat → Nat → List NodeId → Prop
  | done (l : Nat) : Covers A alt (g.alternative A alt).length l l []
  | epsilon {dot l r : Nat} {c : NodeId} {cs : List NodeId} (hk : (node nodes c).kind = .epsilon)
      (h : Covers A alt dot l r cs) : Covers A alt dot l r (c :: cs)
  | symbol {dot l k r : Nat} {x : Symbol} {c : NodeId} {cs : List NodeId}
      (hx : (g.alternative A alt).symbols[dot]? = some x) (hc : nodes.Stands m tokens x l k c)
      (h : Covers A alt (dot + 1) k r cs) : Covers A alt dot l r (c :: cs)
  | intermediate {dot l r : Nat} {c : NodeId} (hk : (node nodes c).kind = .intermediate A alt dot)
      (hs : (node nodes c).span = some ⟨l, r⟩) : Covers A alt dot l r [c]
  | nulled {dot l : Nat} {c : NodeId} (hk : (node nodes c).kind = .nulled A alt dot) :
      Covers A alt dot l l [c]

/-- The packed node is an alternative of the symbols of `alt` from `dot` on, from `l` to `r`. -/
def IsAlternative (A : RuleId) (alt dot l r : Nat) (p : NodeId) : Prop :=
  (node nodes p).kind = .packed A alt ∧ Covers g m tokens nodes A alt dot l r (childrenOf nodes p)

/-- Every node holds what it stands for. -/
structure Sound : Prop where
  epsilon : (node nodes epsilonId).kind = .epsilon
  symbol : ∀ id A, (node nodes id).kind = .symbol A → ∀ p ∈ childrenOf nodes id,
    ∃ alt < (g.rule A).alternatives.size, ∀ l r,
      ((node nodes id).span = some ⟨l, r⟩ ∨ ((node nodes id).span = none ∧ l = r)) →
      IsAlternative g m tokens nodes A alt 0 l r p
  intermediate : ∀ id A alt dot l r, (node nodes id).kind = .intermediate A alt dot →
    (node nodes id).span = some ⟨l, r⟩ → ∀ p ∈ childrenOf nodes id,
    IsAlternative g m tokens nodes A alt dot l r p
  nulled : ∀ id A alt dot l, (node nodes id).kind = .nulled A alt dot →
    Covers g m tokens nodes A alt dot l l (childrenOf nodes id)

variable {g m tokens nodes}

/-! ## What the notions depend on -/

variable {nodes' : Arena}

theorem Stands.congr (h : SameHeads nodes nodes') {x : Symbol} {l r : Nat} {id : NodeId}
    (hs : nodes.Stands m tokens x l r id) : nodes'.Stands m tokens x l r id := by
  cases x with
  | terminal t => exact ⟨(h.kind_eq id).trans hs.1, hs.2⟩
  | rule A => exact ⟨(h.kind_eq id).trans hs.1, by rw [h.span_eq]; exact hs.2⟩

theorem Covers.congr (h : SameHeads nodes nodes') {A : RuleId} {alt dot l r : Nat}
    {cs : List NodeId} (hc : Covers g m tokens nodes A alt dot l r cs) :
    Covers g m tokens nodes' A alt dot l r cs := by
  induction hc with
  | done l => exact .done l
  | epsilon hk _ ih => exact .epsilon ((h.kind_eq _).trans hk) ih
  | symbol hx hs _ ih => exact .symbol hx (hs.congr h) ih
  | intermediate hk hs => exact .intermediate ((h.kind_eq _).trans hk) ((h.span_eq _).trans hs)
  | nulled hk => exact .nulled ((h.kind_eq _).trans hk)

/-! ## Trees of sound arenas -/

/-- The trees are derivation trees of the symbols and have the tokens from `l` to `r`. -/
def FitsOver (g : Grammar) (m : TerminalMatcher) (tokens : TokenStream) (xs : List Symbol) (l r : Nat)
    (ts : List Tree) : Prop :=
  l ≤ r ∧ Tree.FitsAll g m ts xs ∧ Tree.leavesOfAll ts = tokens.slice l r

theorem FitsOver.append {xs ys : List Symbol} {l k r : Nat} {ts us : List Tree}
    (h : FitsOver g m tokens xs l k ts) (h' : FitsOver g m tokens ys k r us) :
    FitsOver g m tokens (xs ++ ys) l r (ts ++ us) := by
  obtain ⟨hle, hfits, hleaves⟩ := h
  obtain ⟨hle', hfits', hleaves'⟩ := h'
  refine ⟨Nat.le_trans hle hle', ?_, ?_⟩
  · rw [Tree.fitsAll_iff_forall₂] at *
    exact List.rel_append hfits hfits'
  · rw [Tree.leavesOfAll_append, hleaves, hleaves', tokens.slice_append hle hle']

theorem drop_eq_cons {A : RuleId} {alt dot : Nat} {x : Symbol}
    (hx : (g.alternative A alt).symbols[dot]? = some x) :
    (g.alternative A alt).symbols.drop dot = x :: (g.alternative A alt).symbols.drop (dot + 1) := by
  obtain ⟨hlt, he⟩ := List.getElem?_eq_some_iff.1 hx
  rw [List.drop_eq_getElem_cons hlt, he]

/-- Symbols are stood for by leaves and symbol nodes. -/
theorem Stands.kind_cases {x : Symbol} {l r : Nat} {id : NodeId}
    (h : nodes.Stands m tokens x l r id) :
    (∃ i, (node nodes id).kind = .terminal i) ∨ ∃ A, (node nodes id).kind = .symbol A := by
  cases x with
  | rule A => exact .inr ⟨A, h.1⟩
  | terminal t => exact .inl ⟨l, h.1⟩

/-- What a list of nodes covers is settled by its first node. -/
theorem Covers.cons_cases {A : RuleId} {alt dot l r : Nat} {c : NodeId} {cs : List NodeId}
    (h : Covers g m tokens nodes A alt dot l r (c :: cs)) :
    ((node nodes c).kind = .epsilon ∧ Covers g m tokens nodes A alt dot l r cs) ∨
    (∃ x k, (g.alternative A alt).symbols[dot]? = some x ∧ nodes.Stands m tokens x l k c ∧
      Covers g m tokens nodes A alt (dot + 1) k r cs) ∨
    ((node nodes c).kind = .intermediate A alt dot ∧ (node nodes c).span = some ⟨l, r⟩ ∧ cs = []) ∨
    ((node nodes c).kind = .nulled A alt dot ∧ l = r ∧ cs = []) := by
  cases h with
  | epsilon hk h => exact .inl ⟨hk, h⟩
  | symbol hx hc h => exact .inr (.inl ⟨_, _, hx, hc, h⟩)
  | intermediate hk hs => exact .inr (.inr (.inl ⟨hk, hs, rfl⟩))
  | nulled hk => exact .inr (.inr (.inr ⟨hk, rfl, rfl⟩))

section Inversion

variable {A : RuleId} {alt dot l r : Nat} {c : NodeId} {cs : List NodeId}
  (h : Covers g m tokens nodes A alt dot l r (c :: cs))
include h

theorem Covers.of_epsilon (hk : (node nodes c).kind = .epsilon) :
    Covers g m tokens nodes A alt dot l r cs := by
  rcases h.cons_cases with ⟨-, hc⟩ | ⟨_, _, -, hst, -⟩ | ⟨hk', -⟩ | ⟨hk', -⟩
  · exact hc
  · rcases hst.kind_cases with ⟨_, hk'⟩ | ⟨_, hk'⟩ <;> cases hk.symm.trans hk'
  · cases hk.symm.trans hk'
  · cases hk.symm.trans hk'

theorem Covers.of_nulled {A' : RuleId} {alt' dot' : Nat} (hk : (node nodes c).kind = .nulled A' alt' dot') :
    (node nodes c).kind = .nulled A alt dot ∧ l = r ∧ cs = [] := by
  rcases h.cons_cases with ⟨hk', -⟩ | ⟨_, _, -, hst, -⟩ | ⟨hk', -⟩ | hc
  · cases hk.symm.trans hk'
  · rcases hst.kind_cases with ⟨_, hk'⟩ | ⟨_, hk'⟩ <;> cases hk.symm.trans hk'
  · cases hk.symm.trans hk'
  · exact hc

theorem Covers.of_intermediate {A' : RuleId} {alt' dot' : Nat}
    (hk : (node nodes c).kind = .intermediate A' alt' dot') :
    (node nodes c).kind = .intermediate A alt dot ∧ (node nodes c).span = some ⟨l, r⟩ ∧ cs = [] := by
  rcases h.cons_cases with ⟨hk', -⟩ | ⟨_, _, -, hst, -⟩ | hc | ⟨hk', -⟩
  · cases hk.symm.trans hk'
  · rcases hst.kind_cases with ⟨_, hk'⟩ | ⟨_, hk'⟩ <;> cases hk.symm.trans hk'
  · exact hc
  · cases hk.symm.trans hk'

theorem Covers.of_reads {t : Tree} (ht : nodes.Reads g tokens c t) :
    ∃ x k, (g.alternative A alt).symbols[dot]? = some x ∧ nodes.Stands m tokens x l k c ∧
      Covers g m tokens nodes A alt (dot + 1) k r cs := by
  rcases h.cons_cases with ⟨hk', -⟩ | hc | ⟨hk', -⟩ | ⟨hk', -⟩
  · rcases ht.kind_cases with ⟨_, hk⟩ | ⟨_, hk⟩ <;> cases hk.symm.trans hk'
  · exact hc
  · rcases ht.kind_cases with ⟨_, hk⟩ | ⟨_, hk⟩ <;> cases hk.symm.trans hk'
  · rcases ht.kind_cases with ⟨_, hk⟩ | ⟨_, hk⟩ <;> cases hk.symm.trans hk'

end Inversion

/-- The trees of a sound arena are derivation trees over the tokens that their nodes span. -/
theorem Sound.fits (hs : Sound g m tokens nodes) :
    (∀ id t, nodes.Reads g tokens id t → ∀ x l r, nodes.Stands m tokens x l r id →
      FitsOver g m tokens [x] l r [t]) ∧
    ∀ cs ts, nodes.ReadsAll g tokens cs ts → ∀ A alt dot l r,
      Covers g m tokens nodes A alt dot l r cs →
      FitsOver g m tokens ((g.alternative A alt).symbols.drop dot) l r ts := by
  refine reads_induction ?token ?rule ?nil ?epsilon ?nulled ?intermediate ?tree
  case token =>
    intro id i tok hk htok x l r hx
    cases x with
    | rule A => simp [hx.1] at hk
    | terminal t =>
      obtain ⟨hk', rfl, tok', htok', hmem⟩ := hx
      obtain rfl := NodeKind.terminal.inj (hk.symm.trans hk')
      obtain rfl := Option.some.inj (htok.symm.trans htok')
      exact ⟨Nat.le_succ _, .cons (.token hmem) .nil, (tokens.slice_succ htok).symm⟩
  case rule =>
    intro id p A A' alt children hk hp hpk ih x l r hx
    cases x with
    | terminal t => simp [hx.1] at hk
    | rule B =>
      obtain ⟨hk', hspan⟩ := hx
      obtain rfl := NodeKind.symbol.inj (hk.symm.trans hk')
      obtain ⟨alt', halt, hcov⟩ := hs.symbol id A hk p hp
      obtain ⟨hpk', hcov⟩ := hcov l r hspan
      obtain ⟨-, rfl⟩ := NodeKind.packed.inj (hpk.symm.trans hpk')
      obtain ⟨hle, hfits, hleaves⟩ := ih A alt 0 l r hcov
      refine ⟨hle, .cons (.rule halt hfits) .nil, ?_⟩
      rw [Tree.leavesOfAll, Tree.leaves, Tree.leavesOfAll, List.append_nil, hleaves]
  case nil =>
    intro A alt dot l r hc
    cases hc
    rw [Alternative.length, List.drop_length]
    exact ⟨Nat.le_refl _, .nil, (tokens.slice_self l).symm⟩
  case epsilon =>
    intro c cs ts hk ih A alt dot l r hc
    exact ih A alt dot l r (hc.of_epsilon hk)
  case nulled =>
    intro c cs us ts A' alt' dot' hk ih hrest _ A alt dot l r hc
    obtain ⟨hk', rfl, rfl⟩ := hc.of_nulled hk
    cases hrest
    rw [List.append_nil]
    exact ih A alt dot l l (hs.nulled c A alt dot l hk')
  case intermediate =>
    intro c p cs us ts A' alt' dot' hk hp ih hrest _ A alt dot l r hc
    obtain ⟨hk', hspan, rfl⟩ := hc.of_intermediate hk
    cases hrest
    rw [List.append_nil]
    exact ih A alt dot l r (hs.intermediate c A alt dot l r hk' hspan p hp).2
  case tree =>
    intro c cs t ts h ih ih' A alt dot l r hc
    obtain ⟨x, k, hx, hstands, hc⟩ := hc.of_reads h
    rw [drop_eq_cons hx]
    exact (ih x l k hstands).append (ih' A alt (dot + 1) k r hc)

end Arena

end ParseForest
