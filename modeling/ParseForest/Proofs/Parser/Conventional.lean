import ParseForest.Proofs.Parser.Leaning
import ParseForest.Proofs.Parser.Precedence

/-!
# Operators give the conventional tree

In a parse of operands and operators with precedence, a node of the first rule stands for the clean tree
of the tokens that it spans, if they have one, and for nothing otherwise
(`Engine.Finished.clean_of_reads`). The proof is by induction on the width of the node. When an operator
is judged its operands are settled, and an operand that is kept has an alternative that agrees with the
operator; it need not be the alternative of a tree. But the parts of a clean tree are clean
(`Grammar.IsBinary.exists_clean_of_append`) and no clean tree is lost, so where the operand has a tree,
that alternative has one too, and there is only one. So with the standard settings a parse answers the
conventional tree alone, or an empty forest if there is none (`Parser.groups_operators`).
-/

namespace ParseForest

variable {σ : Type}

namespace Grammar

variable {g : Grammar} {operand : RuleId} {leaf : TerminalId} {m : TerminalMatcher} {t : Tree}

/-- An operator alternative has one rule after its first symbol. -/
theorem IsBinary.splitsOnce (h : g.IsBinary operand leaf) (hg : g.WellFormed) : g.SplitsOnce := by
  intro A a ha _
  rcases h.symbols_cases hg ha with ⟨-, hs⟩ | ⟨-, hs⟩ | ⟨t, -, hs⟩ | ⟨t, hs, -⟩ <;>
  · rw [hs]
    exact Nat.le_of_ble_eq_true rfl

/-- A grouping begins with an operand. -/
theorem Grouping.exists_leaf (h : g.Grouping m operand leaf t) :
    ∃ tok toks, t.leaves = tok :: toks ∧ leaf ∈ m.matching tok := by
  induction h with
  | operand _ _ hleaf => exact ⟨_, _, leaves_operandTree .., hleaf⟩
  | binary _ _ _ _ ih =>
    obtain ⟨tok, toks, hl, hleaf⟩ := ih
    exact ⟨tok, _, by rw [leaves_binaryTree, hl]; rfl, hleaf⟩

/-- A grouping is a tree of the first rule and of no other symbol. -/
theorem Grouping.symbol_eq (h : g.Grouping m operand leaf t) {x : Symbol} (hx : t.Fits g m x) :
    x = .rule g.first := by
  cases hx with
  | token => cases h
  | rule =>
    generalize ht : Tree.rule _ _ _ _ = t at h
    cases h with
    | operand => rw [(Tree.rule.inj ht).2.1]
    | binary => rw [(Tree.rule.inj ht).2.1]

/-- Each of the tokens satisfies one terminal. -/
theorem IsChain.exists_matching {toks : List Token} (h : g.IsChain m leaf toks) :
    ∀ tok ∈ toks, ∃ x, m.matching tok = [x] := by
  induction h with
  | operand h => simpa using ⟨_, h⟩
  | between h _ ht _ ih => simpa using ⟨⟨_, h⟩, ⟨_, ht⟩, ih⟩

/-- The terminal comes after operands. -/
def Closes (g : Grammar) (t : TerminalId) : Prop := t = g.eof ∨ ∃ alt op, g.Between t alt op

end Grammar

/-- An operand may end at the position. -/
def ParseInput.OperandEnds (input : ParseInput σ) (r : Nat) : Prop :=
  ∃ t, input.tokens.Satisfies input.compiled.matcher r t ∧ input.grammar.Closes t

/-- The tokens before the last one are operands and operators. -/
structure ParseInput.IsOperation (input : ParseInput σ) (leaf : TerminalId) (toks : List Token) : Prop where
  chain : input.grammar.IsChain input.compiled.matcher leaf toks
  spans : input.tokens.Spans toks 0 (input.tokens.length - 1)

/-- The tokens of operands and operators satisfy one terminal each. -/
theorem ParseInput.IsOperation.exists_matching {input : ParseInput σ} {leaf : TerminalId}
    {toks : List Token} (h : input.IsOperation leaf toks) {us : List Token} {l r : Nat}
    (hspans : input.tokens.Spans us l r) (hr : r < input.tokens.length) :
    ∀ tok ∈ us, ∃ x, input.compiled.matcher.matching tok = [x] := by
  intro tok htok
  obtain ⟨i, hi⟩ := List.getElem?_of_mem htok
  have hlt : l + i < toks.length := by
    have := (List.getElem?_eq_some_iff.1 hi).1
    have := hspans.2
    have := h.spans.2
    omega
  have hget := h.spans.1 (l + i) _ (List.getElem?_eq_getElem hlt)
  rw [Nat.zero_add, hspans.1 i tok hi] at hget
  rw [Option.some.inj hget]
  exact h.chain.exists_matching _ (List.getElem_mem hlt)

namespace Engine

/-- An operand begins at the position: there is a stack node on which the first rule can be put, and
then the end of input may come. -/
def Begins (input : ParseInput σ) (e : Engine σ) (p : Nat) : Prop :=
  ∃ u < e.stack.nodes.size, (e.stack.node u).level = p ∧
    IsPair input.grammar input.compiled.automaton.states (e.stack.node u).state input.grammar.first ∧
    input.compiled.automaton.Follow input.grammar (e.stack.node u).state input.grammar.first
      (.terminal input.grammar.eof)

variable {input : ParseInput σ} {start : StackId} {e : Engine σ} {operand : RuleId} {leaf : TerminalId}
  {toks : List Token}

namespace Finished

variable (hr : input.Ready) (h : Finished input start input.tokens.length e)
  (hbin : input.grammar.IsBinary operand leaf) (hby : input.ByPrecedence)
include hr h hbin hby

/-! ## Where operands begin -/

omit hbin hby in
theorem begins_zero : e.Begins input 0 := by
  have hg := hr.wellFormed
  have hlr := hr.automaton.isLR0
  obtain ⟨hone, hsym⟩ := hg.alternative_start
  have halt : 0 < (input.grammar.rule input.grammar.start).alternatives.size := by
    rw [hone]
    exact Nat.zero_lt_one
  have hpair : IsPair input.grammar input.compiled.automaton.states Automaton.start
      input.grammar.first := by
    have hlt := h.work.state_lt start h.start_lt
    rw [h.start_state] at hlt
    refine hlr.expects hlt hlr.item_first (x := .rule input.grammar.first) ?_
    rw [Item.next?_eq, hsym]
    rfl
  refine ⟨start, h.start_lt, h.start_level, h.start_state ▸ hpair, ?_⟩
  rw [h.start_state]
  exact Automaton.Ahead.follow (.inl ⟨_, rfl, hg.first_eofRule⟩) (.inr ⟨rfl, rfl⟩) halt (β := []) hsym rfl

/-- After an operand and an operator another operand begins. -/
theorem begins_next {p : Nat} (hp : e.Begins input p) {tok optok : Token}
    (htok : input.tokens.get? p = some tok) (hleaf : leaf ∈ input.compiled.matcher.matching tok)
    (hoptok : input.tokens.get? (p + 1) = some optok) {t : TerminalId} {alt : Nat} {op : Operator}
    (hop : input.grammar.Between t alt op) (ht : t ∈ input.compiled.matcher.matching optok)
    (hnext : input.tokens.Satisfies input.compiled.matcher (p + 2) leaf) : e.Begins input (p + 2) := by
  have hg := hr.wellFormed
  obtain ⟨u, hu, hlu, hpair, hfollow⟩ := hp
  obtain ⟨alt', halt', hs'⟩ := hbin.exists_operand
  have hsym : (input.grammar.alternative input.grammar.first alt).symbols =
      [.rule input.grammar.first, .terminal t] ++ [.rule input.grammar.first] := hop.symbols_eq
  have htree : (input.grammar.operandTree operand alt' tok).Fits input.grammar input.compiled.matcher
      (.rule input.grammar.first) := hbin.fits_iff.2 (.operand halt' hs' hleaf)
  have hspans : input.tokens.Spans (Tree.leavesOfAll
      [input.grammar.operandTree operand alt' tok, .token optok]) p (p + 2) :=
    (TokenStream.spans_singleton htok).append (TokenStream.spans_singleton hoptok)
  have hlt : p + 2 < input.tokens.length := by
    obtain ⟨tok', htok', -⟩ := hnext
    exact (Array.getElem?_eq_some_iff.1 htok').1
  have hfirst : input.grammar.First [.rule input.grammar.first] leaf := by
    refine .rule [] (Grammar.alternative_mem halt') ?_
    rw [hs']
    refine .rule [] (Grammar.alternative_mem (by rw [hbin.size_operand]; exact Nat.zero_lt_one)) ?_
    rw [hbin.symbols_operand]
    exact .terminal leaf []
  obtain ⟨v, hwv, hlv, hpair'⟩ := h.exists_waits hr (hbin.avoidsStart hg)
    (h.tracks_of_spares hr (h.spares_clean hr (hbin.splitsOnce hg) hby)) hu hlu hpair hop.lt_size hsym
    (.cons htree (.cons (.token ht) .nil)) hspans
    ⟨Tree.everywhere_shift _ (hbin.clean_operandTree hg halt' hs'), trivial, trivial⟩ (Nat.le_of_lt hlt)
    hnext hfirst
  refine ⟨v, hwv.lt_size, hlv, hpair', ?_⟩
  exact Automaton.Ahead.follow (.inr ⟨Grammar.nullable_nil, hfollow⟩) hpair hop.lt_size hsym hwv.walk

/-- Operands begin at the tokens of operands. -/
theorem begins_of_chain {p r : Nat} (hchain : input.grammar.IsChain input.compiled.matcher leaf toks)
    (hspans : input.tokens.Spans toks p r) (hp : e.Begins input p) {q : Nat} (hpq : p ≤ q) (hqr : q < r)
    (hq : input.tokens.Satisfies input.compiled.matcher q leaf) : e.Begins input q := by
  induction hchain generalizing p with
  | operand =>
    obtain rfl : r = p + 1 := hspans.2
    obtain rfl : q = p := by omega
    exact hp
  | @between tok optok toks t alt op hleaf hop ht hrest ih =>
    have htok := hspans.get?_of_cons
    have hoptok := hspans.1 1 optok rfl
    obtain ⟨-, hspans⟩ := (@TokenStream.spans_append_iff _ [tok, optok] toks _ _).1 hspans
    rcases Nat.lt_or_ge q (p + 2) with hlt | hge
    · obtain rfl | rfl : q = p ∨ q = p + 1 := by omega
      · exact hp
      · -- an operator is no operand
        obtain ⟨tok', htok', hq⟩ := hq
        obtain rfl := Option.some.inj (hoptok.symm.trans htok')
        rw [ht, List.mem_singleton] at hq
        exact absurd hq.symm (hbin.leaf_ne hr.wellFormed hop)
    · refine ih hspans (h.begins_next hr hbin hby hp htok (by rw [hleaf]; exact .head _) hoptok hop
        (by rw [ht]; exact .head _) ?_) hge
      cases hrest with
      | operand h => exact ⟨_, hspans.get?_of_cons, by rw [h]; exact .head _⟩
      | between h => exact ⟨_, hspans.get?_of_cons, by rw [h]; exact .head _⟩

/-! ## Clean trees -/

/-- A node over the tokens of a clean tree stands for it. -/
theorem reads_of_clean (hops : input.IsOperation leaf toks) {t : Tree} {l r : Nat} {id : NodeId}
    (ht : input.grammar.Grouping input.compiled.matcher operand leaf t) (hclean : t.Clean input.grammar)
    (hspans : input.tokens.Spans t.leaves l r) (hends : input.OperandEnds r)
    (hst : e.nodes.Stands input.compiled.matcher input.tokens (.rule input.grammar.first) l r id) :
    e.nodes.Reads input.grammar input.tokens id t := by
  have hg := hr.wellFormed
  have hf := h.forest.formed
  obtain ⟨tok, rest, hl, hleaf⟩ := ht.exists_leaf
  obtain ⟨t', hsat, hcloses⟩ := hends
  have hrlt : r < input.tokens.length := by
    obtain ⟨tok', htok', -⟩ := hsat
    exact (Array.getElem?_eq_some_iff.1 htok').1
  have hlr : l < r := by
    have := hspans.2
    rw [hl, List.length_cons] at this
    omega
  obtain ⟨u, hu, hlu, hpair, hfollow⟩ := h.begins_of_chain hr hbin hby hops.chain hops.spans
    (h.begins_zero hr) (Nat.zero_le l) (by omega) ⟨tok, (hl ▸ hspans).get?_of_cons, hleaf⟩
  -- what comes after the tree may follow the first rule
  have hfollow' : input.compiled.automaton.Follow input.grammar (e.stack.node u).state
      input.grammar.first (.terminal t') := by
    rcases hcloses with rfl | ⟨alt, op, hop⟩
    · exact hfollow
    · exact Automaton.Ahead.follow (.inl ⟨t', rfl, .terminal t' _⟩) hpair hop.lt_size (β := [])
        hop.symbols_eq rfl
  obtain ⟨q, hq⟩ := hpair.resolve_right fun hstart => (hbin.operand_ne hg).2 hstart.2
  obtain ⟨v, label, hlv, -, hedge, hread⟩ := (h.placed hr (hbin.avoidsStart hg)
    (h.tracks_of_spares hr (h.spares_clean hr (hbin.splitsOnce hg) hby))).1 t _ (hbin.fits_iff.2 ht) l r
    u q hspans (Tree.everywhere_shift t hclean) (Nat.le_of_lt hrlt) hu hlu hq
    fun A hA => ⟨_, mem_lookaheadsAt_iff.2 hsat, Symbol.rule.inj hA ▸ hfollow'⟩
  obtain ⟨-, x, -, hst'⟩ := h.work.labelled v _ hedge
  rw [hlu, hlv] at hst'
  obtain rfl := ht.symbol_eq (hf.backed.spans_of_stands hst' hread).1
  obtain rfl : label = id := hf.stands_unique hr hst' hst
  exact hread

/-- An operator alternative that has been kept has one right-hand side, and neither operand conflicts
with the operator. -/
theorem exists_operands (hprecedence : input.config.precedence = true) {l r : Nat} {id p : NodeId}
    (hst : e.nodes.Stands input.compiled.matcher input.tokens (.rule input.grammar.first) l r id)
    (hp : p ∈ Arena.childrenOf e.nodes id) {A : RuleId} {alt : Nat}
    (hpk : (Arena.node e.nodes p).kind = .packed A alt) {t : TerminalId} {op : Operator}
    (hop : input.grammar.Between t alt op) : ∃ k left mid right,
      e.nodes.Stands input.compiled.matcher input.tokens (.rule input.grammar.first) l k left ∧
      e.nodes.Stands input.compiled.matcher input.tokens (.terminal t) k (k + 1) mid ∧
      e.nodes.Stands input.compiled.matcher input.tokens (.rule input.grammar.first) (k + 1) r right ∧
      e.nodes.Flattens (Arena.childrenOf e.nodes p) [left, mid, right] ∧
      (∀ s, e.nodes.Flattens (Arena.childrenOf e.nodes p) s → s = [left, mid, right]) ∧
      Arena.operandConflicts input.grammar e.nodes op .left left = false ∧
      Arena.operandConflicts input.grammar e.nodes op .right right = false := by
  have hf := h.forest.formed
  have hc : (Arena.node e.nodes id).isChoice = true := by rw [Node.isChoice, hst.1]
  obtain ⟨hindex, hlength⟩ := hop.index_eq hr.wellFormed
  have hspan := hf.span_of_stands hr hbin hst
  obtain ⟨B, alt', dot, children, -, hnode, -⟩ := hf.shaped id _ hc hspan p hp
  obtain ⟨rfl, rfl⟩ : B = A ∧ alt' = alt := by
    rw [hnode] at hpk
    exact NodeKind.packed.inj hpk
  have ha : e.nodes.HasAlternative id B alt' children := ⟨hc, p, hp, hnode⟩
  obtain rfl := hf.rule_eq hst.1 hspan ha
  have hv := hf.valid_of_hasAlternative hst.1 hspan ha
  obtain ⟨s, hs, hagrees⟩ := h.forest.kept (hby.agreed hr hprecedence) id _ _ _ _ hst.1 hspan ha rfl op
    hop.operator_eq (Nat.le_of_eq hlength)
  have hall := hf.standsAll hr hv.holds hs
  rw [hop.symbols_eq] at hall
  obtain _ | ⟨hleft, _ | ⟨hmid, _ | ⟨hright, ⟨⟩⟩⟩⟩ := hall
  obtain ⟨hk, rfl, hsat⟩ := hmid
  have hchildren : Arena.childrenOf e.nodes p = children.toList := by
    rw [Arena.childrenOf, hnode]
    rfl
  rw [hchildren]
  refine ⟨_, _, _, _, hleft, ⟨hk, rfl, hsat⟩, hright, hs, fun s' hs' =>
    hf.flattens_unique hr (hbin.splitsOnce hr.wellFormed) hop.lt_size (by rw [hop.operator_eq]; rfl)
      hv.holds hs' hs, ?_, ?_⟩
  · exact (hagrees (.left, _) (Arena.mem_operands_iff.2
      ⟨0, Operator.place?_left.2 (by rw [hindex]; decide), rfl⟩)).2
  · exact (hagrees (.right, _) (Arena.mem_operands_iff.2
      ⟨2, Operator.place?_right.2 (by rw [hlength, hindex]; decide), rfl⟩)).2

/-- What does not conflict with an operator has no tree that clashes with it, if all its trees are
clean. -/
theorem not_clashes_of_reads (hops : input.IsOperation leaf toks) (hprecedence : input.config.precedence = true)
    {l r : Nat} {id : NodeId} {t : Tree} {outer : Operator} {side : Side}
    (hst : e.nodes.Stands input.compiled.matcher input.tokens (.rule input.grammar.first) l r id)
    (hends : input.OperandEnds r)
    (hclean : ∀ t, e.nodes.Reads input.grammar input.tokens id t → t.Clean input.grammar)
    (hread : e.nodes.Reads input.grammar input.tokens id t)
    (hagrees : Arena.operandConflicts input.grammar e.nodes outer side id = false) :
    ¬ input.grammar.Clashes outer side t := by
  have hg := hr.wellFormed
  have hf := h.forest.formed
  obtain ⟨hfits, hspans⟩ := hf.backed.spans_of_stands hst hread
  have ht := hbin.fits_iff.1 hfits
  have hlt : r < input.tokens.length := by
    obtain ⟨_, ⟨_, htok, -⟩, -⟩ := hends
    exact (Array.getElem?_eq_some_iff.1 htok).1
  have hone := hops.exists_matching hspans hlt
  -- an alternative of the operand agrees with the operator
  obtain ⟨p, hp, B, alt, hpk, hagrees⟩ := Arena.exists_of_operandConflicts_eq_false hst.1 hread hagrees
  obtain ⟨A, alt', dot, children, howns, hnode, hh⟩ := hf.shaped id _ (by rw [Node.isChoice, hst.1])
    (hf.span_of_stands hr hbin hst) p hp
  obtain ⟨rfl, rfl⟩ : A = B ∧ alt' = alt := by
    rw [hnode] at hpk
    exact NodeKind.packed.inj hpk
  obtain ⟨hk, rfl, halt⟩ := howns.1.resolve_right fun hk => by cases hst.1.symm.trans hk
  obtain rfl := NodeKind.symbol.inj (hk.symm.trans hst.1)
  rcases hbin.alternatives alt' halt with hs | ⟨x, op, hop⟩
  · -- an operand of one token has no operator
    have hspells := hf.backed.spells_of_covers (Arena.Holds.covers hr.epsilon hf.base hh)
    rw [hs] at hspells
    have hwidth : r = l + 1 := (hspells.of_terminal hbin.symbols_of_operand).1
    cases ht with
    | operand halt hs _ => exact hbin.not_clashes_operandTree hg halt hs
    | binary _ _ hl _ =>
      obtain ⟨tok, rest, hl, -⟩ := hl.exists_leaf
      have := hspans.2
      simp only [Grammar.leaves_binaryTree, hl, List.length_append, List.length_cons] at this
      omega
  · -- if it is that of an operator, its parts are those of a clean tree
    obtain ⟨k, left, mid, right, hstl, ⟨hmid, -, tok, htok, hx⟩, hstr, hflat, -, -, -⟩ :=
      h.exists_operands hr hbin hby hprecedence hst hp hpk hop
    have hlk := hf.le_of_stands hstl
    have hkr := hf.le_of_stands hstr
    have hspansl := @TokenStream.spans_slice input.tokens _ _ hlk (by omega)
    have hspansr := @TokenStream.spans_slice input.tokens _ _ hkr (Nat.le_of_lt hlt)
    have hleaves := hspans.unique (hspansl.append ((TokenStream.spans_singleton htok).append hspansr))
    obtain ⟨⟨tl, hgl, hcl, hll⟩, tr, hgr, hcr, hlr⟩ := hbin.exists_clean_of_append hg ht (hclean t hread)
      hone hleaves ⟨x, alt', hop, hx⟩
    have hreadl := h.reads_of_clean hr hbin hby hops hgl hcl (hll ▸ hspansl)
      ⟨x, ⟨tok, htok, hx⟩, .inr ⟨alt', op, hop⟩⟩ hstl
    have hreadr := h.reads_of_clean hr hbin hby hops hgr hcr (hlr ▸ hspansr) hends hstr
    have hread' : e.nodes.Reads input.grammar input.tokens id
        (input.grammar.binaryTree alt' tl tok tr) := .rule hst.1 hp hpk
      (hflat.readsAll (.cons hreadl (.cons (.token hmid htok) (.cons hreadr .nil))))
    -- and there is only one
    obtain rfl := hbin.clean_unique hg ht (.binary hop hx hgl hgr) (hclean t hread) (hclean _ hread') hone
      (by rw [Grammar.leaves_binaryTree, hll, hlr, hleaves]; rfl)
    exact mt Grammar.clashes_iff_alternativeConflicts.1 (Bool.eq_false_iff.1 hagrees)

/-- All trees of a node of the first rule are clean. -/
theorem clean_of_reads (hops : input.IsOperation leaf toks) (hprecedence : input.config.precedence = true)
    {l r : Nat} {id : NodeId} {t : Tree}
    (hst : e.nodes.Stands input.compiled.matcher input.tokens (.rule input.grammar.first) l r id)
    (hends : input.OperandEnds r) (hread : e.nodes.Reads input.grammar input.tokens id t) :
    t.Clean input.grammar := by
  have hg := hr.wellFormed
  have hf := h.forest.formed
  induction hw : r - l using Nat.strongRecOn generalizing l r id t with
  | ind w ih =>
    have ht := hbin.fits_iff.1 (hf.backed.spans_of_stands hst hread).1
    generalize htree : t = t' at ht
    cases ht with
    | operand halt hs _ => exact htree ▸ hbin.clean_operandTree hg halt hs
    | @binary x alt op tl tr optok hop hx _ _ =>
      subst htree
      obtain ⟨p, hp, B, hpk, hts⟩ := hread.exists_alternative
      obtain ⟨k, left, mid, right, hstl, hstm, hstr, -, hunique, hagreesl, hagreesr⟩ :=
        h.exists_operands hr hbin hby hprecedence hst hp hpk hop
      obtain ⟨s, hs, hall⟩ := hts.exists_flattens (hf.nulledRules hr)
      obtain rfl := hunique s hs
      obtain _ | ⟨hreadl, _ | ⟨-, _ | ⟨hreadr, ⟨⟩⟩⟩⟩ := hall
      have hlk := hf.le_of_stands hstl
      have hkr := hf.le_of_stands hstr
      have hendsl : input.OperandEnds k := ⟨x, hstm.2.2, .inr ⟨alt, op, hop⟩⟩
      have hcleanl : ∀ t, e.nodes.Reads input.grammar input.tokens left t → t.Clean input.grammar :=
        fun t ht => ih (k - l) (by omega) hstl hendsl ht rfl
      have hcleanr : ∀ t, e.nodes.Reads input.grammar input.tokens right t → t.Clean input.grammar :=
        fun t ht => ih (r - (k + 1)) (by omega) hstr hends ht rfl
      exact (hop.clean_iff hg).2 ⟨⟨
        h.not_clashes_of_reads hr hbin hby hops hprecedence hstl hendsl hcleanl hreadl hagreesl,
        h.not_clashes_of_reads hr hbin hby hops hprecedence hstr hends hcleanr hreadr hagreesr⟩,
        hcleanl _ hreadl, hcleanr _ hreadr⟩

end Finished

/-! ## Runs -/

section

variable {root : NodeId} {user : σ} {last : Token} (hr : input.Ready)
  (hbin : input.grammar.IsBinary operand leaf) (ht : input.tokens.EndsOnce) (hend : input.EndsWith last)
include hr ht

/-- A root that stands for one tree makes a forest with this tree alone, if the passes have left it. -/
theorem Arrives.trees_eq_singleton (h : Arrives input user e root) (hcyclic : ¬ input.grammar.Cyclic)
    {nodes : Arena} (htrimmed : TrimmedTo input e root nodes) {t : Tree}
    (hread : nodes.Reads input.grammar input.tokens root t)
    (hone : ∀ t', e.nodes.Reads input.grammar input.tokens root t' → t' = t) {f : Forest}
    (hf : f = ⟨passed input e root, root, input.tokens, input.grammar, e.stats⟩) :
    f.treeCount = 1 ∧ f.trees = [t] := by
  subst hf
  have hformed := h.formed hr
  obtain ⟨rank, hrank⟩ := hformed.exists_ranked hr.epsilon hr.wellFormed hcyclic
  have hrestacks := h.restacks hr htrimmed hrank
  have hsub := h.allReadings_sublist hr htrimmed hcyclic
  have htrims := htrimmed.1
  have hl := h.layered hr
  have hk := (h.stands hr ht).1
  -- the list of the root is without repetitions, and has nothing but the tree
  have hmem : ∀ ts ∈ (passed input e root).allReadings input.grammar input.tokens root, ts = [t] := by
    intro ts hts
    have hts := hsub.subset hts
    obtain ⟨p, -, B, alt, us, -, -, rfl⟩ := (Arena.mem_readings_symbol_iff hl hk).1 hts
    rw [hone _ ((Arena.mem_allReadings_iff hrank hl (.inr ⟨_, hk⟩)).1 hts)]
  have hnodup : ((passed input e root).allReadings input.grammar input.tokens root).Nodup :=
    hsub.nodup (hformed.nodup_readings hr (h.distinct hr) _ root)
  have hleft : [t] ∈ (passed input e root).allReadings input.grammar input.tokens root := by
    rw [hrestacks.readings]
    exact (Arena.mem_allReadings_iff (hrank.trims htrims) (hl.trims htrims)
      (.inr ⟨_, (htrims.kind_eq root).trans hk⟩)).2 hread
  have hall : (passed input e root).allReadings input.grammar input.tokens root = [[t]] := by
    have hrep := List.eq_replicate_of_mem hmem
    rw [hrep, List.nodup_replicate] at hnodup
    rw [hrep, Nat.le_antisymm hnodup (List.length_pos_of_mem hleft)]
    rfl
  have hk' := (hrestacks.kind_eq root).trans ((htrims.kind_eq root).trans hk)
  have hleaf : ∀ id i, (Arena.node (passed input e root) id).kind = .terminal i →
      i < input.tokens.length := fun id i hid => hformed.lt_length_of_terminal
    ((htrims.kind_eq id).symm.trans ((hrestacks.kind_eq id).symm.trans hid))
  have hcount := @Forest.treeCount_eq ⟨passed input e root, root, input.tokens, input.grammar, e.stats⟩
    rank hrestacks.ranked hrestacks.layered hleaf _ hk'
  have hmap := @Forest.map_trees_eq ⟨passed input e root, root, input.tokens, input.grammar, e.stats⟩
    rank hrestacks.ranked hrestacks.layered hleaf _ hk'
  dsimp only at hcount hmap
  rw [hall] at hcount hmap
  have hinj : Function.Injective fun t : Tree => [t] := fun _ _ heq => (List.cons.inj heq).1
  exact ⟨hcount, hinj.list_map (hmap (show 1 ≤ countLimit by decide))⟩

include hbin hend

/-- Where operands and operators are parsed, the root stands for clean trees only. -/
theorem Arrives.clean_of_reads (h : Arrives input user e root) (hby : input.ByPrecedence)
    (hops : input.IsOperation leaf toks) (hprecedence : input.config.precedence = true) {t : Tree}
    (hread : e.nodes.Reads input.grammar input.tokens root t) : t.Clean input.grammar := by
  cases h with
  | blank hb _ =>
    have hlength := hops.spans.2
    rw [length_of_isBlank ht hb] at hlength
    have hnil : toks = [] := List.length_eq_zero_iff.1 (by omega)
    have hchain := hops.chain
    rw [hnil] at hchain
    cases hchain
  | levels _ hf hroot _ =>
    exact hf.clean_of_reads hr hbin hby hops hprecedence (hf.stands_root hr hroot)
      ⟨_, ⟨last, hend.1, hend.2⟩, .inl rfl⟩ hread

/-- Where operands and operators have no clean tree, a parse answers an empty forest, unless a limit of the
stack is reached. -/
theorem run_of_unclean (hby : input.ByPrecedence) (hops : input.IsOperation leaf toks)
    (hprecedence : input.config.precedence = true) (htransforms : input.config.transforms = true)
    (hlength : input.tokens.length < GraphStack.idLimit)
    (hstack : ∀ limit, (run input user).1 ≠ .error (.stackLimit limit))
    (hnone : ∀ t, input.IsParse t → ¬ t.Clean input.grammar) :
    (run input user).1 = .error .emptyForest := by
  have hg := hr.wellFormed
  have hs := hbin.avoidsStart hg
  have hcyclic := hbin.not_cyclic hg
  -- the grouping that leans to the right leads the parse to its end
  obtain ⟨t, hgroup, rfl, hleans⟩ := hbin.exists_leansRight hg hops.chain
  have hgoodEnd : (input.endTree last).Everywhere (fun _ => input.grammar.LeansRight)
      (input.tokens.length - 1) := by
    refine ⟨fun i t hi _ hoperation => ?_, trivial, trivial⟩
    obtain rfl := List.mem_singleton.1 (List.mem_of_getElem? hi)
    exact hoperation
  rcases run_arrives_or_empty hr hs ⟨hbin.fits_iff.2 hgroup, hops.spans⟩ hleans hend hgoodEnd
    (fun _ _ _ hf => ⟨_, hf.tracks_leansRight hr hbin hby⟩) ht user with
    ⟨e, root, harr, hrun⟩ | ⟨-, hrun⟩ | hlong | ⟨limit, hlimit⟩
  · rw [hrun, finish_eq]
    split
    · rfl
    · -- a root that is left would have a tree, which would be clean
      rename_i hleft
      have hchildren :=
        ((harr.finish_eq_ok_iff hr ht).1 ((finish_eq _ _ _).trans (if_neg hleft))).2 htransforms
      obtain ⟨-, hne⟩ := harr.trees_ne_nil hr ht hcyclic (.inl htransforms) hchildren rfl
      obtain ⟨t', hmem⟩ := List.exists_mem_of_ne_nil _ hne
      obtain ⟨nodes, htrimmed, -⟩ := harr.exists_trimmedTo hr (hbin.splitsOnce hg) hby
      have hread := harr.reads_of_passed hr ht htrimmed hcyclic (Forest.reads_of_mem_firstTrees hmem)
      obtain ⟨hfits, hspans⟩ := (harr.formed hr).backed.spans_of_stands (harr.stands hr ht) hread
      exact absurd (harr.clean_of_reads hr hbin ht hend hby hops hprecedence hread)
        (hnone t' ⟨hfits, hspans⟩)
  · exact hrun
  · exact absurd hlong (Nat.not_le.2 hlength)
  · exact absurd hlimit (hstack limit)

end

end Engine

/-! ## An example -/

namespace Grammar

/-- Calls for the grammar of sums, products and comparisons of integers. -/
def comparisonsBuilder : GrammarBuilder :=
  let here : Location := ⟨1, 1⟩
  let b := (((GrammarBuilder.new.declareClass "int" "[0-9]+").internRule "expression" .normal).2.mention
    "Token-int" here).2
  let b := ((b.literal "<").2.annotate 0 (some 1) (some .none) here).2
  let b := ((b.literal "+").2.annotate 1 (some 2) (some .left) here).2
  let b := ((b.literal "*").2.annotate 2 (some 3) (some .left) here).2
  b |>.addAlternative 2 [.rule 2, .terminal 0, .rule 2]
    |>.addAlternative 2 [.rule 2, .terminal 1, .rule 2]
    |>.addAlternative 2 [.rule 2, .terminal 2, .rule 2]
    |>.addAlternative 2 [.rule 3]

/-- The grammar. Products bind tighter than sums, and sums tighter than comparisons, which have no grouping. -/
def comparisons : Grammar where
  rules := #[⟨startRuleName, .start, #[⟨[.rule 2, .rule 1], 2, none⟩], false⟩,
    ⟨"Token-EOF", .tokenClass, #[⟨[.terminal 3], 1, none⟩], false⟩,
    ⟨"expression", .normal, #[⟨[.rule 2, .terminal 0, .rule 2], 3, some ⟨1, 1, .none⟩⟩,
      ⟨[.rule 2, .terminal 1, .rule 2], 3, some ⟨1, 2, .left⟩⟩,
      ⟨[.rule 2, .terminal 2, .rule 2], 3, some ⟨1, 3, .left⟩⟩, ⟨[.rule 3], 1, none⟩], false⟩,
    ⟨"Token-int", .tokenClass, #[⟨[.terminal 4], 1, none⟩], false⟩]
  terminals := #[.literal ⟨"<", some 1, .none⟩, .literal ⟨"+", some 2, .left⟩, .literal ⟨"*", some 3, .left⟩,
    .ofClass eofClass "", .ofClass "int" "[0-9]+"]
  start := 0
  first := 2
  eofRule := 1
  eof := 3

theorem comparisons_built : comparisons.Built := by
  refine ⟨comparisonsBuilder, ?_, by decide +kernel⟩
  have h := ((GrammarBuilder.Made.new.declareClass "int" "[0-9]+").internRule "expression" .normal).mention
    "Token-int" ⟨1, 1⟩
  have h := (h.literal "<").annotate 0 (some 1) (some .none) ⟨1, 1⟩
  have h := (h.literal "+").annotate 1 (some 2) (some .left) ⟨1, 1⟩
  have h := (h.literal "*").annotate 2 (some 3) (some .left) ⟨1, 1⟩
  refine (((h.addAlternative 2 _ fun t ht => ?_).addAlternative 2 _ fun t ht => ?_).addAlternative 2 _
    fun t ht => ?_).addAlternative 2 _ fun t ht => ?_
  · obtain rfl : t = 0 := by simpa using ht
    decide +kernel
  · obtain rfl : t = 1 := by simpa using ht
    decide +kernel
  · obtain rfl : t = 2 := by simpa using ht
    decide +kernel
  · simp at ht

/-- The operators of comparisons, by their numbers. -/
theorem comparisons_between {t : TerminalId} {alt : Nat} {op : Operator} : comparisons.Between t alt op ↔
    alt = t ∧ [⟨1, 1, .none⟩, ⟨1, 2, .left⟩, ⟨1, 3, .left⟩][t]? = some op := by
  constructor
  · rintro ⟨hlt, hs, hop⟩
    have hlt : alt < 4 := hlt
    obtain rfl | rfl | rfl | rfl : alt = 0 ∨ alt = 1 ∨ alt = 2 ∨ alt = 3 := by omega
    · have hs : [Symbol.rule 2, .terminal 0, .rule 2] = [.rule 2, .terminal t, .rule 2] := hs
      obtain rfl : 0 = t := by simpa using hs
      exact ⟨rfl, hop⟩
    · have hs : [Symbol.rule 2, .terminal 1, .rule 2] = [.rule 2, .terminal t, .rule 2] := hs
      obtain rfl : 1 = t := by simpa using hs
      exact ⟨rfl, hop⟩
    · have hs : [Symbol.rule 2, .terminal 2, .rule 2] = [.rule 2, .terminal t, .rule 2] := hs
      obtain rfl : 2 = t := by simpa using hs
      exact ⟨rfl, hop⟩
    · cases hop
  · rintro ⟨rfl, hop⟩
    obtain rfl | rfl | rfl | hlt : alt = 0 ∨ alt = 1 ∨ alt = 2 ∨ 3 ≤ alt := by omega
    · exact ⟨by decide, rfl, hop⟩
    · exact ⟨by decide, rfl, hop⟩
    · exact ⟨by decide, rfl, hop⟩
    · rw [List.getElem?_eq_none hlt] at hop
      cases hop

theorem comparisons_isBinary : comparisons.IsBinary 3 4 where
  exists_operand := ⟨3, by decide, rfl⟩
  alternatives alt halt := by
    have halt : alt < 4 := halt
    obtain hlt | rfl : alt < 3 ∨ alt = 3 := by omega
    · exact .inr ⟨alt, _, comparisons_between.2 ⟨rfl, List.getElem?_eq_getElem hlt⟩⟩
    · exact .inl rfl
  distinct := by decide
  associativity_eq {t alt op t' alt' op'} h h' hp := by
    have hmem := List.mem_of_getElem? (comparisons_between.1 h).2
    have hmem' := List.mem_of_getElem? (comparisons_between.1 h').2
    have hall : ∀ op ∈ [(⟨1, 1, .none⟩ : Operator), ⟨1, 2, .left⟩, ⟨1, 3, .left⟩],
      ∀ op' ∈ [(⟨1, 1, .none⟩ : Operator), ⟨1, 2, .left⟩, ⟨1, 3, .left⟩],
        op.precedence = op'.precedence → op.associativity = op'.associativity := by decide
    exact hall op hmem op' hmem' hp
  size_operand := rfl
  symbols_operand := rfl
  classes A hstart hfirst a ha := by
    have hcases : ∀ A, ∀ a ∈ (comparisons.rule A).alternatives, A = 0 ∨ A = 2 ∨
        a.symbols = [.terminal 3] ∨ a.symbols = [.terminal 4] := forall_alternatives_of_lt (by decide)
    rcases hcases A a ha with rfl | rfl | hs | hs
    · exact absurd rfl hstart
    · exact absurd rfl hfirst
    · exact ⟨3, _, _, hs, rfl⟩
    · exact ⟨4, _, _, hs, rfl⟩

end Grammar

/-- What is tested for the terminals of comparisons. -/
def TerminalMatcher.comparisons : TerminalMatcher :=
  ⟨#[.text "<", .text "+", .text "*", .never, .className "int"], 3⟩

/-- The grammar of comparisons compiles. -/
theorem CompiledGrammar.exists_comparisons : ∃ c, CompiledGrammar.ofGrammar .comparisons .empty = .ok c ∧
    c.matcher = .comparisons ∧ c.automaton.states.size = 12 := by
  obtain ⟨c, hc, hm, hsize⟩ := exists_ofGrammar Grammar.comparisons_built
    (m := .comparisons) (by cbv) rfl
  exact ⟨c, hc, hm, hsize.trans (by cbv)⟩

/-- Signs between integers. -/
def Token.times : Token := ⟨"*", "*", ⟨1, 2, 1, 1⟩⟩

def Token.less : Token := ⟨"<", "<", ⟨1, 2, 1, 1⟩⟩

/-- The tree of an expression that is a single integer. -/
def Tree.integer : Tree := .rule "expression" 2 3 [.rule "Token-int" 3 0 [.token .one]]

/-- The tree of a sign between two expressions. -/
def Tree.operation (alt : Nat) (l : Tree) (sign : Token) (r : Tree) : Tree :=
  .rule "expression" 2 alt [l, .token sign, r]

namespace Grammar

theorem comparisons_less : comparisons.Between 0 0 ⟨1, 1, .none⟩ := comparisons_between.2 ⟨rfl, rfl⟩

theorem comparisons_plus : comparisons.Between 1 1 ⟨1, 2, .left⟩ := comparisons_between.2 ⟨rfl, rfl⟩

theorem comparisons_times : comparisons.Between 2 2 ⟨1, 3, .left⟩ := comparisons_between.2 ⟨rfl, rfl⟩

theorem integer_grouping : comparisons.Grouping .comparisons 3 4 .integer :=
  .operand (by decide) rfl (by decide)

theorem integer_clean : Tree.integer.Clean .comparisons ∧
    ∀ op side, ¬ comparisons.Clashes op side .integer :=
  have hg := comparisons_built.wellFormed
  ⟨comparisons_isBinary.clean_operandTree hg (by decide) rfl, fun _ _ =>
    comparisons_isBinary.not_clashes_operandTree hg (by decide) rfl⟩

/-- A product may stand on the right of a sum. -/
theorem isCleanParse_plus_times : comparisons.IsCleanParse .comparisons [.one, .plus, .one, .times, .one]
    (.operation 1 .integer .plus (.operation 2 .integer .times .integer)) := by
  have hg := comparisons_built.wellFormed
  obtain ⟨hclean, hnot⟩ := integer_clean
  have hproduct : ¬ comparisons.Clashes ⟨1, 2, .left⟩ .right (.operation 2 .integer .times .integer) :=
    mt (comparisons_times.clashes_iff hg).1 (by decide)
  refine ⟨comparisons_isBinary.fits_iff.2 (.binary comparisons_plus (by decide) integer_grouping
    (.binary comparisons_times (by decide) integer_grouping integer_grouping)), rfl, ?_⟩
  exact (comparisons_plus.clean_iff hg).2 ⟨⟨hnot _ _, hproduct⟩, hclean,
    (comparisons_times.clean_iff hg).2 ⟨⟨hnot _ _, hnot _ _⟩, hclean, hclean⟩⟩

/-- A sum may stand on the left of a sum. -/
theorem isCleanParse_plus_plus : comparisons.IsCleanParse .comparisons [.one, .plus, .one, .plus, .one]
    (.operation 1 (.operation 1 .integer .plus .integer) .plus .integer) := by
  have hg := comparisons_built.wellFormed
  obtain ⟨hclean, hnot⟩ := integer_clean
  have hsum : ¬ comparisons.Clashes ⟨1, 2, .left⟩ .left (.operation 1 .integer .plus .integer) :=
    mt (comparisons_plus.clashes_iff hg).1 (by decide)
  refine ⟨comparisons_isBinary.fits_iff.2 (.binary comparisons_plus (by decide)
    (.binary comparisons_plus (by decide) integer_grouping integer_grouping) integer_grouping), rfl, ?_⟩
  exact (comparisons_plus.clean_iff hg).2 ⟨⟨hsum, hnot _ _⟩,
    (comparisons_plus.clean_iff hg).2 ⟨⟨hnot _ _, hnot _ _⟩, hclean, hclean⟩, hclean⟩

/-- A comparison may stand on neither side of a comparison. -/
theorem not_isCleanParse_less_less (t : Tree) :
    ¬ comparisons.IsCleanParse .comparisons [.one, .less, .one, .less, .one] t := by
  rintro ⟨hfits, hleaves, hclean⟩
  have hg := comparisons_built.wellFormed
  have hless : TerminalMatcher.comparisons.matching .less = [0] := by decide
  have hone : TerminalMatcher.comparisons.matching .one = [4] := by decide
  have hcases : ∀ tok ∈ [Token.one, .less, .one, .less, .one], tok = .one ∨ tok = .less := by
    simp
  have hmatch : ∀ tok ∈ [Token.one, .less, .one, .less, .one],
      ∃ x, TerminalMatcher.comparisons.matching tok = [x] := fun tok hmem =>
    (hcases tok hmem).elim (fun h => ⟨4, h ▸ hone⟩) fun h => ⟨0, h ▸ hless⟩
  cases comparisons_isBinary.fits_iff.1 hfits with
  | operand => cases hleaves
  | @binary x alt op l r sign hop hx hl hr =>
    have hsplit : l.leaves ++ sign :: r.leaves = [.one, .less, .one, .less, .one] := by
      rwa [leaves_binaryTree] at hleaves
    obtain ⟨hloosel, hlooser⟩ :=
      comparisons_isBinary.tooLoose_of_clean hg hop hl hr hclean (hsplit ▸ hmatch)
    -- the tree is that of one of the comparisons, and the other one is in an operand
    obtain rfl : sign = .less := by
      refine (hcases sign (hsplit ▸ List.mem_append_right _ (.head _))).resolve_left ?_
      rintro rfl
      exact comparisons_isBinary.not_isOperator hg ⟨4, hone⟩ (by decide) ⟨x, alt, hop, hx⟩
    obtain ⟨-, rfl⟩ := comparisons_isBinary.between_unique ⟨0, hless⟩ comparisons_less (by decide) hop hx
    have hop' : comparisons.IsOperator .comparisons .less ⟨1, 1, .none⟩ :=
      ⟨0, 0, comparisons_less, by decide⟩
    have hcount := congrArg (List.count Token.less) hsplit
    rw [List.count_append, List.count_cons_self,
      show List.count Token.less [.one, .less, .one, .less, .one] = 2 by decide] at hcount
    obtain hpos | hpos : 0 < l.leaves.count .less ∨ 0 < r.leaves.count .less := by omega
    · exact absurd (hloosel _ (List.count_pos_iff.1 hpos) _ hop') (by decide)
    · exact absurd (hlooser _ (List.count_pos_iff.1 hpos) _ hop') (by decide)

end Grammar

namespace Parser

variable {g : Grammar} {operand : RuleId} {leaf : TerminalId} {lexer : LexerDescription}
  {c : CompiledGrammar} {tokens : TokenStream} {s : σ}

/-- With the standard settings operands and operators are grouped in the conventional way: there is at most
one clean tree, and a parse answers it and nothing else, or an empty forest if there is none. -/
theorem groups_operators (hg : g.Built) (hbin : g.IsBinary operand leaf)
    (hc : CompiledGrammar.ofGrammar g lexer = .ok c) (ht : tokens.EndsOnce)
    (hchain : g.IsChain c.matcher leaf tokens.content)
    (hlimits : WithinLimits ⟨c, .standard, []⟩ tokens s) :
    (∀ t t', g.IsCleanParse c.matcher tokens.content t → g.IsCleanParse c.matcher tokens.content t' →
      t = t') ∧
    (∀ t, g.IsCleanParse c.matcher tokens.content t →
      ∃ f, (parseTokens ⟨c, .standard, []⟩ tokens s).1 = .ok f ∧ f.treeCount = 1 ∧ f.trees = [t]) ∧
    ((¬ ∃ t, g.IsCleanParse c.matcher tokens.content t) →
      (parseTokens ⟨c, .standard, []⟩ tokens s).1 = .error .emptyForest) := by
  obtain ⟨rfl, -⟩ := CompiledGrammar.parts_of_ofGrammar hc
  obtain ⟨hlength, hstack⟩ := hlimits
  have hwf := hg.wellFormed
  have hcyclic := hbin.not_cyclic hwf
  have hs := hbin.avoidsStart hwf
  have hsplits := hbin.splitsOnce hwf
  have hr := CompiledGrammar.ready hg hc .standard ([] : List (Disambiguator σ)) tokens
  have hby : ParseInput.ByPrecedence ⟨c, .standard, ([] : List (Disambiguator σ)), tokens⟩ := by
    refine ⟨rfl, fun _ A => Bool.eq_false_iff.2 fun hnull => ?_⟩
    exact hbin.not_nullable hwf A ((hwf.isNullable_iff A).1 hnull)
  obtain ⟨last, hend⟩ := CompiledGrammar.endsWith hc ht .standard ([] : List (Disambiguator σ))
  have hops : ParseInput.IsOperation ⟨c, .standard, ([] : List (Disambiguator σ)), tokens⟩ leaf
      tokens.content := ⟨hchain, TokenStream.spans_slice (Nat.zero_le _) (Nat.sub_le _ _)⟩
  have hunique : ∀ t t', c.grammar.IsCleanParse c.matcher tokens.content t →
      c.grammar.IsCleanParse c.matcher tokens.content t' → t = t' := fun t t' h h' =>
    hbin.clean_unique hwf (hbin.fits_iff.1 h'.fits) (hbin.fits_iff.1 h.fits) h'.clean h.clean
      (h'.leaves_eq ▸ hchain.exists_matching) (h.leaves_eq.trans h'.leaves_eq.symm)
  -- what the root stands for is clean
  have hparse : ∀ {e root t}, Engine.Arrives ⟨c, .standard, ([] : List (Disambiguator σ)), tokens⟩ s e root →
      e.nodes.Reads c.grammar tokens root t → c.grammar.IsCleanParse c.matcher tokens.content t := by
    intro e root t harr hread
    obtain ⟨hfits, hspans⟩ := (harr.formed hr).backed.spans_of_stands (harr.stands hr ht) hread
    obtain ⟨hfits, hleaves⟩ := ParseInput.isParse_iff.1 ⟨hfits, hspans⟩
    exact ⟨hfits, hleaves, harr.clean_of_reads hr hbin ht hend hby hops rfl hread⟩
  rw [parseTokens, ht.ensureEof_eq] at hstack ⊢
  refine ⟨hunique, fun t hclean => ?_, fun hnone => ?_⟩
  · obtain ⟨e, root, harr, hrun, hreads⟩ := Engine.run_of_clean hr hs hsplits hby ht hend hlength hstack
      (ParseInput.isParse_iff.2 ⟨hclean.fits, hclean.leaves_eq⟩) hclean.clean
    obtain ⟨nodes, htrimmed, hkept⟩ := harr.exists_trimmedTo hr hsplits hby
    have hread := hreads t (ParseInput.isParse_iff.2 ⟨hclean.fits, hclean.leaves_eq⟩) hclean.clean
    exact ⟨_, hrun, harr.trees_eq_singleton hr ht hcyclic htrimmed (hkept root t hread hclean.clean)
      (fun t' hread' => hunique t' t (hparse harr hread') hclean) rfl⟩
  · exact Engine.run_of_unclean hr hbin ht hend hby hops rfl rfl hlength hstack fun t hparse hclean =>
      hnone ⟨t, hparse.fits, (ParseInput.isParse_iff.1 hparse).2, hclean⟩

/-- Products bind tighter than sums, sums are grouped to the left, and comparisons cannot be grouped. -/
theorem groups_operators_comparisons : ∃ c, CompiledGrammar.ofGrammar .comparisons .empty = .ok c ∧
    (∃ f, (parseTokens ⟨c, .standard, ([] : List (Disambiguator Unit))⟩
        (.ofTokens [.one, .plus, .one, .times, .one]) ()).1 = .ok f ∧ f.treeCount = 1 ∧
      f.trees = [.operation 1 .integer .plus (.operation 2 .integer .times .integer)]) ∧
    (∃ f, (parseTokens ⟨c, .standard, ([] : List (Disambiguator Unit))⟩
        (.ofTokens [.one, .plus, .one, .plus, .one]) ()).1 = .ok f ∧ f.treeCount = 1 ∧
      f.trees = [.operation 1 (.operation 1 .integer .plus .integer) .plus .integer]) ∧
    (parseTokens ⟨c, .standard, ([] : List (Disambiguator Unit))⟩
      (.ofTokens [.one, .less, .one, .less, .one]) ()).1 = .error .emptyForest := by
  obtain ⟨c, hc, hm, hsize⟩ := CompiledGrammar.exists_comparisons
  have hbuilt := Grammar.comparisons_built
  have hbin := Grammar.comparisons_isBinary
  have hone : TerminalMatcher.comparisons.matching .one = [4] := by decide
  have hlimits : ∀ tokens : TokenStream, tokens.EndsOnce → tokens.length = 6 →
      WithinLimits ⟨c, .standard, ([] : List (Disambiguator Unit))⟩ tokens () := fun tokens ht hlength => by
    refine withinLimits_of_le hbuilt hc ht ?_ ?_ <;> rw [hlength, hsize] <;> decide
  refine ⟨c, hc, ?_, ?_, ?_⟩
  · obtain ⟨ht, hcontent, hlength⟩ :=
      @TokenStream.endsOnce_ofTokens [.one, .plus, .one, .times, .one] (by decide)
    refine (groups_operators hbuilt hbin hc ht ?_ (hlimits _ ht hlength)).2.1 _ ?_ <;> rw [hm, hcontent]
    · exact .between hone Grammar.comparisons_plus (by decide)
        (.between hone Grammar.comparisons_times (by decide) (.operand hone))
    · exact Grammar.isCleanParse_plus_times
  · obtain ⟨ht, hcontent, hlength⟩ :=
      @TokenStream.endsOnce_ofTokens [.one, .plus, .one, .plus, .one] (by decide)
    refine (groups_operators hbuilt hbin hc ht ?_ (hlimits _ ht hlength)).2.1 _ ?_ <;> rw [hm, hcontent]
    · exact .between hone Grammar.comparisons_plus (by decide)
        (.between hone Grammar.comparisons_plus (by decide) (.operand hone))
    · exact Grammar.isCleanParse_plus_plus
  · obtain ⟨ht, hcontent, hlength⟩ :=
      @TokenStream.endsOnce_ofTokens [.one, .less, .one, .less, .one] (by decide)
    refine (groups_operators hbuilt hbin hc ht ?_ (hlimits _ ht hlength)).2.2 ?_ <;> rw [hm, hcontent]
    · exact .between hone Grammar.comparisons_less (by decide)
        (.between hone Grammar.comparisons_less (by decide) (.operand hone))
    · rintro ⟨t, ht⟩
      exact Grammar.not_isCleanParse_less_less t ht

end Parser

end ParseForest
