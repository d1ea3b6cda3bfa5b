import ParseForest.Proofs.Forest.Resolving
import ParseForest.Proofs.Parser.Existence
import ParseForest.Proofs.Parser.Once

/-!
# What precedence turns down

Precedence looks at the operands of an operator when they have all the derivations that they will get
(`Deferred.Valid.frozen_operand`), so what it finds stays so. Where an operator alternative has one
right-hand side (`Grammar.SplitsOnce`), a derivation that is turned down has an operand of which every
derivation clashes with the operator, or none (`ParseInput.ByPrecedence.overruled`). Either way it has
no clean tree (`Engine.Finished.spares_clean`).
-/

namespace ParseForest

variable {σ : Type} {input : ParseInput σ} {nodes nodes' : Arena}

/-- After its first symbol an alternative with an operator has at most one rule. So where the first
symbol ends settles where all others do. -/
def Grammar.SplitsOnce (g : Grammar) : Prop := ∀ A, ∀ a ∈ (g.rule A).alternatives,
  a.operator.isSome = true → ((a.symbols.drop 1).filterMap Symbol.rule?).length ≤ 1

/-! ## Right-hand sides -/

namespace ParseInput.Formed

variable (h : input.Formed nodes) (hr : input.Ready)
include h hr

/-- What derives a part of a right-hand side from nothing holds the fragments of rules. -/
theorem nulledRules : nodes.NulledRules := by
  intro id A alt dot hk c hc
  have hε := hr.epsilon
  have hlt := h.lt_of_nulled hk
  rw [Arena.childrenOf, h.fragment id hlt] at hc
  rw [h.fragment id hlt] at hk
  have h0 : id ≠ 0 := by
    rintro rfl
    rw [hε.epsilon] at hk
    cases hk
  rcases hε.kinds id hlt h0 with ⟨B, hB⟩ | ⟨B, alt', he⟩ | ⟨B, alt', dot', hdot, he⟩
  · cases hk.symm.trans (hε.symbol B id hB).2.1
  · rw [he] at hk
    cases hk
  · obtain ⟨hpos, hlength, hle⟩ := EpsilonForest.mem_tailStarts_iff.1 hdot
    rw [he] at hc
    obtain ⟨x, hx, rfl⟩ := List.mem_map.1 (show c ∈ List.map _ _ from hc)
    -- a symbol that derives nothing is that of a rule with a fragment
    have hnull := Grammar.nullable_iff_forall.1 (Arena.nullable_drop hr.wellFormed hle) x hx
    cases x with
    | terminal t => exact absurd hnull Grammar.not_nullable_terminal
    | rule C =>
      obtain ⟨c, hc⟩ := hε.exists_symbol hr.wellFormed hnull
      obtain ⟨hlt, hk, -⟩ := hε.symbol C c hc
      exact ⟨C, by rw [EpsilonForest.fragment_rule hc, h.fragment c hlt, hk]⟩

omit hr in
/-- What stands for symbols begins before it ends. -/
theorem le_of_stands {x : Symbol} {l r : Nat} {id : NodeId}
    (hs : nodes.Stands input.compiled.matcher input.tokens x l r id) : l ≤ r :=
  (h.backed.spells_of_stands hs).le

/-- A right-hand side of a derivation has one node per symbol. -/
theorem standsAll {A : RuleId} {alt l r : Nat} {children : Children}
    (hh : input.Holds nodes A alt 0 l r children) {s : Sequence}
    (hs : nodes.Flattens children.toList s) :
    Arena.StandsAll input.compiled.matcher input.tokens nodes (input.grammar.alternative A alt).symbols
      l r s := by
  have := hs.standsAll h.backed.toSound (h.nulledRules hr) (Arena.Holds.covers hr.epsilon h.base hh)
  rwa [List.drop_zero] at this

/-- A derivation of an operator alternative has one right-hand side. -/
theorem flattens_unique (hsplits : input.grammar.SplitsOnce) {A : RuleId} {alt l r : Nat}
    (halt : alt < (input.grammar.rule A).alternatives.size)
    (hop : (input.grammar.alternative A alt).operator.isSome = true) {children : Children}
    (hh : input.Holds nodes A alt 0 l r children) {s s' : Sequence}
    (hs : nodes.Flattens children.toList s) (hs' : nodes.Flattens children.toList s') : s = s' := by
  have hone := hsplits A _ (Grammar.alternative_mem halt) hop
  -- the first node is that of the first symbol, so only the others may differ
  have hfirst : ∀ {x l k first rest s}, nodes.Stands input.compiled.matcher input.tokens x l k first →
      nodes.Flattens (first :: rest) s → ∃ s', s = first :: s' ∧ nodes.Flattens rest s' := by
    intro x l k first rest s hst hs
    obtain ⟨hpart, hne⟩ := Arena.not_isPart_of_kind hst.kind_cases
    cases hs with
    | epsilon hk _ => exact absurd hk hne
    | nulled hk _ => exact absurd (.inr ⟨_, _, _, hk⟩) hpart
    | intermediate hk _ _ _ => exact absurd (.inl ⟨_, _, _, hk⟩) hpart
    | single _ _ hs => exact ⟨_, rfl, hs⟩
  cases hh with
  | @only x first hx hlast hst =>
    obtain ⟨rest, rfl, hrest⟩ := hfirst hst (show nodes.Flattens (first :: []) s from hs)
    obtain ⟨rest', rfl, hrest'⟩ := hfirst hst (show nodes.Flattens (first :: []) s' from hs')
    cases hrest
    cases hrest'
    rfl
  | @cons x first second k hx hst ht =>
    obtain ⟨rest, rfl, hrest⟩ := hfirst hst (show nodes.Flattens (first :: [second]) s from hs)
    obtain ⟨rest', rfl, hrest'⟩ := hfirst hst (show nodes.Flattens (first :: [second]) s' from hs')
    have hcovers := ht.covers hr.epsilon h.base
    have hall := hrest.standsAll h.backed.toSound (h.nulledRules hr) hcovers
    have hall' := hrest'.standsAll h.backed.toSound (h.nulledRules hr) hcovers
    rw [hall.unique (h.stands_unique hr) hall' hone]

/-- The operands of an operator are narrower than the derivation, for the operator is a token. -/
theorem stands_operand {A : RuleId} {alt l r : Nat}
    (halt : alt < (input.grammar.rule A).alternatives.size) {op : Operator}
    (hop : (input.grammar.alternative A alt).operator = some op) {s : Sequence}
    (hs : Arena.StandsAll input.compiled.matcher input.tokens nodes
      (input.grammar.alternative A alt).symbols l r s) {side : Side} {id : NodeId}
    (hid : (side, id) ∈ Arena.operands op (input.grammar.alternative A alt).length s) :
    ∃ x p q, nodes.Stands input.compiled.matcher input.tokens x p q id ∧ q ≤ r ∧ q - p < r - l := by
  obtain ⟨t, ht⟩ := hr.wellFormed.operator_terminal halt hop
  obtain ⟨hlt, -⟩ := List.getElem?_eq_some_iff.1 ht
  obtain ⟨y, p, q, hy, hst, hbefore, hafter⟩ :=
    hs.split (List.getElem?_eq_getElem (hs.length_eq ▸ hlt))
  obtain rfl := Option.some.inj (ht.symm.trans hy)
  obtain ⟨-, rfl, -⟩ := hst
  obtain ⟨hlp, hbefore⟩ := hbefore.exists_stands h.le_of_stands
  obtain ⟨hpr, hafter⟩ := hafter.exists_stands h.le_of_stands
  obtain ⟨i, hi, hget⟩ := Arena.mem_operands_iff.1 hid
  cases side with
  | left =>
    obtain ⟨hpos, rfl⟩ := Operator.place?_left.1 hi
    rw [← List.getElem?_take_of_lt (Nat.sub_lt hpos Nat.one_pos)] at hget
    obtain ⟨x, p', q', hst, hp, hpq, hq⟩ := hbefore id (List.mem_of_getElem? hget)
    exact ⟨x, p', q', hst, by omega, by omega⟩
  | right =>
    obtain ⟨-, rfl⟩ := Operator.place?_right.1 hi
    rw [← Nat.add_zero (op.index + 1), ← List.getElem?_drop] at hget
    obtain ⟨x, p', q', hst, hp, hpq, hq⟩ := hafter id (List.mem_of_getElem? hget)
    exact ⟨x, p', q', hst, by omega, by omega⟩

omit hr in
/-- What stands for a symbol has no other span. -/
theorem span_eq_of_stands (hε : input.compiled.epsilon.Laid input.grammar) {x : Symbol} {l r : Nat}
    {id : NodeId} (hs : nodes.Stands input.compiled.matcher input.tokens x l r id) {s : Span}
    (hspan : (Arena.node nodes id).span = some s) : s = ⟨l, r⟩ := by
  cases x with
  | terminal t =>
    obtain ⟨hk, rfl, -⟩ := hs
    exact Option.some.inj (hspan.symm.trans (h.leaf hε hk).1)
  | rule A =>
    rcases hs.2 with hspan' | ⟨hspan', -⟩
    · exact Option.some.inj (hspan.symm.trans hspan')
    · cases hspan'.symm.trans hspan

/-- The alternatives of operators have one right-hand side in the forest of a parse. -/
theorem resolvable (hsplits : input.grammar.SplitsOnce) (hnodup : ∀ id s,
      (Arena.node nodes id).isChoice = true → (Arena.node nodes id).span = some s →
      ((Arena.childrenOf nodes id).map (Arena.node nodes)).Nodup) :
    nodes.Resolvable input.grammar where
  layered := h.layered hr.epsilon
  distinct := h.distinct hr.epsilon hnodup
  shapesEnd := h.shapesEnd hr.epsilon
  nulled := h.nulledRules hr
  rule_eq id A p B alt hk hp hpk := by
    have hc : (Arena.node nodes id).isChoice = true := by rw [Node.isChoice, hk]
    rcases h.kind_of_alternative hr.epsilon hc hp with ⟨C, alt', hk', hpk'⟩ | ⟨C, alt', dot, hk', -⟩
    · obtain rfl := NodeKind.symbol.inj (hk.symm.trans hk')
      exact (NodeKind.packed.inj (hpk.symm.trans hpk')).1
    · cases hk.symm.trans hk'
  flattens id A p alt hk hp hpk hop s s' hs hs' := by
    have hc : (Arena.node nodes id).isChoice = true := by rw [Node.isChoice, hk]
    rcases h.alternative_cases hr.epsilon hc hp with ⟨B, alt', hB, -⟩ |
      ⟨span, B, alt', dot, children, -, howns, hnode, hh⟩
    · have hplain := h.not_operator_fragment hr (hr.epsilon.symbol B id hB).1 hc hp
      rw [Pass.isOperatorNode, hpk] at hplain
      cases hop.symm.trans hplain
    · obtain ⟨rfl, rfl⟩ : B = A ∧ alt' = alt := by
        rw [hnode] at hpk
        exact NodeKind.packed.inj hpk
      rcases howns.1 with ⟨-, rfl, halt⟩ | hk'
      · rw [Arena.childrenOf, hnode] at hs hs'
        exact h.flattens_unique hr hsplits halt hop hh hs hs'
      · cases hk.symm.trans hk'

end ParseInput.Formed

/-! ## Operands when an alternative is judged -/

section

variable (hr : input.Ready) (hf : input.Formed nodes) {d : Deferred} (hd : d.Valid input nodes)
  {st : Stage} {level : Nat} (hfor : st.IsFor d level) {op : Operator}
  (hop : (input.grammar.alternative d.rule d.alt).operator = some op) {s : Sequence}
  (hs : nodes.Flattens d.children.toList s) {side : Side} {id : NodeId}
  (hid : (side, id) ∈ Arena.operands op (input.grammar.alternative d.rule d.alt).length s)
include hr hf hd hfor hop hs hid

/-- An operand that is settled when the derivation is judged stays as it is. -/
theorem Deferred.Valid.frozen_operand
    (hsettled : (input.candidate nodes d level).settled id = true) : nodes.Frozen st id := by
  intro s' hspan
  obtain ⟨x, p, q, hst, hq, hwidth⟩ := hf.stands_operand hr hd.alt_lt hop (hf.standsAll hr hd.holds hs) hid
  obtain rfl := hf.span_eq_of_stands hr.epsilon hst hspan
  have hlt : q < level := by
    rw [Candidate.settled, ParseInput.candidate, hspan] at hsettled
    exact of_decide_eq_true hsettled
  obtain ⟨hright, ⟨rfl, -⟩ | ⟨rfl, hw⟩⟩ := hfor
  · exact .inl hlt
  · rcases Nat.lt_or_eq_of_le (Nat.le_of_lt_succ hlt) with hlt | rfl
    · exact .inl hlt
    · exact .inr ⟨rfl, by rw [hw]; exact hwidth⟩

/-- When a level has no reductions left, all operands are settled. -/
theorem Deferred.Valid.settled_operand (hlevel : st.level < level) :
    (input.candidate nodes d level).settled id = true := by
  obtain ⟨x, p, q, hst, hq, -⟩ := hf.stands_operand hr hd.alt_lt hop (hf.standsAll hr hd.holds hs) hid
  rw [Candidate.settled, ParseInput.candidate]
  split
  · rfl
  · rename_i s' hspan
    obtain rfl := hf.span_eq_of_stands hr.epsilon hst hspan
    exact decide_eq_true (Nat.lt_of_le_of_lt hq (hfor.1 ▸ hlevel))

end

/-! ## What is turned down -/

namespace Arena

/-- A derivation has an operand that has no derivation, or of which every derivation conflicts with the
operator; and the operands that have been looked at stay as they are. -/
def Overruled (g : Grammar) (nodes : Arena) (st : Stage) (d : Deferred) : Prop :=
  (∃ c ∈ d.children.toList, (node nodes c).isSymbol = true ∧ childrenOf nodes c = [] ∧
    nodes.Frozen st c) ∨
  ∃ op s, (g.alternative d.rule d.alt).operator = some op ∧ nodes.Flattens d.children.toList s ∧
    (∃ x ∈ operands op (g.alternative d.rule d.alt).length s,
      operandConflicts g nodes op x.1 x.2 = true) ∧
    ∀ x ∈ operands op (g.alternative d.rule d.alt).length s, nodes.Frozen st x.2

/-- A derivation of no more than three symbols has a right-hand side in which no operand conflicts with
the operator; and the operands stay as they are. -/
def Agreed (g : Grammar) (nodes : Arena) (st : Stage) (d : Deferred) : Prop :=
  ∀ op, (g.alternative d.rule d.alt).operator = some op → (g.alternative d.rule d.alt).length ≤ 3 →
    ∃ s, nodes.Flattens d.children.toList s ∧
      ∀ x ∈ operands op (g.alternative d.rule d.alt).length s, nodes.Frozen st x.2 ∧
        operandConflicts g nodes op x.1 x.2 = false

/-- What an operand conflicts with does not change when it stays as it is. -/
theorem operandConflicts_eq {g : Grammar} {st : Stage} (hg : GrowsAt st nodes nodes')
    (hclosed : ∀ id, ∀ c ∈ childrenOf nodes id, c < nodes.size) {id : NodeId} (hid : id < nodes.size)
    (hfrozen : nodes.Frozen st id) (outer : Operator) (side : Side) :
    operandConflicts g nodes' outer side id = operandConflicts g nodes outer side id := by
  have hnode := hg.node_eq_of_frozen id hid hfrozen
  have halternatives : packedAlternatives nodes' id = packedAlternatives nodes id := by
    rw [packedAlternatives, packedAlternatives, childrenOf, hnode]
    refine List.filterMap_congr fun p hp => ?_
    rw [hg.kind_eq p (hclosed id p hp)]
  rw [operandConflicts, operandConflicts, hnode, halternatives]

end Arena

/-- An intermediate node among what holds symbols is that of the rest of the alternative. -/
theorem ParseInput.Holds.intermediate (hr : input.Ready) (hf : input.Formed nodes) {A : RuleId}
    {alt dot l r : Nat} {children : Children} (hh : input.Holds nodes A alt dot l r children)
    {c : NodeId} (hc : c ∈ children.toList) {B : RuleId} {alt' dot' : Nat}
    (hk : (Arena.node nodes c).kind = .intermediate B alt' dot') :
    (B = A ∧ alt' = alt ∧ dot' = dot + 1) ∧ dot + 2 < (input.grammar.alternative A alt).length ∧
      Arena.childrenOf nodes c ≠ [] := by
  have hstands : ∀ {x l r}, ¬ nodes.Stands input.compiled.matcher input.tokens x l r c := fun hst =>
    (Arena.not_isPart_of_kind hst.kind_cases).1 (.inl ⟨B, alt', dot', hk⟩)
  cases hh with
  | only hx hlast hst =>
    obtain rfl := List.mem_singleton.1 hc
    exact absurd hst hstands
  | cons hx hst ht =>
    rcases List.mem_cons.1 hc with rfl | hc
    · exact absurd hst hstands
    · obtain rfl := List.mem_singleton.1 hc
      cases ht with
      | nulled h _ => cases hk.symm.trans (Arena.kind_tail hr.epsilon hf.base h).2
      | last _ _ hst _ => exact absurd hst hstands
      | intermediate hk' _ _ hmore hne =>
        obtain ⟨rfl, rfl, rfl⟩ := NodeKind.intermediate.inj (hk.symm.trans hk')
        exact ⟨⟨rfl, rfl, rfl⟩, hmore, hne⟩

/-- Intermediate nodes have alternatives all the way down. -/
theorem ParseInput.Formed.exists_unfolds (hr : input.Ready) (hf : input.Formed nodes) :
    ∃ rank, (∀ id, rank id ≤ nodes.size) ∧ nodes.Unfolds rank fun c => ∀ A alt dot,
      (Arena.node nodes c).kind = .intermediate A alt dot → Arena.childrenOf nodes c ≠ [] := by
  obtain ⟨rank, hrank⟩ := hf.exists_innerRanked hr.epsilon
  refine ⟨rank, hrank.le_size, fun c hin A alt dot hk => ?_⟩
  obtain ⟨p, hp⟩ := List.exists_mem_of_ne_nil _ (hin A alt dot hk)
  rcases hf.alternative_cases hr.epsilon (by rw [Node.isChoice, hk]) hp with ⟨B, alt', hB, -⟩ |
    ⟨s, B, alt', dot', children, -, -, hnode, hh⟩
  · obtain ⟨hlt, hsymbol, -⟩ := hr.epsilon.symbol B c hB
    cases hk.symm.trans ((hf.base.kind_eq c hlt).trans hsymbol)
  · refine ⟨p, hp, hrank.lt c (fun C => by simp [hk]) p hp, fun d hd => ⟨fun A' alt'' dot'' hk' => ?_,
      hrank.lt p (fun C => by simp [hnode, Arena.alternativeNode]) d hd⟩⟩
    rw [Arena.childrenOf, hnode] at hd
    exact (hh.intermediate hr hf hd hk').2.2

/-- Some right-hand side of a derivation is looked at. -/
theorem Deferred.Valid.sequences_ne_nil (hr : input.Ready) (hf : input.Formed nodes) {d : Deferred}
    (hd : d.Valid input nodes) : Arena.sequencesOf nodes sequenceCap d.children.toList ≠ [] := by
  obtain ⟨rank, hrank, hunfolds⟩ := hf.exists_unfolds hr
  exact Arena.sequencesOf_ne_nil hunfolds (by decide) hrank fun c hc A alt dot hk =>
    (hd.holds.intermediate hr hf hc hk).2.2

section

variable (hr : input.Ready) (hf : input.Formed nodes) {d : Deferred} (hd : d.Valid input nodes)
  {st st' : Stage} (hg : nodes.GrowsAt st nodes') {s : Sequence} (hs : nodes.Flattens d.children.toList s)
include hr hf hd hg hs

/-- A right-hand side of a derivation stays one. -/
theorem Deferred.Valid.flattens_grows : nodes'.Flattens d.children.toList s :=
  hs.grows hf.backed.closed (fun _ hc _ hp => hf.isPacked hr.epsilon hc hp) hg.toGrows
    (Arena.Holds.lt_size hr.epsilon hf.base hd.holds)

/-- An operand that stays as it is conflicts as before. -/
theorem Deferred.Valid.operand_grows (hst : st.Before st') {op : Operator}
    (hop : (input.grammar.alternative d.rule d.alt).operator = some op) {x : Side × NodeId}
    (hx : x ∈ Arena.operands op (input.grammar.alternative d.rule d.alt).length s)
    (hfrozen : nodes.Frozen st x.2) : nodes'.Frozen st' x.2 ∧
      Arena.operandConflicts input.grammar nodes' op x.1 x.2 =
        Arena.operandConflicts input.grammar nodes op x.1 x.2 := by
  obtain ⟨_, _, _, hstands, -⟩ := hf.stands_operand hr hd.alt_lt hop (hf.standsAll hr hd.holds hs) hx
  exact ⟨(hg.frozen hstands.lt_size hfrozen).mono hst,
    Arena.operandConflicts_eq hg hf.backed.closed hstands.lt_size hfrozen op x.1⟩

end

/-- Candidates are judged by precedence alone. -/
structure ParseInput.ByPrecedence (input : ParseInput σ) : Prop where
  user : input.user = []
  greedy : input.config.greedy = true → ∀ A, (input.grammar.rule A).nullable = false

namespace ParseInput.ByPrecedence

variable (h : input.ByPrecedence)
include h

/-- Greedy lists turn nothing down. -/
theorem judge_fst {c : Candidate} (hc : c.grammar = input.grammar) (s : σ) :
    (input.pipeline.judge c s).1 =
      if input.config.precedence && Arena.operandPending c.settled c.alternative c.sequences then .defer
      else if input.config.precedence && !Arena.precedenceAllows c.grammar c.nodes c.settled
        c.alternative c.sequences then .reject
      else .accept := by
  have hgreedy : (input.config.greedy &&
      !Arena.greedyAllows c.grammar c.nodes c.sequences (c.existing.map Prod.snd)) = false := by
    cases hon : input.config.greedy with
    | false => rfl
    | true =>
      rw [Bool.true_and, Bool.not_eq_false', Arena.greedyAllows.eq_def]
      split
      · rfl
      · refine List.all_eq_true.2 fun p _ => ?_
        split
        · rfl
        · rw [Pass.greedier_eq_false (hc ▸ h.greedy hon)]
          rfl
  rw [Pipeline.judge_fst h.user, Pipeline.builtIn, ParseInput.pipeline]
  simp only [hgreedy, Bool.false_eq_true, if_false]

/-- A candidate is accepted unless an operand is not settled, or each right-hand side has an operand
that conflicts. -/
theorem verdict_cases {c : Candidate} (hc : c.grammar = input.grammar) (s : σ) :
    ((input.pipeline.judge c s).1 = .accept ∧ (input.config.precedence = true →
      ∀ op, c.alternative.operator = some op →
        (∀ q ∈ c.sequences, ∀ x ∈ Arena.operands op c.alternative.length q, c.settled x.2 = true) ∧
        (c.sequences = [] ∨ ∃ q ∈ c.sequences, ∀ x ∈ Arena.operands op c.alternative.length q,
          Arena.operandConflicts c.grammar c.nodes op x.1 x.2 = false))) ∨
    ∃ op, c.alternative.operator = some op ∧
      (((input.pipeline.judge c s).1 = .defer ∧
        ∃ q ∈ c.sequences, ∃ x ∈ Arena.operands op c.alternative.length q, c.settled x.2 = false) ∨
      ((input.pipeline.judge c s).1 = .reject ∧
        (∀ q ∈ c.sequences, ∀ x ∈ Arena.operands op c.alternative.length q, c.settled x.2 = true) ∧
        c.sequences ≠ [] ∧ ∀ q ∈ c.sequences, ∃ x ∈ Arena.operands op c.alternative.length q,
          Arena.operandConflicts c.grammar c.nodes op x.1 x.2 = true)) := by
  rw [h.judge_fst hc]
  cases hon : input.config.precedence with
  | false => exact .inl ⟨rfl, fun h => by cases h⟩
  | true =>
    cases hop : c.alternative.operator with
    | none => exact .inl ⟨by simp [Arena.operandPending, Arena.precedenceAllows, hop], fun _ _ h => by cases h⟩
    | some op =>
      simp only [Bool.true_and, Arena.operandPending, Arena.precedenceAllows, hop]
      split
      · rename_i hpending
        simp only [List.any_eq_true, Bool.not_eq_true'] at hpending
        exact .inr ⟨op, rfl, .inl ⟨rfl, hpending⟩⟩
      · rename_i hpending
        have hsettled : ∀ q ∈ c.sequences, ∀ x ∈ Arena.operands op c.alternative.length q,
            c.settled x.2 = true := by simpa using hpending
        split
        · rename_i hallows
          refine .inr ⟨op, rfl, .inr ⟨rfl, hsettled, ?_⟩⟩
          simp only [Bool.not_eq_true', Bool.or_eq_false_iff, List.isEmpty_eq_false_iff,
            List.any_eq_false, List.all_eq_true, Classical.not_forall] at hallows
          refine ⟨hallows.1, fun q hq => ?_⟩
          obtain ⟨x, hx, hconflicts⟩ := hallows.2 q hq
          rw [Bool.not_eq_false, Bool.and_eq_true] at hconflicts
          exact ⟨x, hx, hconflicts.2⟩
        · rename_i hallows
          refine .inl ⟨rfl, fun _ op' hop' => ?_⟩
          obtain rfl := Option.some.inj hop'
          refine ⟨hsettled, ?_⟩
          simp only [Bool.not_eq_true', Bool.not_eq_false, Bool.or_eq_true, List.isEmpty_iff,
            List.any_eq_true, List.all_eq_true] at hallows
          refine hallows.imp id ?_
          rintro ⟨q, hq, hall⟩
          refine ⟨q, hq, fun x hx => ?_⟩
          have := hall x hx
          rwa [hsettled q hq x hx, Bool.true_and] at this

/-- What is turned down is overruled. -/
def overruled (hr : input.Ready) : Policy input where
  Known nodes st d b := b = false → nodes.Overruled input.grammar st d
  grows := by
    intro nodes nodes' st st' d b hf hd hk hg hst hb
    rcases hk hb with ⟨c, hc, hsymbol, hnil, hfrozen⟩ | ⟨op, s, hop, hs, ⟨x, hx, hconflicts⟩, hfrozen⟩
    · have hlt := Arena.Holds.lt_size hr.epsilon hf.base hd.holds c hc
      have hnode := hg.node_eq_of_frozen c hlt hfrozen
      refine .inl ⟨c, hc, ?_, ?_, (hg.frozen hlt hfrozen).mono hst⟩
      · rw [hnode, hsymbol]
      · rw [Arena.childrenOf, hnode]
        exact hnil
    · refine .inr ⟨op, s, hop, hd.flattens_grows hr hf hg hs, ⟨x, hx, ?_⟩,
        fun y hy => (hd.operand_grows hr hf hg hs hst hop hy (hfrozen y hy)).1⟩
      exact (hd.operand_grows hr hf hg hs hst hop hx (hfrozen x hx)).2.trans hconflicts
  accepts _ _ _ _ hb := by cases hb
  rejects := by
    intro nodes st d level user hf hd hfor hj hdefer _
    rcases h.verdict_cases (c := input.candidate nodes d level) rfl user with ⟨haccept, -⟩ |
      ⟨op, hop, ⟨hpending, q, hq, x, hx, hnot⟩ | ⟨-, hsettled, hne, hconflicts⟩⟩
    · exact absurd haccept hj
    · -- when a derivation is judged for the last time, no operand is pending
      rw [hd.settled_operand hr hf hfor hop (Arena.flattens_of_mem_sequencesOf hq) hx
        (hdefer hpending)] at hnot
      cases hnot
    · obtain ⟨q, hq⟩ := List.exists_mem_of_ne_nil _ hne
      have hs := Arena.flattens_of_mem_sequencesOf hq
      exact .inr ⟨op, q, hop, hs, hconflicts q hq, fun x hx =>
        hd.frozen_operand hr hf hfor hop hs hx (hsettled q hq x hx)⟩
  buries := by
    intro nodes st d level _ hf hd hfor hop hdead _
    obtain ⟨c, hc, hdead⟩ := List.any_eq_true.1 hdead
    simp only [Bool.and_eq_true, Option.any_eq_true] at hdead
    obtain ⟨⟨hsymbol, hempty⟩, s, hs, hlt⟩ := hdead
    refine .inl ⟨c, hc, hsymbol, by rw [Arena.childrenOf, Array.isEmpty_iff.1 hempty], fun s' hs' => ?_⟩
    obtain rfl := Option.some.inj (hs.symm.trans hs')
    have hlt := of_decide_eq_true hlt
    obtain ⟨hright, ⟨rfl, -⟩ | ⟨rfl, hw⟩⟩ := hfor
    · exact .inl hlt
    · rcases Nat.lt_or_eq_of_le (Nat.le_of_lt_succ hlt) with hlt | hlt
      · exact .inl hlt
      · exact .inr ⟨hlt, by rw [hw]; exact hd.width_lt hr.wellFormed hr.epsilon hf (hop rfl) hc hsymbol hs⟩

/-- What is kept has a right-hand side without conflicts. -/
def agreed (hr : input.Ready) (hprecedence : input.config.precedence = true) : Policy input where
  Known nodes st d b := b = true → nodes.Agreed input.grammar st d
  grows := by
    intro nodes nodes' st st' d b hf hd hk hg hst hb op hop hlength
    obtain ⟨s, hs, hall⟩ := hk hb op hop hlength
    refine ⟨s, hd.flattens_grows hr hf hg hs, fun x hx => ?_⟩
    obtain ⟨hfrozen, hconflicts⟩ := hd.operand_grows hr hf hg hs hst hop hx (hall x hx).1
    exact ⟨hfrozen, hconflicts.trans (hall x hx).2⟩
  accepts := by
    intro nodes st d level user hf hd hfor hj _ op hop hlength
    rcases h.verdict_cases (c := input.candidate nodes d level) rfl user with ⟨-, haccept⟩ |
      ⟨_, -, ⟨hj', -⟩ | ⟨hj', -⟩⟩
    · obtain ⟨hsettled, hsequences⟩ := haccept hprecedence op hop
      obtain ⟨q, hq, hagrees⟩ := hsequences.resolve_left (hd.sequences_ne_nil hr hf)
      exact ⟨q, Arena.flattens_of_mem_sequencesOf hq, fun x hx =>
        ⟨hd.frozen_operand hr hf hfor hop (Arena.flattens_of_mem_sequencesOf hq) hx (hsettled q hq x hx),
          hagrees x hx⟩⟩
    · cases hj.symm.trans hj'
    · cases hj.symm.trans hj'
  rejects _ _ _ _ _ hb := by cases hb
  buries _ _ _ _ _ _ hb := by cases hb

end ParseInput.ByPrecedence

/-! ## What is left -/

namespace Arena

/-- What is overruled has no tree that is clean at its root. -/
theorem Overruled.not_agrees (hr : input.Ready) (hf : input.Formed nodes)
    (hsplits : input.grammar.SplitsOnce) {st : Stage} {d : Deferred} (hd : d.Valid input nodes)
    (h : nodes.Overruled input.grammar st d) {ts : List Tree}
    (hts : nodes.ReadsAll input.grammar input.tokens d.children.toList ts) {name : String} :
    ¬ input.grammar.Agrees (.rule name d.rule d.alt ts) := by
  intro hagrees
  obtain ⟨s, hs, hreads⟩ := hts.exists_flattens (hf.nulledRules hr)
  rcases h with ⟨c, hc, hsymbol, hnil, -⟩ | ⟨op, s', hop, hs', ⟨⟨side, id⟩, hx, hconflicts⟩, -⟩
  · obtain ⟨A, hA⟩ := Node.isSymbol_iff.1 hsymbol
    obtain ⟨hpart, hne⟩ := not_isPart_of_kind (.inr ⟨A, hA⟩)
    obtain ⟨t, -, ht⟩ := List.exists_right_of_forall₂ hreads (hs.mem hc hpart hne)
    -- a node without derivations stands for no tree
    cases ht with
    | token hk _ => cases hA.symm.trans hk
    | rule _ hp _ _ => exact absurd (hnil ▸ hp) List.not_mem_nil
  · obtain rfl := hf.flattens_unique hr hsplits hd.alt_lt (by rw [hop]; rfl) hd.holds hs hs'
    obtain ⟨i, hi, hget⟩ := mem_operands_iff.1 hx
    obtain ⟨hlt, hget⟩ := List.getElem?_eq_some_iff.1 hget
    have hlt' : i < ts.length := hreads.length_eq ▸ hlt
    refine hagrees op hop side i _ hi (List.getElem?_eq_getElem hlt') ?_
    exact clashes_of_operandConflicts (by rwa [List.get_eq_getElem, hget])
      ((List.forall₂_iff_get.1 hreads).2 i hlt hlt')

end Arena

namespace Engine

variable {start : StackId} {l : Nat} {e : Engine σ} {root : NodeId} {user : σ}

/-- No derivation that a clean tree needs has been turned down. -/
theorem Finished.spares_clean (hr : input.Ready) (hsplits : input.grammar.SplitsOnce)
    (hby : input.ByPrecedence) (h : Finished input start l e) :
    e.Spares input fun _ => input.grammar.Agrees := by
  intro d hd hk ts hts
  obtain ⟨d', hkey, hd', hknown⟩ := h.forest.dropped d.key hk
  obtain rfl := hd'.eq_of_key hd hkey.symm
  exact (hknown (hby.overruled hr) rfl).not_agrees hr h.forest.formed hsplits hd hts

end Engine

end ParseForest
