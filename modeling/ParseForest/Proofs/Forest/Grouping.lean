import ParseForest.Proofs.Forest.Resolving

/-!
# Groupings of operands and operators

In a grammar of binary operators (`Grammar.IsBinary`) a derivation tree is a way of grouping operands
and operators. In a clean tree an operand clashes with an operator exactly if it contains some operator
that binds too loosely for it (`IsBinary.not_clashes_iff`), so it is the tokens that matter and not how
they are grouped. Therefore no tokens have two clean trees (`IsBinary.clean_unique`), and what stands
before or after an operator in a clean tree has a clean tree too (`IsBinary.exists_clean_of_append`).
-/

namespace ParseForest

/-- Where two lists are cut at an element, one is cut before the other, or at the same place. -/
theorem List.append_cons_eq_append_cons {α : Type} {xs ys xs' ys' : List α} {a b : α}
    (h : xs ++ a :: ys = xs' ++ b :: ys') : (xs = xs' ∧ a = b ∧ ys = ys') ∨
      (∃ zs, xs' = xs ++ a :: zs ∧ ys = zs ++ b :: ys') ∨
      ∃ zs, xs = xs' ++ b :: zs ∧ ys' = zs ++ a :: ys := by
  rcases List.append_eq_append_iff.1 h with ⟨zs, rfl, hzs⟩ | ⟨zs, rfl, hzs⟩
  · cases zs with
    | nil =>
      obtain ⟨rfl, rfl⟩ := List.cons.inj hzs
      exact .inl ⟨(List.append_nil xs).symm, rfl, rfl⟩
    | cons c zs =>
      obtain ⟨rfl, rfl⟩ := List.cons.inj hzs
      exact .inr (.inl ⟨zs, rfl, rfl⟩)
  · cases zs with
    | nil =>
      obtain ⟨rfl, rfl⟩ := List.cons.inj hzs
      exact .inl ⟨List.append_nil xs', rfl, rfl⟩
    | cons c zs =>
      obtain ⟨rfl, rfl⟩ := List.cons.inj hzs
      exact .inr (.inr ⟨zs, rfl, rfl⟩)

theorem List.eq_of_append_cons_eq_singleton {α : Type} {xs ys : List α} {a b : α}
    (h : xs ++ a :: ys = [b]) : a = b := by
  have hmem : a ∈ xs ++ a :: ys := List.mem_append_right xs (.head ys)
  rw [h] at hmem
  exact List.mem_singleton.1 hmem

/-! ## Precedences -/

namespace Operator

variable {outer inner op : Operator} {side : Side}

theorem tooLoose_eq_false_iff : outer.tooLoose inner side = false ↔
    outer.precedence ≤ inner.precedence ∧
      (inner.precedence = outer.precedence → outer.forbidsEqual side = false) := by
  simp [tooLoose]

/-- What binds at least as tightly as an operand's operator is no looser. -/
theorem tooLoose_eq_false_of_le (h : outer.tooLoose inner side = false)
    (hle : inner.precedence ≤ op.precedence) : outer.tooLoose op side = false := by
  obtain ⟨hle', hequal⟩ := tooLoose_eq_false_iff.1 h
  exact tooLoose_eq_false_iff.2 ⟨Nat.le_trans hle' hle, fun he => hequal (by omega)⟩

/-- No operator may stand on either side of another if that may stand on the other side of it, where
equal precedence means equal associativity. -/
theorem not_tooLoose_both
    (hassociativity : outer.precedence = inner.precedence → outer.associativity = inner.associativity)
    (hright : outer.tooLoose inner .right = false) (hleft : inner.tooLoose outer .left = false) :
    False := by
  obtain ⟨hle, hright⟩ := tooLoose_eq_false_iff.1 hright
  obtain ⟨hle', hleft⟩ := tooLoose_eq_false_iff.1 hleft
  have he : outer.precedence = inner.precedence := Nat.le_antisymm hle hle'
  have hright := hright he.symm
  have hleft := hleft he
  have ha := hassociativity he
  cases h : outer.associativity <;> simp [forbidsEqual, h, ← ha] at hright hleft

end Operator

/-! ## Grammars of binary operators -/

namespace Grammar

/-- The alternative of the first rule that puts an operator between two operands. -/
structure Between (g : Grammar) (t : TerminalId) (alt : Nat) (op : Operator) : Prop where
  lt_size : alt < (g.rule g.first).alternatives.size
  symbols_eq : (g.alternative g.first alt).symbols = [.rule g.first, .terminal t, .rule g.first]
  operator_eq : (g.alternative g.first alt).operator = some op

/-- The alternatives of the first rule are one operand, the token class of the terminal `leaf`, and operators
between operands, each with a terminal of its own. Operators of equal precedence have the same
associativity. Apart from the rule that accepts, all other rules are of token classes. -/
structure IsBinary (g : Grammar) (operand : RuleId) (leaf : TerminalId) : Prop where
  exists_operand : ∃ alt < (g.rule g.first).alternatives.size,
    (g.alternative g.first alt).symbols = [.rule operand]
  alternatives : ∀ alt < (g.rule g.first).alternatives.size,
    (g.alternative g.first alt).symbols = [.rule operand] ∨ ∃ t op, g.Between t alt op
  distinct : ∀ alt < (g.rule g.first).alternatives.size, ∀ alt' < (g.rule g.first).alternatives.size,
    (g.alternative g.first alt).symbols = (g.alternative g.first alt').symbols → alt = alt'
  associativity_eq : ∀ {t alt op t' alt' op'}, g.Between t alt op → g.Between t' alt' op' →
    op.precedence = op'.precedence → op.associativity = op'.associativity
  size_operand : (g.rule operand).alternatives.size = 1
  symbols_operand : (g.alternative operand 0).symbols = [.terminal leaf]
  classes : ∀ A, A ≠ g.start → A ≠ g.first → ∀ a ∈ (g.rule A).alternatives, ∃ t name pattern,
    a.symbols = [.terminal t] ∧ g.terminal t = .ofClass name pattern

/-- The token is an operator. -/
def IsOperator (g : Grammar) (m : TerminalMatcher) (tok : Token) (op : Operator) : Prop :=
  ∃ t alt, g.Between t alt op ∧ t ∈ m.matching tok

/-- Operands with operators between them, each of which satisfies one terminal. -/
inductive IsChain (g : Grammar) (m : TerminalMatcher) (leaf : TerminalId) : List Token → Prop
  | operand {tok : Token} (h : m.matching tok = [leaf]) : IsChain g m leaf [tok]
  | between {tok optok : Token} {toks : List Token} {t : TerminalId} {alt : Nat} {op : Operator}
      (h : m.matching tok = [leaf]) (hop : g.Between t alt op) (ht : m.matching optok = [t])
      (hrest : IsChain g m leaf toks) : IsChain g m leaf (tok :: optok :: toks)

/-- The tree of an operand. -/
def operandTree (g : Grammar) (operand : RuleId) (alt : Nat) (tok : Token) : Tree :=
  .rule (g.rule g.first).name g.first alt [.rule (g.rule operand).name operand 0 [.token tok]]

/-- The tree of an operator between two operands. -/
def binaryTree (g : Grammar) (alt : Nat) (l : Tree) (optok : Token) (r : Tree) : Tree :=
  .rule (g.rule g.first).name g.first alt [l, .token optok, r]

/-- The trees that group operands and operators. -/
inductive Grouping (g : Grammar) (m : TerminalMatcher) (operand : RuleId) (leaf : TerminalId) :
    Tree → Prop
  | operand {alt : Nat} {tok : Token} (halt : alt < (g.rule g.first).alternatives.size)
      (hs : (g.alternative g.first alt).symbols = [.rule operand]) (hleaf : leaf ∈ m.matching tok) :
      Grouping g m operand leaf (g.operandTree operand alt tok)
  | binary {x : TerminalId} {alt : Nat} {op : Operator} {l r : Tree} {optok : Token}
      (hop : g.Between x alt op) (hx : x ∈ m.matching optok) (hl : Grouping g m operand leaf l)
      (hr : Grouping g m operand leaf r) : Grouping g m operand leaf (g.binaryTree alt l optok r)

/-- Token classes have no precedence. -/
theorem precedence?_of_class {g : Grammar} {t : TerminalId} {name pattern : String}
    (hclass : g.terminal t = .ofClass name pattern) :
    (g.terminals[t]?).bind Terminal.precedence? = none := by
  rw [terminal, Array.getD_eq_getD_getElem?] at hclass
  cases ht : g.terminals[t]? with
  | none => rfl
  | some x =>
    rw [ht] at hclass
    obtain rfl : x = .ofClass name pattern := hclass
    rfl

/-- An operator is the second of three symbols. -/
theorem Between.index_eq {g : Grammar} (hg : g.WellFormed) {t : TerminalId} {alt : Nat} {op : Operator}
    (h : g.Between t alt op) : op.index = 1 ∧ (g.alternative g.first alt).length = 3 := by
  refine ⟨?_, by rw [Alternative.length, h.symbols_eq]; rfl⟩
  obtain ⟨t', ht'⟩ := hg.operator_terminal h.lt_size h.operator_eq
  rw [h.symbols_eq] at ht'
  rcases hi : op.index with _ | _ | _ | n
  · simp [hi] at ht'
  · rfl
  · simp [hi] at ht'
  · simp [hi] at ht'

namespace IsBinary

variable {g : Grammar} {operand : RuleId} {leaf : TerminalId} (h : g.IsBinary operand leaf)
include h

/-- The rule of the operand is neither the first one nor the one that accepts. -/
theorem operand_ne (hg : g.WellFormed) : operand ≠ g.first ∧ g.first ≠ g.start := by
  obtain ⟨alt, halt, hs⟩ := h.exists_operand
  constructor
  · rintro rfl
    rw [h.size_operand] at halt
    obtain rfl : alt = 0 := Nat.lt_one_iff.1 halt
    rw [h.symbols_operand] at hs
    cases hs
  · intro he
    obtain ⟨hone, hsym⟩ := hg.alternative_start
    rw [he, hone] at halt
    obtain rfl : alt = 0 := Nat.lt_one_iff.1 halt
    rw [he, hsym] at hs
    cases hs

theorem symbols_of_operand : ∀ a ∈ (g.rule operand).alternatives, a.symbols = [.terminal leaf] := by
  intro a ha
  obtain ⟨alt, halt, rfl⟩ := mem_alternatives_iff.1 ha
  rw [h.size_operand] at halt
  obtain rfl : alt = 0 := Nat.lt_one_iff.1 halt
  exact h.symbols_operand

theorem operand_ne_start (hg : g.WellFormed) : operand ≠ g.start := by
  rintro rfl
  have hs := hg.alternative_start.2
  rw [h.symbols_operand] at hs
  cases hs

/-- The right-hand sides that there are. -/
theorem symbols_cases (hg : g.WellFormed) {A : RuleId} {a : Alternative}
    (ha : a ∈ (g.rule A).alternatives) : (A = g.start ∧ a.symbols = [.rule g.first, .rule g.eofRule]) ∨
      (A = g.first ∧ a.symbols = [.rule operand]) ∨
      (∃ t, A = g.first ∧ a.symbols = [.rule g.first, .terminal t, .rule g.first]) ∨
      ∃ t, a.symbols = [.terminal t] ∧ ∃ name pattern, g.terminal t = .ofClass name pattern := by
  by_cases hstart : A = g.start
  · obtain ⟨a', halternatives, hs⟩ := hg.start_alternatives
    rw [hstart, halternatives] at ha
    obtain rfl : a = a' := by simpa using ha
    exact .inl ⟨hstart, hs⟩
  by_cases hfirst : A = g.first
  · subst hfirst
    obtain ⟨alt, halt, rfl⟩ := mem_alternatives_iff.1 ha
    rcases h.alternatives alt halt with hs | ⟨t, op, hop⟩
    · exact .inr (.inl ⟨rfl, hs⟩)
    · exact .inr (.inr (.inl ⟨t, rfl, hop.symbols_eq⟩))
  · obtain ⟨t, name, pattern, hs, hclass⟩ := h.classes A hstart hfirst a ha
    exact .inr (.inr (.inr ⟨t, hs, name, pattern, hclass⟩))

theorem symbols_ne_nil (hg : g.WellFormed) (A : RuleId) :
    ∀ a ∈ (g.rule A).alternatives, a.symbols ≠ [] := by
  intro a ha
  rcases h.symbols_cases hg ha with ⟨-, hs⟩ | ⟨-, hs⟩ | ⟨t, -, hs⟩ | ⟨t, hs, -⟩ <;>
  · rw [hs]
    exact List.cons_ne_nil _ _

/-- No rule derives nothing. -/
theorem not_nullable (hg : g.WellFormed) (A : RuleId) : ¬ g.Nullable [.rule A] := fun hn =>
  Nat.not_succ_le_zero 0 (hn.length_le (h.symbols_ne_nil hg))

theorem not_cyclic (hg : g.WellFormed) : ¬ g.Cyclic := by
  -- only the first rule has an alternative that is a single rule
  refine not_cyclic_of_rank (h.symbols_ne_nil hg) (fun A => if A = g.first then 1 else 0)
    fun A a ha B hB => ?_
  rcases h.symbols_cases hg ha with ⟨-, hs⟩ | ⟨rfl, hs⟩ | ⟨t, -, hs⟩ | ⟨t, hs, -⟩
  · cases hB.symm.trans hs
  · obtain rfl : B = operand := by simpa [hB] using hs
    simp [(h.operand_ne hg).1]
  · cases hB.symm.trans hs
  · cases hB.symm.trans hs

theorem avoidsStart (hg : g.WellFormed) : g.AvoidsStart := by
  intro A a ha hmem
  obtain ⟨hoperand, hfirst⟩ := h.operand_ne hg
  rcases h.symbols_cases hg ha with ⟨-, hs⟩ | ⟨-, hs⟩ | ⟨t, -, hs⟩ | ⟨t, hs, -⟩ <;> rw [hs] at hmem
  · simp [hfirst.symm, hg.start_ne_eofRule] at hmem
  · obtain rfl : g.start = operand := by simpa using hmem
    exact h.operand_ne_start hg rfl
  · simp [hfirst.symm] at hmem
  · simp at hmem

/-! ### Trees -/

/-- The derivation trees of the first rule group operands and operators. -/
theorem fits_iff {m : TerminalMatcher} {t : Tree} :
    t.Fits g m (.rule g.first) ↔ g.Grouping m operand leaf t := by
  constructor
  · intro ht
    induction hn : t.leaves.length using Nat.strongRecOn generalizing t with
    | ind n ih =>
      cases ht with
      | @rule _ alt children halt hchildren =>
        rcases h.alternatives alt halt with hs | ⟨x, op, hop⟩
        · rw [hs] at hchildren
          obtain _ | ⟨hfit, ⟨⟩⟩ := hchildren
          cases hfit with
          | @rule _ alt' children' halt' hchildren' =>
            rw [h.size_operand] at halt'
            obtain rfl : alt' = 0 := Nat.lt_one_iff.1 halt'
            rw [h.symbols_operand] at hchildren'
            obtain _ | ⟨⟨hleaf⟩, ⟨⟩⟩ := hchildren'
            exact .operand halt hs hleaf
        · rw [hop.symbols_eq] at hchildren
          obtain _ | ⟨hl, _ | ⟨⟨hx⟩, _ | ⟨hr, ⟨⟩⟩⟩⟩ := hchildren
          simp only [Tree.leaves, Tree.leavesOfAll, List.length_append, List.length_singleton,
            List.length_nil] at hn
          exact .binary hop hx (ih _ (by omega) hl rfl) (ih _ (by omega) hr rfl)
  · intro ht
    induction ht with
    | operand halt hs hleaf =>
      refine .rule halt ?_
      rw [hs]
      refine .cons (.rule (by rw [h.size_operand]; exact Nat.zero_lt_one) ?_) .nil
      rw [h.symbols_operand]
      exact .cons (.token hleaf) .nil
    | binary hop hx _ _ ihl ihr =>
      refine .rule hop.lt_size ?_
      rw [hop.symbols_eq]
      exact .cons ihl (.cons (.token hx) (.cons ihr .nil))

end IsBinary

@[simp] theorem leaves_operandTree (g : Grammar) (operand : RuleId) (alt : Nat) (tok : Token) :
    (g.operandTree operand alt tok).leaves = [tok] := rfl

@[simp] theorem leaves_binaryTree (g : Grammar) (alt : Nat) (l : Tree) (optok : Token) (r : Tree) :
    (g.binaryTree alt l optok r).leaves = l.leaves ++ optok :: r.leaves := by
  simp [binaryTree, Tree.leaves, Tree.leavesOfAll]

section

variable {g : Grammar} {m : TerminalMatcher} {x : TerminalId} {alt : Nat} {op : Operator}

/-- An operator is open on both sides, so it clashes with another one if it binds too loosely. -/
theorem Between.clashes_iff (hg : g.WellFormed) (h : g.Between x alt op) {outer : Operator} {side : Side}
    {l r : Tree} {optok : Token} : g.Clashes outer side (g.binaryTree alt l optok r) ↔
      outer.tooLoose op side = true := by
  obtain ⟨hindex, hlength⟩ := h.index_eq hg
  have hopen : op.OpenTo 3 side := by cases side <;> simp [Operator.OpenTo, hindex]
  rw [binaryTree, Clashes, hlength, Operator.tooLoose_iff]
  constructor
  · rintro ⟨inner, hinner, -, hranks⟩
    obtain rfl := Option.some.inj (h.operator_eq.symm.trans hinner)
    exact hranks
  · exact fun hranks => ⟨op, h.operator_eq, hopen, hranks⟩

/-- A tree of an operator is clean if its operands are and do not clash with it. -/
theorem Between.clean_iff (hg : g.WellFormed) (h : g.Between x alt op) {l r : Tree} {optok : Token} :
    (g.binaryTree alt l optok r).Clean g ↔ (¬ g.Clashes op .left l ∧ ¬ g.Clashes op .right r) ∧
      l.Clean g ∧ r.Clean g := by
  obtain ⟨hindex, hlength⟩ := h.index_eq hg
  have hagrees : g.Agrees (g.binaryTree alt l optok r) ↔
      ¬ g.Clashes op .left l ∧ ¬ g.Clashes op .right r := by
    simp only [binaryTree, Agrees, h.operator_eq, hlength, Option.some.injEq, forall_eq']
    refine ⟨fun hall => ⟨hall .left 0 l ?_ rfl, hall .right 2 r ?_ rfl⟩, fun ⟨hl, hr⟩ side i t hi ht => ?_⟩
    · exact Operator.place?_left.2 (by simp [hindex])
    · exact Operator.place?_right.2 (by simp [hindex])
    · cases side with
      | left =>
        obtain ⟨-, rfl⟩ := Operator.place?_left.1 hi
        obtain rfl : l = t := by simpa [hindex] using ht
        exact hl
      | right =>
        obtain ⟨-, rfl⟩ := Operator.place?_right.1 hi
        obtain rfl : r = t := by simpa [hindex] using ht
        exact hr
  rw [← hagrees]
  refine and_congr_right fun _ => ?_
  simp only [Tree.EverywhereAll, Tree.Everywhere, true_and, and_true]
  exact and_congr_right fun _ => ⟨Tree.everywhere_shift _, Tree.everywhere_shift _⟩

end

namespace IsBinary

variable {g : Grammar} {operand : RuleId} {leaf : TerminalId} (h : g.IsBinary operand leaf)
  (hg : g.WellFormed) {m : TerminalMatcher}
include h hg

/-- An alternative with an operator is one of the first rule, with the operator between operands. -/
theorem between_of_operator {A : RuleId} {alt : Nat} (halt : alt < (g.rule A).alternatives.size)
    {op : Operator} (hop : (g.alternative A alt).operator = some op) :
    A = g.first ∧ ∃ t, g.Between t alt op := by
  have hmem := alternative_mem halt
  rw [hg.operator_eq _ _ hmem] at hop
  rcases h.symbols_cases hg hmem with ⟨-, hs⟩ | ⟨-, hs⟩ | ⟨t, rfl, hs⟩ | ⟨t, hs, name, pattern, hclass⟩
  · rw [hs] at hop
    cases hop
  · rw [hs] at hop
    cases hop
  · exact ⟨rfl, t, halt, hs, (hg.operator_eq _ _ hmem).trans hop⟩
  · rw [hs, GrammarBuilder.operatorAmong, precedence?_of_class hclass] at hop
    cases hop

/-- The terminal of an operator is not that of the operands. -/
theorem leaf_ne {t : TerminalId} {alt : Nat} {op : Operator} (hop : g.Between t alt op) : t ≠ leaf := by
  rintro rfl
  obtain ⟨t', name, pattern, hs, hclass⟩ := h.classes operand (h.operand_ne_start hg)
    (h.operand_ne hg).1 _ (alternative_mem (by rw [h.size_operand]; exact Nat.zero_lt_one))
  obtain rfl : t = t' := by simpa [h.symbols_operand] using hs
  have hoperator := hop.operator_eq
  rw [hg.operator_eq _ _ (alternative_mem hop.lt_size), hop.symbols_eq] at hoperator
  simp [GrammarBuilder.operatorAmong, precedence?_of_class hclass] at hoperator

/-- Operands have no operator. -/
theorem operator_eq_none : (∀ alt < (g.rule g.first).alternatives.size,
      (g.alternative g.first alt).symbols = [.rule operand] →
      (g.alternative g.first alt).operator = none) ∧ (g.alternative operand 0).operator = none := by
  constructor
  · intro alt halt hs
    rw [hg.operator_eq _ _ (alternative_mem halt), hs]
    rfl
  · refine Option.eq_none_iff_forall_ne_some.2 fun op hop => ?_
    exact (h.operand_ne hg).1
      (h.between_of_operator hg (by rw [h.size_operand]; exact Nat.zero_lt_one) hop).1

theorem clean_operandTree {alt : Nat} {tok : Token} (halt : alt < (g.rule g.first).alternatives.size)
    (hs : (g.alternative g.first alt).symbols = [.rule operand]) :
    (g.operandTree operand alt tok).Clean g := by
  obtain ⟨hnone, hnone'⟩ := h.operator_eq_none hg
  exact ⟨agrees_of_operator_eq_none (hnone alt halt hs),
    ⟨agrees_of_operator_eq_none hnone', trivial, trivial⟩, trivial⟩

/-- An operand clashes with nothing. -/
theorem not_clashes_operandTree {alt : Nat} {tok : Token}
    (halt : alt < (g.rule g.first).alternatives.size)
    (hs : (g.alternative g.first alt).symbols = [.rule operand]) {outer : Operator} {side : Side} :
    ¬ g.Clashes outer side (g.operandTree operand alt tok) :=
  not_clashes_of_operator_eq_none ((h.operator_eq_none hg).1 alt halt hs)

omit hg in
/-- A token that satisfies one terminal is one operator at most. -/
theorem between_unique {tok : Token} (hone : ∃ x, m.matching tok = [x]) {x x' : TerminalId}
    {alt alt' : Nat} {op op' : Operator} (hop : g.Between x alt op) (hx : x ∈ m.matching tok)
    (hop' : g.Between x' alt' op') (hx' : x' ∈ m.matching tok) : alt' = alt ∧ op' = op := by
  obtain ⟨y, hy⟩ := hone
  rw [hy, List.mem_singleton] at hx hx'
  subst hx hx'
  obtain rfl := h.distinct _ hop.lt_size _ hop'.lt_size (hop.symbols_eq.trans hop'.symbols_eq.symm)
  exact ⟨rfl, Option.some.inj (hop'.operator_eq.symm.trans hop.operator_eq)⟩

/-- No operand is an operator. -/
theorem not_isOperator {tok : Token} (hone : ∃ x, m.matching tok = [x]) (hleaf : leaf ∈ m.matching tok)
    {op : Operator} : ¬ g.IsOperator m tok op := by
  rintro ⟨x, alt, hop, hx⟩
  obtain ⟨y, hy⟩ := hone
  rw [hy, List.mem_singleton] at hx hleaf
  exact h.leaf_ne hg hop (hx.trans hleaf.symm)

variable {t t' : Tree}

/-- An operand does not clash with an operator if it contains none that binds too loosely for it. -/
theorem not_clashes_iff (ht : g.Grouping m operand leaf t) (hclean : t.Clean g)
    (hone : ∀ tok ∈ t.leaves, ∃ x, m.matching tok = [x]) {outer : Operator} {side : Side} :
    ¬ g.Clashes outer side t ↔
      ∀ tok ∈ t.leaves, ∀ op, g.IsOperator m tok op → outer.tooLoose op side = false := by
  induction ht generalizing outer side with
  | @operand alt tok halt hs hleaf =>
    refine iff_of_true (h.not_clashes_operandTree hg halt hs) fun tok' htok' op hop => ?_
    obtain rfl : tok' = tok := by simpa using htok'
    exact absurd hop (h.not_isOperator hg (hone tok' htok') hleaf)
  | @binary x alt op l r optok hop hx hl hr ihl ihr =>
    obtain ⟨⟨hcl, hcr⟩, hcleanl, hcleanr⟩ := (hop.clean_iff hg).1 hclean
    simp only [leaves_binaryTree, List.mem_append, List.mem_cons] at hone ⊢
    rw [ihl hcleanl fun tok htok => hone tok (.inl htok)] at hcl
    rw [ihr hcleanr fun tok htok => hone tok (.inr (.inr htok))] at hcr
    rw [hop.clashes_iff hg, Bool.not_eq_true]
    -- all operators of the operands bind at least as tightly as the one between them
    constructor
    · rintro hloose tok (htok | rfl | htok) op' hop'
      · exact Operator.tooLoose_eq_false_of_le hloose
          (Operator.tooLoose_eq_false_iff.1 (hcl tok htok op' hop')).1
      · obtain ⟨x', alt', hop', hx'⟩ := hop'
        rwa [(h.between_unique (hone tok (.inr (.inl rfl))) hop hx hop' hx').2]
      · exact Operator.tooLoose_eq_false_of_le hloose
          (Operator.tooLoose_eq_false_iff.1 (hcr tok htok op' hop')).1
    · exact fun hall => hall optok (.inr (.inl rfl)) op ⟨x, alt, hop, hx⟩

/-- The operators in the operands of a clean tree do not bind too loosely. -/
theorem tooLoose_of_clean {x : TerminalId} {alt : Nat} {op : Operator} (hop : g.Between x alt op)
    {l r : Tree} {optok : Token} (hl : g.Grouping m operand leaf l) (hr : g.Grouping m operand leaf r)
    (hclean : (g.binaryTree alt l optok r).Clean g)
    (hone : ∀ tok ∈ l.leaves ++ optok :: r.leaves, ∃ x, m.matching tok = [x]) :
    (∀ tok ∈ l.leaves, ∀ op', g.IsOperator m tok op' → op.tooLoose op' .left = false) ∧
      ∀ tok ∈ r.leaves, ∀ op', g.IsOperator m tok op' → op.tooLoose op' .right = false := by
  obtain ⟨⟨hcl, hcr⟩, hcleanl, hcleanr⟩ := (hop.clean_iff hg).1 hclean
  exact ⟨(h.not_clashes_iff hg hl hcleanl fun tok ht => hone tok (by simp [ht])).1 hcl,
    (h.not_clashes_iff hg hr hcleanr fun tok ht => hone tok (by simp [ht])).1 hcr⟩

/-- No tokens have two clean trees. -/
theorem clean_unique (ht : g.Grouping m operand leaf t) (ht' : g.Grouping m operand leaf t')
    (hclean : t.Clean g) (hclean' : t'.Clean g)
    (hone : ∀ tok ∈ t.leaves, ∃ x, m.matching tok = [x]) (hleaves : t'.leaves = t.leaves) : t' = t := by
  induction ht generalizing t' with
  | @operand alt tok halt hs hleaf =>
    cases ht' with
    | @operand alt' tok' halt' hs' hleaf' =>
      obtain rfl : tok' = tok := by simpa using hleaves
      rw [h.distinct alt' halt' alt halt (hs'.trans hs.symm)]
    | @binary x _ op l r optok hop hx _ _ =>
      obtain rfl : optok = tok := List.eq_of_append_cons_eq_singleton (by simpa using hleaves)
      exact absurd ⟨x, _, hop, hx⟩ (h.not_isOperator hg (hone optok (by simp)) hleaf)
  | @binary x alt op l r optok hop hx hl hr ihl ihr =>
    cases ht' with
    | @operand alt' tok' halt' hs' hleaf =>
      obtain rfl : optok = tok' := List.eq_of_append_cons_eq_singleton (by simpa using hleaves.symm)
      exact absurd ⟨x, alt, hop, hx⟩ (h.not_isOperator hg (hone optok (by simp)) hleaf)
    | @binary x' alt' op' l' r' optok' hop' hx' hl' hr' =>
      simp only [leaves_binaryTree] at hone hleaves
      have hloose := h.tooLoose_of_clean hg hop hl hr hclean hone
      have hloose' := h.tooLoose_of_clean hg hop' hl' hr' hclean' (hleaves ▸ hone)
      obtain ⟨-, hcleanl, hcleanr⟩ := (hop.clean_iff hg).1 hclean
      obtain ⟨-, hcleanl', hcleanr'⟩ := (hop'.clean_iff hg).1 hclean'
      have hassociativity := h.associativity_eq hop hop'
      -- where the trees are cut at different operators, either one is in an operand of the other
      rcases List.append_cons_eq_append_cons hleaves with ⟨hleft, rfl, hright⟩ | ⟨zs, hleft, hright⟩ |
        ⟨zs, hleft, hright⟩
      · obtain ⟨rfl, -⟩ := h.between_unique (hone optok' (by simp)) hop hx hop' hx'
        rw [ihl hl' hcleanl hcleanl' (fun tok ht => hone tok (by simp [ht])) hleft,
          ihr hr' hcleanr hcleanr' (fun tok ht => hone tok (by simp [ht])) hright]
      · exact (Operator.not_tooLoose_both (fun he => (hassociativity he.symm).symm)
          (hloose'.2 optok (by simp [hright]) op ⟨x, alt, hop, hx⟩)
          (hloose.1 optok' (by simp [hleft]) op' ⟨x', alt', hop', hx'⟩)).elim
      · exact (Operator.not_tooLoose_both hassociativity
          (hloose.2 optok' (by simp [hright]) op' ⟨x', alt', hop', hx'⟩)
          (hloose'.1 optok (by simp [hleft]) op ⟨x, alt, hop, hx⟩)).elim

/-- What stands before and after an operator in a clean tree has a clean tree. -/
theorem exists_clean_of_append (ht : g.Grouping m operand leaf t) (hclean : t.Clean g)
    (hone : ∀ tok ∈ t.leaves, ∃ x, m.matching tok = [x]) {us vs : List Token} {tok : Token}
    {op : Operator} (hleaves : t.leaves = us ++ tok :: vs) (hop : g.IsOperator m tok op) :
    (∃ t, g.Grouping m operand leaf t ∧ t.Clean g ∧ t.leaves = us) ∧
      ∃ t, g.Grouping m operand leaf t ∧ t.Clean g ∧ t.leaves = vs := by
  induction ht generalizing us vs with
  | @operand alt tok' halt hs hleaf =>
    obtain rfl : tok = tok' := List.eq_of_append_cons_eq_singleton (by simpa using hleaves.symm)
    exact absurd hop (h.not_isOperator hg (hone tok (by simp)) hleaf)
  | @binary x alt op l r optok hop' hx hl hr ihl ihr =>
    simp only [leaves_binaryTree] at hone hleaves
    obtain ⟨hloosel, hlooser⟩ := h.tooLoose_of_clean hg hop' hl hr hclean hone
    obtain ⟨⟨hcl, hcr⟩, hcleanl, hcleanr⟩ := (hop'.clean_iff hg).1 hclean
    have honel : ∀ tok ∈ l.leaves, ∃ x, m.matching tok = [x] := fun tok ht => hone tok (by simp [ht])
    have honer : ∀ tok ∈ r.leaves, ∃ x, m.matching tok = [x] := fun tok ht => hone tok (by simp [ht])
    rcases List.append_cons_eq_append_cons hleaves with ⟨rfl, -, rfl⟩ | ⟨zs, rfl, hright⟩ |
      ⟨zs, hleft, rfl⟩
    · exact ⟨⟨l, hl, hcleanl, rfl⟩, r, hr, hcleanr, rfl⟩
    · -- the operator is in the right operand, of which a part is left
      obtain ⟨⟨r', hr', hcleanr', rfl⟩, hafter⟩ := ihr hcleanr honer hright
      have hsub : ∀ tok ∈ r'.leaves, tok ∈ r.leaves := fun tok ht => by simp [hright, ht]
      refine ⟨⟨_, .binary hop' hx hl hr', (hop'.clean_iff hg).2 ⟨⟨hcl, ?_⟩, hcleanl, hcleanr'⟩,
        leaves_binaryTree ..⟩, hafter⟩
      exact (h.not_clashes_iff hg hr' hcleanr' fun tok ht => honer tok (hsub tok ht)).2
        fun tok ht => hlooser tok (hsub tok ht)
    · obtain ⟨hbefore, l', hl', hcleanl', rfl⟩ := ihl hcleanl honel hleft
      have hsub : ∀ tok ∈ l'.leaves, tok ∈ l.leaves := fun tok ht => by simp [hleft, ht]
      refine ⟨hbefore, _, .binary hop' hx hl' hr, (hop'.clean_iff hg).2 ⟨⟨?_, hcr⟩, hcleanl', hcleanr⟩,
        leaves_binaryTree ..⟩
      exact (h.not_clashes_iff hg hl' hcleanl' fun tok ht => honel tok (hsub tok ht)).2
        fun tok ht => hloosel tok (hsub tok ht)

end IsBinary

end Grammar

end ParseForest
