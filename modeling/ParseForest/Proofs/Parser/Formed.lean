import ParseForest.Proofs.Forest.Fragments
import ParseForest.Proofs.Parser.Shape

/-!
# Forests under construction

What the arena of a parse looks like at any time (`ParseInput.Formed`): the fragments that derive
nothing, and after them nodes that the parse has made, no two of them of one kind and span, with
alternatives of the right shape. There are two ways to build on: a choice or leaf is made
(`Formed.push`), or a choice gets an alternative (`Formed.withAlternative`).
-/

namespace ParseForest

variable {σ : Type}

/-- A node that is made during a parse: not one of the fragments that derive nothing. -/
def Node.IsMade (n : Node) : Prop :=
  match n.kind with
  | .symbol _ => ∃ l r, n.span = some ⟨l, r⟩ ∧ l < r
  | .intermediate _ _ _ => ∃ l r, n.span = some ⟨l, r⟩ ∧ l < r
  | .terminal i => n.span = some ⟨i, i + 1⟩ ∧ n.children = #[]
  | .packed _ _ => n.span = none
  | .epsilon => False
  | .nulled _ _ _ => False

namespace ParseInput

variable (input : ParseInput σ)

/-- A node stands for the symbols of an alternative from `dot` on. -/
def IsTail (nodes : Arena) (A : RuleId) (alt dot l r : Nat) (id : NodeId) : Prop :=
  Arena.IsTail input.grammar input.compiled.matcher input.tokens input.compiled.epsilon nodes A alt
    dot l r id

/-- Children stand for the symbols of an alternative from `dot` on. -/
def Holds (nodes : Arena) (A : RuleId) (alt dot l r : Nat) (children : Children) : Prop :=
  Arena.Holds input.grammar input.compiled.matcher input.tokens input.compiled.epsilon nodes A alt
    dot l r children

/-- The arena is backed by the tokens and begins with the fragments that derive nothing; no two of
the nodes made after them are of one kind and span, and their alternatives have the right shape. -/
structure Formed (nodes : Arena) : Prop where
  backed : Arena.Backed input.grammar input.compiled.matcher input.tokens nodes
  size_le : input.compiled.epsilon.nodes.size ≤ nodes.size
  fragment : ∀ id < input.compiled.epsilon.nodes.size,
    Arena.node nodes id = Arena.node input.compiled.epsilon.nodes id
  made : ∀ id, input.compiled.epsilon.nodes.size ≤ id → id < nodes.size →
    (Arena.node nodes id).IsMade
  unique : ∀ id id' s, (Arena.node nodes id).span = some s → (Arena.node nodes id').span = some s →
    (Arena.node nodes id).kind = (Arena.node nodes id').kind → id = id'
  shaped : ∀ id s, (Arena.node nodes id).isChoice = true →
    (Arena.node nodes id).span = some s → ∀ p ∈ Arena.childrenOf nodes id,
    ∃ A alt dot children, Arena.Owns input.grammar nodes id A alt dot s.left s.right ∧
      Arena.node nodes p = Arena.alternativeNode A alt children ∧
      input.Holds nodes A alt dot s.left s.right children
  inner : ∀ p, (Arena.node nodes p).isPacked = true → ∀ c ∈ Arena.childrenOf nodes p,
    (Arena.node nodes c).isPacked = false

end ParseInput

variable {input : ParseInput σ} {nodes nodes' : Arena}

theorem ParseInput.IsTail.grows {A : RuleId} {alt dot l r : Nat} {id : NodeId}
    (h : input.IsTail nodes A alt dot l r id) (hg : nodes.Grows nodes') :
    input.IsTail nodes' A alt dot l r id := Arena.IsTail.grows h hg

theorem ParseInput.Holds.grows {A : RuleId} {alt dot l r : Nat} {children : Children}
    (h : input.Holds nodes A alt dot l r children) (hg : nodes.Grows nodes') :
    input.Holds nodes' A alt dot l r children := Arena.Holds.grows h hg

namespace ParseInput.Formed

theorem base (h : input.Formed nodes) : input.compiled.epsilon.nodes.Grows nodes :=
  ⟨h.size_le, fun id hid => by rw [h.fragment id hid], fun id hid => by rw [h.fragment id hid],
    fun id hid _ => h.fragment id hid, fun id hid => by
      have heq : Arena.childrenOf nodes id = Arena.childrenOf input.compiled.epsilon.nodes id := by
        rw [Arena.childrenOf, Arena.childrenOf, h.fragment id hid]
      exact heq ▸ List.prefix_rfl⟩

/-- What an alternative of a symbol node over tokens holds. -/
theorem holds_of_mem (h : input.Formed nodes) {id p : NodeId} {A : RuleId} {s : Span}
    (hk : (Arena.node nodes id).kind = .symbol A) (hs : (Arena.node nodes id).span = some s)
    (hp : p ∈ Arena.childrenOf nodes id) : ∃ alt < (input.grammar.rule A).alternatives.size,
      ∃ children, Arena.node nodes p = Arena.alternativeNode A alt children ∧
        input.Holds nodes A alt 0 s.left s.right children := by
  obtain ⟨B, alt, dot, children, ⟨⟨hk', hdot, halt⟩ | hk', -⟩, hnode, hh⟩ :=
    h.shaped id s (by rw [Node.isChoice, hk]) hs p hp
  · obtain rfl := NodeKind.symbol.inj (hk.symm.trans hk')
    subst hdot
    exact ⟨alt, halt, children, hnode, hh⟩
  · cases hk.symm.trans hk'

end ParseInput.Formed

/-! ## Fragments -/

section Fragments

variable {g : Grammar} {ε : EpsilonForest} (hε : ε.Laid g)
include hε

/-- The fragment of a rule has an alternative. -/
theorem EpsilonForest.Laid.alive (hg : g.WellFormed) {A : RuleId} {id : NodeId}
    (hid : ε.symbol? A = some id) : ε.nodes.Alive id := by
  intro _ hnil
  have hnull : g.isNullable A = true := by
    rw [← hε.symbol?_isSome, hid]
    rfl
  obtain ⟨a, ha, hn⟩ := Grammar.nullable_rule_iff.1 ((hg.isNullable_iff A).1 hnull)
  obtain ⟨alt, halt, rfl⟩ := Grammar.mem_alternatives_iff.1 ha
  obtain ⟨p, hp, -⟩ := hε.exists_packed hg hid halt hn
  rw [hnil] at hp
  cases hp

end Fragments

/-- What has a span was made during the parse. -/
theorem ParseInput.Formed.size_le_of_span (h : input.Formed nodes)
    (hε : input.compiled.epsilon.Laid input.grammar) {id : NodeId} {s : Span}
    (hs : (Arena.node nodes id).span = some s) : input.compiled.epsilon.nodes.size ≤ id := by
  by_contra hlt
  rw [Nat.not_le] at hlt
  rw [h.fragment id hlt, hε.span_eq_none hlt] at hs
  cases hs

/-- Only choices and leaves have a span. -/
theorem ParseInput.Formed.kind_of_span (h : input.Formed nodes)
    (hε : input.compiled.epsilon.Laid input.grammar) {id : NodeId} {s : Span}
    (hs : (Arena.node nodes id).span = some s) :
    (∃ A, (Arena.node nodes id).kind = .symbol A ∧ s.left < s.right) ∨
    (∃ A alt dot, (Arena.node nodes id).kind = .intermediate A alt dot ∧ s.left < s.right) ∨
    ∃ i, (Arena.node nodes id).kind = .terminal i ∧ s = ⟨i, i + 1⟩ := by
  have hlt : id < nodes.size := by
    by_contra hge
    rw [Arena.node_of_size_le (Nat.not_lt.1 hge)] at hs
    cases hs
  have hm := h.made id (h.size_le_of_span hε hs) hlt
  rw [Node.IsMade] at hm
  split at hm
  · rename_i A hk
    obtain ⟨l, r, hs', hlr⟩ := hm
    obtain rfl := Option.some.inj (hs.symm.trans hs')
    exact .inl ⟨A, hk, hlr⟩
  · rename_i A alt dot hk
    obtain ⟨l, r, hs', hlr⟩ := hm
    obtain rfl := Option.some.inj (hs.symm.trans hs')
    exact .inr (.inl ⟨A, alt, dot, hk, hlr⟩)
  · rename_i i hk
    exact .inr (.inr ⟨i, hk, Option.some.inj (hs.symm.trans hm.1)⟩)
  · rw [hm] at hs
    cases hs
  · exact hm.elim
  · exact hm.elim

/-- What has a span is not empty. -/
theorem ParseInput.Formed.lt_of_span (h : input.Formed nodes)
    (hε : input.compiled.epsilon.Laid input.grammar) {id : NodeId} {s : Span}
    (hs : (Arena.node nodes id).span = some s) : s.left < s.right := by
  rcases h.kind_of_span hε hs with ⟨_, -, hlt⟩ | ⟨_, _, _, -, hlt⟩ | ⟨i, -, rfl⟩
  · exact hlt
  · exact hlt
  · exact Nat.lt_succ_self i

/-- The node of a token spans it and has no children. -/
theorem ParseInput.Formed.leaf (h : input.Formed nodes)
    (hε : input.compiled.epsilon.Laid input.grammar) {id i : Nat}
    (hk : (Arena.node nodes id).kind = .terminal i) :
    (Arena.node nodes id).span = some ⟨i, i + 1⟩ ∧ Arena.childrenOf nodes id = [] := by
  have hle : input.compiled.epsilon.nodes.size ≤ id := by
    by_contra hlt
    rw [Nat.not_le] at hlt
    rw [h.fragment id hlt] at hk
    rcases hε.kind_cases hlt with hk' | ⟨A, -, hk'⟩ | ⟨A, alt, hk'⟩ | ⟨A, alt, dot, hk'⟩ <;>
      cases hk.symm.trans hk'
  have hm := h.made id hle (Arena.lt_size_of_kind (by rw [hk]; simp))
  rw [Node.IsMade, hk] at hm
  exact ⟨hm.1, by rw [Arena.childrenOf, hm.2]⟩

/-- A leaf is of one of the tokens. -/
theorem ParseInput.Formed.lt_length_of_terminal (h : input.Formed nodes) {id i : NodeId}
    (hk : (Arena.node nodes id).kind = .terminal i) : i < input.tokens.length := by
  have := h.backed.spelled id
  rw [Arena.IsSpelled, hk] at this
  exact this

/-- What an alternative of a choice that spans tokens holds. -/
theorem ParseInput.Formed.holds_of_hasAlternative (h : input.Formed nodes) {id : NodeId} {A : RuleId}
    {alt : Nat} {children : Children} {s : Span} (ha : nodes.HasAlternative id A alt children)
    (hs : (Arena.node nodes id).span = some s) :
    ∃ dot, Arena.Owns input.grammar nodes id A alt dot s.left s.right ∧
      input.Holds nodes A alt dot s.left s.right children := by
  obtain ⟨hc, p, hp, hnode⟩ := ha
  obtain ⟨A', alt', dot, children', ho, hnode', hh⟩ := h.shaped id s hc hs p hp
  obtain ⟨rfl, rfl, rfl⟩ := Arena.alternativeNode_inj.1 (hnode.symm.trans hnode')
  exact ⟨dot, ho, hh⟩

/-- The alternatives of a symbol node are of its rule. -/
theorem ParseInput.Formed.rule_eq (h : input.Formed nodes) {id : NodeId} {A B : RuleId}
    {alt : Nat} {children : Children} {s : Span} (hk : (Arena.node nodes id).kind = .symbol A)
    (hs : (Arena.node nodes id).span = some s) (ha : nodes.HasAlternative id B alt children) :
    B = A := by
  obtain ⟨dot, ⟨⟨hk', -⟩ | hk', -⟩, -⟩ := h.holds_of_hasAlternative ha hs
  · exact (NodeKind.symbol.inj (hk.symm.trans hk')).symm
  · exact absurd (hk.symm.trans hk') (by simp)

/-- A choice without a span is the fragment of a rule. -/
theorem ParseInput.Formed.fragment_of_span_none (h : input.Formed nodes)
    (hε : input.compiled.epsilon.Laid input.grammar) {id : NodeId}
    (hc : (Arena.node nodes id).isChoice = true) (hs : (Arena.node nodes id).span = none) :
    ∃ A, input.compiled.epsilon.symbol? A = some id := by
  have hlt : id < input.compiled.epsilon.nodes.size := by
    by_contra hge
    have hm := h.made id (Nat.not_lt.1 hge) (Arena.lt_size_of_isChoice hc)
    rcases Node.isChoice_iff.1 hc with ⟨A, hk⟩ | ⟨A, alt, dot, hk⟩ <;>
    · rw [Node.IsMade, hk, hs] at hm
      obtain ⟨l, r, hs', -⟩ := hm
      cases hs'
  rw [h.fragment id hlt] at hc
  rcases hε.kind_cases hlt with hk | ⟨A, hA, -⟩ | ⟨A, alt, hk⟩ | ⟨A, alt, dot, hk⟩
  · simp [Node.isChoice, hk] at hc
  · exact ⟨A, hA⟩
  · simp [Node.isChoice, hk] at hc
  · simp [Node.isChoice, hk] at hc

/-- So it is a node of this rule. -/
theorem ParseInput.Formed.kind_of_span_none (h : input.Formed nodes)
    (hε : input.compiled.epsilon.Laid input.grammar) {id : NodeId}
    (hc : (Arena.node nodes id).isChoice = true) (hs : (Arena.node nodes id).span = none) :
    ∃ A, (Arena.node nodes id).kind = .symbol A ∧ input.compiled.epsilon.symbol? A = some id := by
  obtain ⟨A, hA⟩ := h.fragment_of_span_none hε hc hs
  obtain ⟨hlt, hk, -⟩ := hε.symbol A id hA
  exact ⟨A, (congrArg Node.kind (h.fragment id hlt)).trans hk, hA⟩

/-- The node of a rule that has no span is the fragment of the rule. -/
theorem ParseInput.Formed.symbol?_of_span_none (h : input.Formed nodes)
    (hε : input.compiled.epsilon.Laid input.grammar) {id : NodeId} {A : RuleId}
    (hk : (Arena.node nodes id).kind = .symbol A) (hs : (Arena.node nodes id).span = none) :
    input.compiled.epsilon.symbol? A = some id := by
  obtain ⟨B, hB, hsymbol⟩ := h.kind_of_span_none hε (by rw [Node.isChoice, hk]) hs
  obtain rfl := NodeKind.symbol.inj (hk.symm.trans hB)
  exact hsymbol

/-- The children of a choice are packed. -/
theorem ParseInput.Formed.isPacked (h : input.Formed nodes)
    (hε : input.compiled.epsilon.Laid input.grammar) {id p : NodeId}
    (hc : (Arena.node nodes id).isChoice = true) (hp : p ∈ Arena.childrenOf nodes id) :
    (Arena.node nodes p).isPacked = true := by
  cases hs : (Arena.node nodes id).span with
  | some s =>
    obtain ⟨A, alt, dot, children, -, hnode, -⟩ := h.shaped id s hc hs p hp
    rw [hnode]
    rfl
  | none =>
    obtain ⟨A, hA⟩ := h.fragment_of_span_none hε hc hs
    obtain ⟨hlt, -, -, hall⟩ := hε.symbol A id hA
    rw [Arena.childrenOf, h.fragment id hlt] at hp
    obtain ⟨alt, -, hplt, hnode⟩ := List.exists_right_of_forall₂ hall hp
    rw [h.fragment p hplt, hnode]
    rfl

/-- The trees of a well-formed arena remain while it grows. -/
theorem ParseInput.Formed.reads_grows (h : input.Formed nodes)
    (hε : input.compiled.epsilon.Laid input.grammar) (hg : nodes.Grows nodes') :
    (∀ id t, nodes.Reads input.grammar input.tokens id t →
      nodes'.Reads input.grammar input.tokens id t) ∧
    ∀ cs ts, nodes.ReadsAll input.grammar input.tokens cs ts → (∀ c ∈ cs, c < nodes.size) →
      nodes'.ReadsAll input.grammar input.tokens cs ts :=
  Arena.reads_grows h.backed.closed (fun _ hc _ hmem => h.isPacked hε hc hmem) hg

theorem ParseInput.Formed.productive_grows (h : input.Formed nodes)
    (hε : input.compiled.epsilon.Laid input.grammar) {id : NodeId}
    (hp : nodes.Productive input.grammar input.tokens id) (hid : id < nodes.size)
    (hg : nodes.Grows nodes') : nodes'.Productive input.grammar input.tokens id :=
  hp.grows h.backed.closed (fun _ hc _ hmem => h.isPacked hε hc hmem) hid hg

/-- A choice or leaf is made, of a kind and span of which there is none. -/
theorem ParseInput.Formed.push (h : input.Formed nodes) {n : Node} (hc : n.children = #[])
    (hmade : n.IsMade)
    (hsp : Arena.IsSpelled input.grammar input.compiled.matcher input.tokens n)
    (hnew : ∀ id s, (Arena.node nodes id).kind = n.kind → (Arena.node nodes id).span = some s →
      n.span ≠ some s) : input.Formed (nodes.push n) := by
  have hgrows := Arena.grows_push nodes n
  have hne : ∀ A alt dot, n.kind ≠ .nulled A alt dot := by
    intro A alt dot hk
    rw [Node.IsMade, hk] at hmade
    exact hmade
  have hcases : ∀ {id}, id < (nodes.push n).size → (id < nodes.size ∧
      Arena.node (nodes.push n) id = Arena.node nodes id) ∨
      (id = nodes.size ∧ Arena.node (nodes.push n) id = n) := by
    intro id hlt
    rcases Nat.lt_or_eq_of_le (Nat.le_of_lt_succ (Array.size_push n ▸ hlt)) with hlt | rfl
    · exact .inl ⟨hlt, Arena.node_push_lt hlt⟩
    · exact .inr ⟨rfl, Arena.node_push_size n⟩
  have hspan : ∀ {id s}, (Arena.node (nodes.push n) id).span = some s →
      id < (nodes.push n).size := by
    intro id s hs
    by_contra hge
    rw [Arena.node_of_size_le (Nat.not_lt.1 hge)] at hs
    cases hs
  refine ⟨h.backed.push (.inr ⟨hc, hne⟩) (by simp [hc]) hsp,
    Nat.le_trans h.size_le hgrows.size_le, fun id hid => ?_, fun id hle hid => ?_,
    fun id id' s hs hs' hk => ?_, fun id s hch hs p hp => ?_, fun p hp c hcp => ?_⟩
  · rw [Arena.node_push_lt (Nat.lt_of_lt_of_le hid h.size_le), h.fragment id hid]
  · rcases hcases hid with ⟨hlt, he⟩ | ⟨-, he⟩ <;> rw [he]
    · exact h.made id hle hlt
    · exact hmade
  · rcases hcases (hspan hs) with ⟨hlt, he⟩ | ⟨heq, he⟩ <;>
      rcases hcases (hspan hs') with ⟨hlt', he'⟩ | ⟨heq', he'⟩ <;> rw [he] at hs hk <;>
      rw [he'] at hs' hk
    · exact h.unique id id' s hs hs' hk
    · exact absurd hs' (hnew id s hk hs)
    · exact absurd hs (hnew id' s hk.symm hs')
    · rw [heq, heq']
  · rcases hcases (hspan hs) with ⟨hlt, he⟩ | ⟨-, he⟩
    · rw [he] at hch hs
      rw [Arena.childrenOf, he] at hp
      obtain ⟨A, alt, dot, children, ho, hnode, hh⟩ := h.shaped id s hch hs p hp
      refine ⟨A, alt, dot, children, ho.grows hgrows, ?_, hh.grows hgrows⟩
      rw [Arena.node_push_lt (h.backed.closed id p hp), hnode]
    · rw [Arena.childrenOf, he, hc] at hp
      cases hp
  · rcases hcases (Arena.lt_size_of_isPacked hp) with ⟨hlt, he⟩ | ⟨-, he⟩
    · rw [he] at hp
      rw [Arena.childrenOf, he] at hcp
      rw [Arena.node_push_lt (h.backed.closed p c hcp)]
      exact h.inner p hp c hcp
    · rw [Arena.childrenOf, he, hc] at hcp
      cases hcp

/-- A choice gets an alternative. -/
theorem ParseInput.Formed.withAlternative (h : input.Formed nodes)
    (hε : input.compiled.epsilon.Laid input.grammar) {owner : NodeId} {A : RuleId}
    {alt dot l r : Nat} {children : Children}
    (ho : Arena.Owns input.grammar nodes owner A alt dot l r)
    (hh : input.Holds nodes A alt dot l r children) :
    input.Formed (nodes.withAlternative owner A alt children) := by
  have hlt := ho.lt_size
  have hgrows : nodes.Grows (nodes.withAlternative owner A alt children) :=
    Arena.grows_withAlternative hlt ho.isChoice
  have hspan : ∀ {id s}, (Arena.node (nodes.withAlternative owner A alt children) id).span = some s →
      id < nodes.size ∧ (Arena.node nodes id).span = some s := by
    intro id s hs
    have hid : id < nodes.size + 1 := by
      by_contra hge
      rw [Arena.node_of_size_le (by rw [Arena.size_withAlternative]; exact Nat.not_lt.1 hge)] at hs
      cases hs
    rcases Nat.lt_or_eq_of_le (Nat.le_of_lt_succ hid) with hid | rfl
    · exact ⟨hid, hgrows.span_eq id hid ▸ hs⟩
    · rw [Arena.node_withAlternative_size hlt] at hs
      cases hs
  refine ⟨h.backed.withAlternative hε h.base ho hh, Nat.le_trans h.size_le hgrows.size_le,
    fun id hid => ?_, fun id hle hid => ?_, fun id id' s hs hs' hk => ?_, fun id s hch hs p hp => ?_,
    fun p hp c hcp => ?_⟩
  · refine (Arena.node_withAlternative_ne ?_ (Nat.lt_of_lt_of_le hid h.size_le)).trans
      (h.fragment id hid)
    rintro rfl
    exact Nat.not_le.2 hid (h.size_le_of_span hε ho.2)
  · rw [Arena.size_withAlternative] at hid
    rcases Nat.lt_or_eq_of_le (Nat.le_of_lt_succ hid) with hid | rfl
    · have hm := h.made id hle hid
      cases hc : (Arena.node nodes id).isChoice with
      | false =>
        rwa [hgrows.node_eq id hid (by rw [hc]; exact Bool.false_ne_true)]
      | true =>
        rw [Node.IsMade, hgrows.kind_eq id hid, hgrows.span_eq id hid]
        rcases Node.isChoice_iff.1 hc with ⟨B, hk⟩ | ⟨B, alt', dot', hk⟩ <;>
        · rw [Node.IsMade, hk] at hm
          rw [hk]
          exact hm
    · rw [Arena.node_withAlternative_size hlt]
      rfl
  · obtain ⟨hid, hs⟩ := hspan hs
    obtain ⟨hid', hs'⟩ := hspan hs'
    rw [hgrows.kind_eq id hid, hgrows.kind_eq id' hid'] at hk
    exact h.unique id id' s hs hs' hk
  · rw [Arena.isChoice_withAlternative] at hch
    have hs₀ := (hspan hs).2
    rcases (Arena.mem_children_withAlternative_iff hlt hch).1 hp with hp | ⟨rfl, rfl⟩
    · obtain ⟨B, alt', dot', children', ho', hnode, hh'⟩ := h.shaped id s hch hs₀ p hp
      refine ⟨B, alt', dot', children', ho'.grows hgrows, ?_, hh'.grows hgrows⟩
      rw [hgrows.node_eq p (h.backed.closed id p hp) (by rw [hnode]; exact Bool.false_ne_true)]
      exact hnode
    · obtain rfl : ⟨l, r⟩ = s := Option.some.inj (ho.2.symm.trans hs₀)
      exact ⟨A, alt, dot, children, ho.grows hgrows, Arena.node_withAlternative_size hlt,
        hh.grows hgrows⟩
  · have hkind : ∀ {c}, c < nodes.size → (Arena.node nodes c).isPacked = false →
        (Arena.node (nodes.withAlternative owner A alt children) c).isPacked = false := by
      intro c hc hnot
      rwa [Node.isPacked, hgrows.kind_eq c hc]
    rcases Nat.lt_or_eq_of_le (Nat.le_of_lt_succ (Arena.size_withAlternative ▸
      Arena.lt_size_of_isPacked hp)) with hpl | rfl
    · have hne : owner ≠ p := by
        rintro rfl
        rw [Node.isPacked, hgrows.kind_eq _ hpl] at hp
        have hch := ho.isChoice
        obtain ⟨B, alt', hk⟩ := Node.isPacked_iff.1 hp
        rw [Node.isChoice, hk] at hch
        cases hch
      rw [Arena.node_withAlternative_ne hne hpl] at hp
      rw [Arena.childrenOf, Arena.node_withAlternative_ne hne hpl] at hcp
      exact hkind (h.backed.closed p c hcp) (h.inner p hp c hcp)
    · rw [Arena.childrenOf, Arena.node_withAlternative_size hlt] at hcp
      exact hkind (Arena.Holds.lt_size hε h.base hh c hcp) (Arena.Holds.isPacked_eq_false hε h.base hh hcp)

/-- The fragments alone are formed. -/
theorem ParseInput.formed_fragments (hg : input.grammar.WellFormed)
    (hε : input.compiled.epsilon.Laid input.grammar) :
    input.Formed input.compiled.epsilon.nodes := by
  have hspan := hε.span_ne_some
  refine ⟨Arena.backed_epsilon hg hε, Nat.le_refl _, fun _ _ => rfl,
    fun id hle hlt => absurd hlt (Nat.not_lt.2 hle), fun id _ s hs => absurd hs (hspan id s),
    fun id s _ hs => absurd hs (hspan id s), fun p hp c hc => ?_⟩
  obtain ⟨B, alt', hk⟩ := Node.isPacked_iff.1 hp
  have hlt : p < input.compiled.epsilon.nodes.size := Arena.lt_size_of_isPacked hp
  have h0 : p ≠ 0 := by
    rintro rfl
    rw [hε.epsilon] at hk
    cases hk
  rcases hε.kinds p hlt h0 with ⟨A, hA⟩ | ⟨A, alt, he⟩ | ⟨A, alt, dot, -, he⟩
  · cases hk.symm.trans (hε.symbol A p hA).2.1
  · rw [Arena.childrenOf, he] at hc
    obtain ⟨x, rfl⟩ := EpsilonForest.exists_fragment_of_packedNode hc
    rcases hε.kind_fragment x with hk' | ⟨C, hk'⟩ <;> rw [Node.isPacked, hk']
  · rw [he] at hk
    cases hk

end ParseForest
