import ParseForest.Proofs.Epsilon
import ParseForest.Proofs.Forest.Sound

/-!
# Building sound arenas

While a forest is built, its arena is not only sound: the nodes that are referred to are there, and
every choice stands for symbols that the tokens spell, even if no alternative of it has been found
(`Arena.Backed`). There are two ways to build on, and both keep this: to append a node
(`Backed.push`) and to give a choice an alternative (`Backed.addChild`). The empty derivations are
where it begins (`backed_epsilon`).
-/

namespace ParseForest

namespace Arena

variable (g : Grammar) (m : TerminalMatcher) (tokens : TokenStream)

/-- What the node stands for is spelled by the tokens that it spans. -/
def IsSpelled (n : Node) : Prop :=
  match n.kind with
  | .symbol A => ∀ l r, (n.span = some ⟨l, r⟩ ∨ (n.span = none ∧ l = r)) →
      Spells g m tokens [.rule A] l r
  | .intermediate A alt dot => ∀ l r, n.span = some ⟨l, r⟩ →
      Spells g m tokens ((g.alternative A alt).symbols.drop dot) l r
  | .nulled A alt dot => g.Nullable ((g.alternative A alt).symbols.drop dot)
  | .terminal i => i < tokens.length
  | .packed _ _ => True
  | .epsilon => True

/-- The arena is sound, and every node that is referred to is there and is spelled by the tokens. -/
structure Backed (nodes : Arena) : Prop extends Sound g m tokens nodes where
  pos : 0 < nodes.size
  closed : ∀ id, ∀ c ∈ childrenOf nodes id, c < nodes.size
  spelled : ∀ id, IsSpelled g m tokens (node nodes id)

variable {g m tokens} {nodes nodes' : Arena}

/-! ## Spelling -/

theorem Backed.spells_of_stands (h : Backed g m tokens nodes) {x : Symbol} {l r : Nat}
    {id : NodeId} (hs : nodes.Stands m tokens x l r id) : Spells g m tokens [x] l r := by
  cases x with
  | terminal t =>
    obtain ⟨-, rfl, ht⟩ := hs
    exact spells_terminal ht
  | rule A =>
    have := h.spelled id
    rw [IsSpelled, hs.1] at this
    exact this l r hs.2

theorem Backed.spells_of_covers (h : Backed g m tokens nodes) {A : RuleId} {alt dot l r : Nat}
    {cs : List NodeId} (hc : Covers g m tokens nodes A alt dot l r cs) :
    Spells g m tokens ((g.alternative A alt).symbols.drop dot) l r := by
  induction hc with
  | done l =>
    rw [Alternative.length, List.drop_length]
    exact spells_nil l
  | epsilon _ _ ih => exact ih
  | symbol hx hs _ ih =>
    rw [drop_eq_cons hx]
    exact (h.spells_of_stands hs).append ih
  | @intermediate dot l r c hk hs =>
    have := h.spelled c
    rw [IsSpelled, hk] at this
    exact this l r hs
  | @nulled dot l c hk =>
    have := h.spelled c
    rw [IsSpelled, hk] at this
    exact spells_of_nullable this l

/-- An alternative of a rule that is covered spells the rule. -/
theorem Backed.spells_rule (h : Backed g m tokens nodes) {A : RuleId} {alt l r : Nat}
    {cs : List NodeId} (halt : alt < (g.rule A).alternatives.size)
    (hc : Covers g m tokens nodes A alt 0 l r cs) : Spells g m tokens [.rule A] l r :=
  ParseForest.spells_rule (Grammar.alternative_mem halt) (h.spells_of_covers hc)

/-! ## Growing -/

theorem Stands.lt_size {x : Symbol} {l r : Nat} {id : NodeId}
    (hs : nodes.Stands m tokens x l r id) : id < nodes.size := by
  refine lt_size_of_kind ?_
  rcases hs.kind_cases with ⟨_, hk⟩ | ⟨_, hk⟩ <;> rw [hk] <;> simp

theorem Stands.grows {x : Symbol} {l r : Nat} {id : NodeId} (hs : nodes.Stands m tokens x l r id)
    (h : nodes.Grows nodes') : nodes'.Stands m tokens x l r id := by
  have hlt := hs.lt_size
  cases x with
  | terminal t => exact ⟨(h.kind_eq id hlt).trans hs.1, hs.2⟩
  | rule A => exact ⟨(h.kind_eq id hlt).trans hs.1, by rw [h.span_eq id hlt]; exact hs.2⟩

theorem Covers.grows {A : RuleId} {alt dot l r : Nat} {cs : List NodeId}
    (hc : Covers g m tokens nodes A alt dot l r cs) (h : nodes.Grows nodes')
    (hcs : ∀ c ∈ cs, c < nodes.size) : Covers g m tokens nodes' A alt dot l r cs := by
  induction hc with
  | done l => exact .done l
  | epsilon hk _ ih =>
    exact .epsilon ((h.kind_eq _ (hcs _ (.head _))).trans hk) (ih fun c hc => hcs c (.tail _ hc))
  | symbol hx hs _ ih => exact .symbol hx (hs.grows h) (ih fun c hc => hcs c (.tail _ hc))
  | intermediate hk hs =>
    exact .intermediate ((h.kind_eq _ (hcs _ (.head _))).trans hk)
      ((h.span_eq _ (hcs _ (.head _))).trans hs)
  | nulled hk => exact .nulled ((h.kind_eq _ (hcs _ (.head _))).trans hk)

theorem IsAlternative.grows {A : RuleId} {alt dot l r : Nat} {p : NodeId}
    (hp : IsAlternative g m tokens nodes A alt dot l r p) (h : nodes.Grows nodes')
    (hcs : ∀ c ∈ childrenOf nodes p, c < nodes.size) :
    IsAlternative g m tokens nodes' A alt dot l r p := by
  have hlt : p < nodes.size := lt_size_of_kind (by rw [hp.1]; simp)
  have he := h.node_eq p hlt (by rw [Node.isChoice, hp.1]; exact Bool.false_ne_true)
  refine ⟨by rw [he, hp.1], ?_⟩
  rw [childrenOf, he]
  exact hp.2.grows h hcs

/-- A node is appended that has no alternatives yet, or is one itself. -/
theorem Backed.push (h : Backed g m tokens nodes) {n : Node}
    (hn : n.isPacked = true ∨ (n.children = #[] ∧ ∀ A alt dot, n.kind ≠ .nulled A alt dot))
    (hc : ∀ c ∈ n.children.toList, c < nodes.size) (hs : IsSpelled g m tokens n) :
    Backed g m tokens (nodes.push n) := by
  have hgrows := grows_push nodes n
  have hcases : ∀ id, (id < nodes.size ∧ node (nodes.push n) id = node nodes id) ∨
      (id = nodes.size ∧ node (nodes.push n) id = n) ∨
      (nodes.size < id ∧ node (nodes.push n) id = default) := by
    intro id
    rcases Nat.lt_trichotomy id nodes.size with hlt | rfl | hgt
    · exact .inl ⟨hlt, node_push_lt hlt⟩
    · exact .inr (.inl ⟨rfl, node_push_size n⟩)
    · exact .inr (.inr ⟨hgt, node_of_size_le (by rw [Array.size_push]; exact hgt)⟩)
  -- a choice or a nulled node that has children was there before
  have hold : ∀ id, (node (nodes.push n) id).isPacked = false →
      (∀ p ∈ childrenOf (nodes.push n) id, id < nodes.size) ∧
      ((∃ A alt dot, (node (nodes.push n) id).kind = .nulled A alt dot) → id < nodes.size) := by
    intro id hk
    rcases hcases id with ⟨hlt, -⟩ | ⟨rfl, he⟩ | ⟨-, he⟩
    · exact ⟨fun _ _ => hlt, fun _ => hlt⟩
    · rw [he] at hk
      obtain ⟨hempty, hne⟩ := hn.resolve_left (by simp [hk])
      refine ⟨fun p hp => ?_, ?_⟩
      · rw [childrenOf, he, hempty] at hp
        cases hp
      · rintro ⟨A, alt, dot, hk⟩
        exact absurd (he ▸ hk) (hne A alt dot)
    · refine ⟨fun p hp => ?_, ?_⟩
      · rw [childrenOf, he] at hp
        cases hp
      · rintro ⟨A, alt, dot, hk⟩
        rw [he] at hk
        cases hk
  have halt : ∀ {A alt dot l r p}, IsAlternative g m tokens nodes A alt dot l r p →
      IsAlternative g m tokens (nodes.push n) A alt dot l r p := fun {_ _ _ _ _ p} hp =>
    hp.grows hgrows (h.closed p)
  have hsound : Sound g m tokens (nodes.push n) := by
    refine ⟨?_, fun id A hk p hp => ?_, fun id A alt dot l r hk hspan p hp => ?_,
      fun id A alt dot l hk => ?_⟩
    · exact (congrArg Node.kind (node_push_lt h.pos)).trans h.epsilon
    · have hlt := (hold id (by rw [Node.isPacked, hk])).1 p hp
      rw [node_push_lt hlt] at hk
      rw [childrenOf, node_push_lt hlt] at hp
      obtain ⟨alt, hlt', hall⟩ := h.symbol id A hk p hp
      rw [node_push_lt hlt]
      exact ⟨alt, hlt', fun l r hspan => halt (hall l r hspan)⟩
    · have hlt := (hold id (by rw [Node.isPacked, hk])).1 p hp
      rw [node_push_lt hlt] at hk hspan
      rw [childrenOf, node_push_lt hlt] at hp
      exact halt (h.intermediate id A alt dot l r hk hspan p hp)
    · have hlt := (hold id (by rw [Node.isPacked, hk])).2 ⟨A, alt, dot, hk⟩
      rw [node_push_lt hlt] at hk
      rw [childrenOf, node_push_lt hlt]
      exact (h.nulled id A alt dot l hk).grows hgrows (h.closed id)
  refine ⟨hsound, by simp, fun id c hmem => ?_, fun id => ?_⟩
  · rw [Array.size_push]
    rcases hcases id with ⟨-, he⟩ | ⟨-, he⟩ | ⟨-, he⟩ <;> rw [childrenOf, he] at hmem
    · exact Nat.lt_succ_of_lt (h.closed id c hmem)
    · exact Nat.lt_succ_of_lt (hc c hmem)
    · cases hmem
  · rcases hcases id with ⟨-, he⟩ | ⟨-, he⟩ | ⟨-, he⟩ <;> rw [he]
    · exact h.spelled id
    · exact hs
    · trivial

variable (g) in
/-- The node is a choice between alternatives of the symbols of `alt` from `dot` on, from `l` to
`r`. -/
def Owns (nodes : Arena) (owner : NodeId) (A : RuleId) (alt dot l r : Nat) : Prop :=
  (((node nodes owner).kind = .symbol A ∧ dot = 0 ∧ alt < (g.rule A).alternatives.size) ∨
    (node nodes owner).kind = .intermediate A alt dot) ∧ (node nodes owner).span = some ⟨l, r⟩

theorem Owns.isChoice {owner : NodeId} {A : RuleId} {alt dot l r : Nat}
    (h : Owns g nodes owner A alt dot l r) : (node nodes owner).isChoice = true := by
  rcases h.1 with ⟨hk, -⟩ | hk <;> rw [Node.isChoice, hk]

theorem Owns.lt_size {owner : NodeId} {A : RuleId} {alt dot l r : Nat}
    (h : Owns g nodes owner A alt dot l r) : owner < nodes.size := by
  refine lt_size_of_kind ?_
  rcases h.1 with ⟨hk, -⟩ | hk <;> rw [hk] <;> simp

theorem Owns.grows {owner : NodeId} {A : RuleId} {alt dot l r : Nat}
    (h : Owns g nodes owner A alt dot l r) (hg : nodes.Grows nodes') :
    Owns g nodes' owner A alt dot l r := by
  rw [Owns, hg.kind_eq owner h.lt_size, hg.span_eq owner h.lt_size]
  exact h

/-- A choice gets another alternative. -/
theorem Backed.addChild (h : Backed g m tokens nodes) {owner p : NodeId} {A : RuleId}
    {alt dot l r : Nat} (ho : Owns g nodes owner A alt dot l r) (hlt : p < nodes.size)
    (hp : IsAlternative g m tokens nodes A alt dot l r p) :
    Backed g m tokens (addChild nodes owner p) := by
  have hheads : SameHeads nodes (Arena.addChild nodes owner p) := sameHeads_addChild owner p
  have hchildren : ∀ {id}, ∀ q ∈ childrenOf (Arena.addChild nodes owner p) id,
      q ∈ childrenOf nodes id ∨ (id = owner ∧ q = p) := by
    intro id q hq
    by_cases hid : owner = id
    · subst hid
      rw [childrenOf_addChild_self ho.lt_size, List.mem_append, List.mem_singleton] at hq
      exact hq.imp_right fun hq => ⟨rfl, hq⟩
    · rw [childrenOf_addChild_ne hid] at hq
      exact .inl hq
  have hkeep : ∀ {id}, ¬ (node nodes id).isChoice = true →
      childrenOf (Arena.addChild nodes owner p) id = childrenOf nodes id := fun {id} hc =>
    childrenOf_addChild_ne fun he => hc (he ▸ ho.isChoice)
  have halt : ∀ {A alt dot l r p'}, IsAlternative g m tokens nodes A alt dot l r p' →
      IsAlternative g m tokens (Arena.addChild nodes owner p) A alt dot l r p' := by
    rintro A alt dot l r p' ⟨hk, hc⟩
    refine ⟨(hheads.kind_eq p').trans hk, ?_⟩
    rw [hkeep (by rw [Node.isChoice, hk]; exact Bool.false_ne_true)]
    exact hc.congr hheads
  refine ⟨⟨(hheads.kind_eq _).trans h.epsilon, fun id B hk q hq => ?_,
    fun id B alt' dot' l' r' hk hspan q hq => ?_, fun id B alt' dot' l' hk => ?_⟩, by simpa using h.pos,
    fun id q hq => ?_, fun id => ?_⟩
  · rw [hheads.kind_eq] at hk
    rw [hheads.span_eq]
    rcases hchildren q hq with hq | ⟨rfl, rfl⟩
    · obtain ⟨alt', hlt', hall⟩ := h.symbol id B hk q hq
      exact ⟨alt', hlt', fun l' r' hspan => halt (hall l' r' hspan)⟩
    · obtain ⟨⟨hk', rfl, hlt'⟩ | hk', hspan'⟩ := ho
      · obtain rfl := NodeKind.symbol.inj (hk'.symm.trans hk)
        refine ⟨alt, hlt', fun l' r' hspan => ?_⟩
        obtain ⟨rfl, rfl⟩ : l = l' ∧ r = r' := by simpa [hspan'] using hspan
        exact halt hp
      · rw [hk'] at hk
        cases hk
  · rw [hheads.kind_eq] at hk
    rw [hheads.span_eq] at hspan
    rcases hchildren q hq with hq | ⟨rfl, rfl⟩
    · exact halt (h.intermediate id B alt' dot' l' r' hk hspan q hq)
    · obtain ⟨⟨hk', -⟩ | hk', hspan'⟩ := ho
      · rw [hk'] at hk
        cases hk
      · obtain ⟨rfl, rfl, rfl⟩ := NodeKind.intermediate.inj (hk'.symm.trans hk)
        obtain ⟨rfl, rfl⟩ := Span.mk.inj (Option.some.inj (hspan'.symm.trans hspan))
        exact halt hp
  · rw [hheads.kind_eq] at hk
    rw [hkeep (by rw [Node.isChoice, hk]; exact Bool.false_ne_true)]
    exact (h.nulled id B alt' dot' l' hk).congr hheads
  · rw [size_addChild]
    rcases hchildren q hq with hq | ⟨-, rfl⟩
    · exact h.closed id q hq
    · exact hlt
  · have := h.spelled id
    rw [IsSpelled] at this ⊢
    rw [hheads.kind_eq, hheads.span_eq]
    exact this

/-! ## Empty derivations -/

section Epsilon

variable {ε : EpsilonForest} (hg : g.WellFormed) (hε : ε.Laid g)

include hg hε in
/-- The fragments of nullable symbols cover them. -/
theorem covers_fragments {A : RuleId} {alt dot : Nat} {rest : List Symbol}
    (hs : (g.alternative A alt).symbols.drop dot = rest) (hdot : dot ≤ (g.alternative A alt).length)
    (hn : g.Nullable rest) (l : Nat) :
    Covers g m tokens ε.nodes A alt dot l l (rest.map (EpsilonForest.fragment ε.symbols)) := by
  induction rest generalizing dot with
  | nil =>
    obtain rfl : dot = (g.alternative A alt).length :=
      Nat.le_antisymm hdot (List.drop_eq_nil_iff.1 hs)
    exact .done l
  | cons x rest ih =>
    obtain ⟨hx, hrest⟩ := Grammar.nullable_cons_iff.1 hn
    have hget : (g.alternative A alt).symbols[dot]? = some x := by
      have := congrArg List.head? hs
      simpa using this
    cases x with
    | terminal t => exact absurd hx Grammar.not_nullable_terminal
    | rule B =>
      obtain ⟨id, hid⟩ : ∃ id, ε.symbol? B = some id := by
        rw [← Option.isSome_iff_exists, hε.symbol?_isSome, hg.isNullable_iff]
        exact hx
      obtain ⟨-, hk, hspan, -⟩ := hε.symbol B id hid
      have hdrop : (g.alternative A alt).symbols.drop (dot + 1) = rest := by
        rw [← List.drop_drop, hs]
        rfl
      refine .symbol hget (k := l) ?_ (ih hdrop (List.getElem?_eq_some_iff.1 hget).1 hrest)
      rw [EpsilonForest.fragment_rule hid]
      exact ⟨hk, .inr ⟨hspan, rfl⟩⟩

include hg in
theorem nullable_drop {A : RuleId} {alt dot : Nat}
    (h : (g.alternative A alt).nullableFrom ≤ dot) :
    g.Nullable ((g.alternative A alt).symbols.drop dot) := by
  by_cases halt : alt < (g.rule A).alternatives.size
  · exact (hg.nullableFrom_le_iff A _ (Grammar.alternative_mem halt) dot).1 h
  · rw [Grammar.alternative, Array.getD_of_size_le (Nat.not_lt.1 halt)]
    rw [show (default : Alternative).symbols = [] from rfl, List.drop_nil]
    exact Grammar.nullable_nil

include hε in
theorem fragment_lt (x : Symbol) : EpsilonForest.fragment ε.symbols x < ε.nodes.size := by
  cases x with
  | terminal t => exact hε.pos
  | rule B =>
    change (ε.symbol? B).getD epsilonId < ε.nodes.size
    cases hid : ε.symbol? B with
    | none => exact hε.pos
    | some id => exact (hε.symbol B id hid).1

include hg hε in
/-- The packed nodes under the fragment of a rule are its nullable alternatives. -/
theorem isAlternative_epsilon {A : RuleId} {id p : NodeId} (hid : ε.symbol? A = some id)
    (hp : p ∈ childrenOf ε.nodes id) : ∃ alt < (g.rule A).alternatives.size,
      ∀ l, IsAlternative g m tokens ε.nodes A alt 0 l l p := by
  obtain ⟨-, -, -, hall⟩ := hε.symbol A id hid
  obtain ⟨alt, halt, -, hnode⟩ := List.exists_right_of_forall₂ hall hp
  obtain ⟨hlt, hnull⟩ := List.mem_filter.1 halt
  refine ⟨alt, List.mem_range.1 hlt, fun l => ⟨by rw [hnode]; rfl, ?_⟩⟩
  rw [childrenOf, hnode, EpsilonForest.packedNode]
  by_cases hempty : (g.alternative A alt).isEmpty = true
  · have hlen : (g.alternative A alt).length = 0 := by
      rw [Alternative.length, List.isEmpty_iff.1 hempty]
      rfl
    rw [if_pos hempty]
    refine .epsilon (by rw [epsilonId, hε.epsilon]; rfl) ?_
    rw [← hlen]
    exact .done l
  · rw [if_neg hempty]
    have hnull' : g.Nullable ((g.alternative A alt).symbols.drop 0) :=
      nullable_drop hg (Nat.le_of_eq (beq_iff_eq.1 hnull))
    exact covers_fragments hg hε List.drop_zero (Nat.zero_le _) hnull' l

include hε in
/-- What the nodes of the fragments are. -/
theorem epsilon_cases (id : NodeId) : node ε.nodes id = .ofKind .epsilon none ∨
    (∃ A, ε.symbol? A = some id) ∨
    (∃ A alt, node ε.nodes id = EpsilonForest.packedNode g ε.symbols A alt) ∨
    ∃ A alt dot, dot ∈ EpsilonForest.tailStarts (g.alternative A alt) ∧
      node ε.nodes id = EpsilonForest.nulledNode g ε.symbols A alt dot := by
  by_cases hlt : id < ε.nodes.size
  · by_cases h0 : id = 0
    · exact .inl (h0 ▸ hε.epsilon)
    · exact .inr (hε.kinds id hlt h0)
  · exact .inl (node_of_size_le (Nat.not_lt.1 hlt))

include hg hε in
/-- The fragments stand for empty derivations. -/
theorem sound_epsilon : Sound g m tokens ε.nodes where
  epsilon := by rw [epsilonId, hε.epsilon]; rfl
  symbol id A hk p hp := by
    rcases epsilon_cases hε id with he | ⟨B, hid⟩ | ⟨B, alt, he⟩ | ⟨B, alt, dot, -, he⟩
    · cases he ▸ hk
    · obtain ⟨-, hk', hspan, -⟩ := hε.symbol B id hid
      obtain rfl := NodeKind.symbol.inj (hk'.symm.trans hk)
      obtain ⟨alt, hlt, hall⟩ := isAlternative_epsilon hg hε hid hp
      refine ⟨alt, hlt, fun l r h => ?_⟩
      obtain rfl : l = r := by simpa [hspan] using h
      exact hall l
    · cases he ▸ hk
    · cases he ▸ hk
  intermediate id A alt dot l r hk := by
    rcases epsilon_cases hε id with he | ⟨B, hid⟩ | ⟨B, alt', he⟩ | ⟨B, alt', dot', -, he⟩
    · cases he ▸ hk
    · cases (hε.symbol B id hid).2.1.symm.trans hk
    · cases he ▸ hk
    · cases he ▸ hk
  nulled id A alt dot l hk := by
    rcases epsilon_cases hε id with he | ⟨B, hid⟩ | ⟨B, alt', he⟩ | ⟨B, alt', dot', hdot, he⟩
    · cases he ▸ hk
    · cases (hε.symbol B id hid).2.1.symm.trans hk
    · cases he ▸ hk
    · rw [he] at hk
      obtain ⟨rfl, rfl, rfl⟩ := NodeKind.nulled.inj hk
      rw [childrenOf, he]
      obtain ⟨-, hlt, hle⟩ := EpsilonForest.mem_tailStarts_iff.1 hdot
      exact covers_fragments hg hε rfl (Nat.le_of_lt hlt) (nullable_drop hg hle) l

include hε in
/-- The fragments refer to each other only. -/
theorem closed_epsilon {id c : NodeId} (hc : c ∈ childrenOf ε.nodes id) : c < ε.nodes.size := by
  rcases epsilon_cases hε id with he | ⟨B, hid⟩ | ⟨B, alt, he⟩ | ⟨B, alt, dot, -, he⟩
  · rw [childrenOf, he] at hc
    cases hc
  · obtain ⟨alt, -, hlt, -⟩ := List.exists_right_of_forall₂ (hε.symbol B id hid).2.2.2 hc
    exact hlt
  · rw [childrenOf, he, EpsilonForest.packedNode] at hc
    split at hc
    · obtain rfl := List.mem_singleton.1 hc
      exact hε.pos
    · obtain ⟨x, -, rfl⟩ := List.mem_map.1 hc
      exact fragment_lt hε x
  · rw [childrenOf, he, EpsilonForest.nulledNode] at hc
    obtain ⟨x, -, rfl⟩ := List.mem_map.1 hc
    exact fragment_lt hε x

include hg hε in
/-- What they stand for is spelled by no tokens. -/
theorem isSpelled_epsilon (id : NodeId) : IsSpelled g m tokens (node ε.nodes id) := by
  rcases epsilon_cases hε id with he | ⟨B, hid⟩ | ⟨B, alt, he⟩ | ⟨B, alt, dot, hdot, he⟩
  · rw [he]
    trivial
  · obtain ⟨-, hk, hspan, -⟩ := hε.symbol B id hid
    rw [IsSpelled, hk]
    intro l r h
    obtain rfl : l = r := by simpa [hspan] using h
    refine spells_of_nullable ((hg.isNullable_iff B).1 ?_) l
    rw [← hε.symbol?_isSome, hid]
    rfl
  · rw [he]
    trivial
  · rw [he]
    exact nullable_drop hg (EpsilonForest.mem_tailStarts_iff.1 hdot).2.2

include hg hε in
/-- The arena that every forest begins with. -/
theorem backed_epsilon : Backed g m tokens ε.nodes :=
  ⟨sound_epsilon hg hε, hε.pos, fun _ _ => closed_epsilon hε, isSpelled_epsilon hg hε⟩

end Epsilon

end Arena

end ParseForest
