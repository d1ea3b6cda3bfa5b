import ParseForest.Parser.Engine
import ParseForest.Proofs.Forest.Backed

/-!
# The shape of alternatives under construction

The alternatives that a parse makes have one or two children: the node of a symbol, and what stands
for the symbols after it (`Arena.Holds`). There is only one way to stand for the rest of an
alternative over given tokens (`Arena.IsTail`): a fragment if it derives nothing, the node of the
symbol if it is the last, and an intermediate node otherwise.

A parse works on the nodes that end at its level, and settles them from narrow to wide. `Stage` says
how far it has come; nodes that are behind it are never touched again (`Arena.GrowsAt`).
-/

namespace ParseForest

/-- How far a parse has come: everything that ends before the level is done, and of what ends there
everything narrower than the width. -/
structure Stage where
  level : Nat
  width : Nat

/-- The stage has left the span behind. -/
def Stage.Passed (st : Stage) (s : Span) : Prop :=
  s.right < st.level ∨ (s.right = st.level ∧ s.width < st.width)

/-- Stages come level by level, and from narrow to wide. -/
instance : LE Stage where
  le st st' := st.level < st'.level ∨ (st.level = st'.level ∧ st.width ≤ st'.width)

theorem Stage.le_rfl {st : Stage} : st ≤ st := .inr ⟨rfl, Nat.le_refl _⟩

theorem Stage.level_le {st st' : Stage} (h : st ≤ st') : st.level ≤ st'.level :=
  h.elim Nat.le_of_lt fun h => Nat.le_of_eq h.1

theorem Stage.le_trans {st st' st'' : Stage} (h : st ≤ st') (h' : st' ≤ st'') : st ≤ st'' := by
  rcases h with hlt | ⟨he, hw⟩
  · exact .inl (Nat.lt_of_lt_of_le hlt (Stage.level_le h'))
  · rcases h' with hlt' | ⟨he', hw'⟩
    · exact .inl (he ▸ hlt')
    · exact .inr ⟨he.trans he', Nat.le_trans hw hw'⟩

/-- A later stage has passed whatever an earlier one has. -/
def Stage.Before (st st' : Stage) : Prop := ∀ s, st.Passed s → st'.Passed s

theorem Stage.Before.refl (st : Stage) : st.Before st := fun _ => id

theorem Stage.before_of_le {st st' : Stage} (h : st ≤ st') : st.Before st' := by
  rintro s (hlt | ⟨he, hw⟩)
  · exact .inl (Nat.lt_of_lt_of_le hlt (Stage.level_le h))
  · rcases h with hlt' | ⟨he', hw'⟩
    · exact .inl (he ▸ hlt')
    · exact .inr ⟨he.trans he', Nat.lt_of_lt_of_le hw hw'⟩

theorem Stage.before_of_width_le {l w w' : Nat} (h : w ≤ w') : Stage.Before ⟨l, w⟩ ⟨l, w'⟩ :=
  fun _ hs => hs.imp_right fun hs => ⟨hs.1, Nat.lt_of_lt_of_le hs.2 h⟩

theorem Stage.before_of_level_le {l l' : Nat} (h : l ≤ l') : Stage.Before ⟨l, 0⟩ ⟨l', 0⟩ := by
  rintro s (hs | ⟨-, hs⟩)
  · exact .inl (Nat.lt_of_lt_of_le hs h)
  · exact absurd hs (Nat.not_lt_zero _)

/-- What ends at a level is not left behind before the level is settled. -/
theorem Stage.not_passed (l left : Nat) : ¬ Stage.Passed ⟨l, 0⟩ ⟨left, l⟩ := by
  rintro (hlt | ⟨-, hlt⟩)
  · exact Nat.lt_irrefl l hlt
  · exact Nat.not_lt_zero _ hlt

theorem Stage.before_next (l w w' : Nat) : Stage.Before ⟨l, w⟩ ⟨l + 1, w'⟩ := by
  rintro s (hs | ⟨hs, -⟩)
  · exact .inl (Nat.lt_succ_of_lt hs)
  · exact .inl (hs ▸ Nat.lt_succ_self _)

namespace Arena

section

variable (g : Grammar) (m : TerminalMatcher) (tokens : TokenStream) (ε : EpsilonForest)
  (nodes : Arena)

/-- The node stands for the symbols of an alternative from `dot` on, of which there is at least
one. If it is made for them, it has an alternative. -/
inductive IsTail (A : RuleId) (alt dot l r : Nat) (id : NodeId) : Prop
  | nulled (h : ε.tail? A alt dot = some id) (he : l = r)
  | last {x : Symbol} (hx : (g.alternative A alt).symbols[dot]? = some x)
      (hlast : dot + 1 = (g.alternative A alt).length) (hs : nodes.Stands m tokens x l r id)
      (hlt : l < r)
  | intermediate (hk : (node nodes id).kind = .intermediate A alt dot)
      (hspan : (node nodes id).span = some ⟨l, r⟩) (hlt : l < r)
      (hmore : dot + 1 < (g.alternative A alt).length) (hne : childrenOf nodes id ≠ [])

/-- The children stand for the symbols of an alternative from `dot` on: the first for one symbol,
the second for the rest. -/
inductive Holds (A : RuleId) (alt dot l r : Nat) : Children → Prop
  | only {x : Symbol} {first : NodeId} (hx : (g.alternative A alt).symbols[dot]? = some x)
      (hlast : dot + 1 = (g.alternative A alt).length) (hs : nodes.Stands m tokens x l r first) :
      Holds A alt dot l r ⟨first, none⟩
  | cons {x : Symbol} {first second : NodeId} {k : Nat}
      (hx : (g.alternative A alt).symbols[dot]? = some x) (hs : nodes.Stands m tokens x l k first)
      (ht : IsTail g m tokens ε nodes A alt (dot + 1) k r second) :
      Holds A alt dot l r ⟨first, some second⟩

end

/-- A choice that has an alternative, or no choice at all. -/
def Alive (nodes : Arena) (id : NodeId) : Prop :=
  (node nodes id).isChoice = true → childrenOf nodes id ≠ []

/-- The packed node of an alternative. -/
def alternativeNode (A : RuleId) (alt : Nat) (children : Children) : Node :=
  ⟨.packed A alt, none, children.toList.toArray, #[]⟩

/-- The node is a choice that has the alternative. -/
def HasAlternative (nodes : Arena) (owner : NodeId) (A : RuleId) (alt : Nat) (children : Children) :
    Prop :=
  (node nodes owner).isChoice = true ∧
    ∃ p ∈ childrenOf nodes owner, node nodes p = alternativeNode A alt children

/-- The arena after an alternative has been packed under its owner. -/
def withAlternative (nodes : Arena) (owner : NodeId) (A : RuleId) (alt : Nat)
    (children : Children) : Arena :=
  addChild (nodes.push (alternativeNode A alt children)) owner nodes.size

variable {g : Grammar} {m : TerminalMatcher} {tokens : TokenStream} {ε : EpsilonForest}
  {nodes nodes' : Arena} {A : RuleId} {alt dot l r : Nat}

/-- The children of an alternative of two symbols: a node for the first one, and the fragment of the second
one or a node for it. -/
theorem Holds.pair {X Y : Symbol} {children : Children}
    (h : Holds g m tokens ε nodes A alt 0 l r children)
    (hsymbols : (g.alternative A alt).symbols = [X, Y]) : ∃ x y k, children = ⟨x, some y⟩ ∧
      nodes.Stands m tokens X l k x ∧
      ((ε.tail? A alt 1 = some y ∧ k = r) ∨ (nodes.Stands m tokens Y k r y ∧ k < r)) := by
  have hlength : (g.alternative A alt).length = 2 := congrArg List.length hsymbols
  cases h with
  | only _ hlast _ => omega
  | @cons Z x y k hx hs ht =>
    rw [hsymbols] at hx
    obtain rfl := Option.some.inj hx
    refine ⟨x, y, k, rfl, hs, ?_⟩
    cases ht with
    | nulled ht he => exact .inl ⟨ht, he⟩
    | last hy _ hs' hlt =>
      rw [hsymbols] at hy
      obtain rfl := Option.some.inj hy
      exact .inr ⟨hs', hlt⟩
    | intermediate _ _ _ hmore _ => omega

/-! ## Covering -/

section Covers

variable (hε : ε.Laid g) (hbase : ε.nodes.Grows nodes)
include hε hbase

/-- The fragment of a tail is in every arena that has grown from the fragments. -/
theorem kind_tail {id : NodeId} (h : ε.tail? A alt dot = some id) :
    id < nodes.size ∧ (node nodes id).kind = .nulled A alt dot := by
  obtain ⟨hlt, hnode⟩ := hε.tail A alt dot id h
  refine ⟨Nat.lt_of_lt_of_le hlt hbase.size_le, ?_⟩
  rw [hbase.kind_eq id hlt, hnode]
  rfl

theorem IsTail.covers {id : NodeId} (h : IsTail g m tokens ε nodes A alt dot l r id) :
    Covers g m tokens nodes A alt dot l r [id] := by
  cases h with
  | nulled h he =>
    subst he
    exact .nulled (kind_tail hε hbase h).2
  | last hx hlast hs _ =>
    refine .symbol hx hs ?_
    rw [hlast]
    exact .done r
  | intermediate hk hspan _ _ _ => exact .intermediate hk hspan

theorem Holds.covers {children : Children}
    (h : Holds g m tokens ε nodes A alt dot l r children) :
    Covers g m tokens nodes A alt dot l r children.toList := by
  cases h with
  | only hx hlast hs =>
    refine .symbol hx hs ?_
    rw [hlast]
    exact .done r
  | cons hx hs ht => exact .symbol hx hs (ht.covers hε hbase)

theorem IsTail.lt_size {id : NodeId} (h : IsTail g m tokens ε nodes A alt dot l r id) :
    id < nodes.size := by
  cases h with
  | nulled h _ => exact (kind_tail hε hbase h).1
  | last _ _ hs _ => exact hs.lt_size
  | intermediate hk _ _ _ _ => exact lt_size_of_kind (by rw [hk]; simp)

theorem Holds.lt_size {children : Children}
    (h : Holds g m tokens ε nodes A alt dot l r children) :
    ∀ c ∈ children.toList, c < nodes.size := by
  cases h with
  | only _ _ hs => simpa [Children.toList] using hs.lt_size
  | cons _ hs ht => simpa [Children.toList] using ⟨hs.lt_size, ht.lt_size hε hbase⟩

/-- What holds symbols is not packed. -/
theorem Holds.isPacked_eq_false {children : Children}
    (h : Holds g m tokens ε nodes A alt dot l r children) {c : NodeId} (hc : c ∈ children.toList) :
    (node nodes c).isPacked = false := by
  have hstands : ∀ {x l r id}, nodes.Stands m tokens x l r id →
      (node nodes id).isPacked = false := by
    intro x l r id hs
    rcases hs.kind_cases with ⟨i, hk⟩ | ⟨B, hk⟩ <;> rw [Node.isPacked, hk]
  cases h with
  | only _ _ hs =>
    obtain rfl := List.mem_singleton.1 hc
    exact hstands hs
  | cons _ hs ht =>
    rcases List.mem_cons.1 hc with rfl | hc
    · exact hstands hs
    · obtain rfl := List.mem_singleton.1 hc
      cases ht with
      | nulled h _ => rw [Node.isPacked, (kind_tail hε hbase h).2]
      | last _ _ hs _ => exact hstands hs
      | intermediate hk _ _ _ _ => rw [Node.isPacked, hk]

end Covers

/-- What has a rest is not the last symbol. -/
theorem Holds.lt_length (hε : ε.Laid g) {first second : NodeId}
    (h : Holds g m tokens ε nodes A alt dot l r ⟨first, some second⟩) :
    dot + 1 < (g.alternative A alt).length := by
  cases h with
  | cons _ _ ht =>
    cases ht with
    | nulled h _ => exact ((hε.tail?_isSome A alt (dot + 1)).1 (by rw [h]; rfl)).2.2.1
    | last _ hlast _ _ => exact hlast ▸ Nat.lt_succ_self _
    | intermediate _ _ _ hmore _ => exact Nat.lt_trans (Nat.lt_succ_self _) hmore

/-! ## Alternatives -/

theorem Children.toList_injective : Function.Injective Children.toList := by
  rintro ⟨c, s⟩ ⟨c', s'⟩ h
  cases s <;> cases s' <;> simp_all [Children.toList]

theorem alternativeNode_inj {A' : RuleId} {alt' : Nat} {ch ch' : Children} :
    alternativeNode A alt ch = alternativeNode A' alt' ch' ↔ A = A' ∧ alt = alt' ∧ ch = ch' := by
  refine ⟨fun h => ?_, fun ⟨hA, halt, hch⟩ => by rw [hA, halt, hch]⟩
  simp only [alternativeNode, Node.mk.injEq, NodeKind.packed.injEq] at h
  exact ⟨h.1.1, h.1.2, Children.toList_injective (List.toArray_inj h.2.2.1)⟩

/-! ## Growing -/

theorem IsTail.grows {id : NodeId} (h : IsTail g m tokens ε nodes A alt dot l r id)
    (hg : nodes.Grows nodes') : IsTail g m tokens ε nodes' A alt dot l r id := by
  cases h with
  | nulled h he => exact .nulled h he
  | last hx hlast hs hlt => exact .last hx hlast (hs.grows hg) hlt
  | intermediate hk hspan hlt hmore hne =>
    have hid : id < nodes.size := lt_size_of_kind (by rw [hk]; simp)
    exact .intermediate ((hg.kind_eq id hid).trans hk) ((hg.span_eq id hid).trans hspan) hlt hmore
      fun hnil => hne (List.prefix_nil.1 (hnil ▸ hg.children_prefix id hid))

theorem Holds.grows {children : Children} (h : Holds g m tokens ε nodes A alt dot l r children)
    (hg : nodes.Grows nodes') : Holds g m tokens ε nodes' A alt dot l r children := by
  cases h with
  | only hx hlast hs => exact .only hx hlast (hs.grows hg)
  | cons hx hs ht => exact .cons hx (hs.grows hg) (ht.grows hg)

theorem HasAlternative.grows {owner : NodeId} {children : Children}
    (h : HasAlternative nodes owner A alt children) (hg : nodes.Grows nodes') :
    HasAlternative nodes' owner A alt children := by
  obtain ⟨ho, p, hp, hnode⟩ := h
  have hlt : p < nodes.size := lt_size_of_kind (by rw [hnode, alternativeNode]; simp)
  refine ⟨by rw [hg.isChoice_eq (lt_size_of_isChoice ho)]; exact ho, p, hg.mem_children hp, ?_⟩
  rw [hg.node_eq p hlt (by rw [hnode]; exact Bool.false_ne_true), hnode]

/-- A choice that has an alternative is alive. -/
theorem HasAlternative.alive {owner : NodeId} {children : Children}
    (h : HasAlternative nodes owner A alt children) : Alive nodes owner := by
  obtain ⟨-, p, hp, -⟩ := h
  exact fun _ => List.ne_nil_of_mem hp

/-! ## Stages -/

/-- The node has no span, or the stage has passed it. -/
def Frozen (nodes : Arena) (st : Stage) (id : NodeId) : Prop :=
  ∀ s, (node nodes id).span = some s → st.Passed s

theorem Frozen.mono {st st' : Stage} {id : NodeId} (h : Frozen nodes st id) (hst : st.Before st') :
    Frozen nodes st' id := fun s hs => hst s (h s hs)

/-- The arena has grown. What the stage has passed is as it was, and nothing new is among it. -/
structure GrowsAt (st : Stage) (nodes nodes' : Arena) : Prop extends Grows nodes nodes' where
  node_eq_of_frozen : ∀ id < nodes.size, Frozen nodes st id → node nodes' id = node nodes id
  not_passed : ∀ id, nodes.size ≤ id → ∀ s, (node nodes' id).span = some s → ¬ st.Passed s

theorem GrowsAt.refl (st : Stage) (nodes : Arena) : GrowsAt st nodes nodes := by
  refine ⟨.refl nodes, fun _ _ _ => rfl, fun id hid s hs => ?_⟩
  rw [node_of_size_le hid] at hs
  cases hs

theorem GrowsAt.frozen {st : Stage} (h : GrowsAt st nodes nodes') {id : NodeId}
    (hid : id < nodes.size) (hf : Frozen nodes st id) : Frozen nodes' st id := fun s hs =>
  hf s ((h.span_eq id hid).symm.trans hs)

theorem GrowsAt.trans {st : Stage} {nodes'' : Arena} (h : GrowsAt st nodes nodes')
    (h' : GrowsAt st nodes' nodes'') : GrowsAt st nodes nodes'' where
  toGrows := h.toGrows.trans h'.toGrows
  node_eq_of_frozen id hid hf :=
    (h'.node_eq_of_frozen id (Nat.lt_of_lt_of_le hid h.size_le) (h.frozen hid hf)).trans
      (h.node_eq_of_frozen id hid hf)
  not_passed id hid s hs := by
    by_cases hid' : id < nodes'.size
    · exact h.not_passed id hid s ((h'.span_eq id hid').symm.trans hs)
    · exact h'.not_passed id (Nat.not_lt.1 hid') s hs

theorem GrowsAt.mono {st st' : Stage} (h : GrowsAt st' nodes nodes') (hst : st.Before st') :
    GrowsAt st nodes nodes' :=
  ⟨h.toGrows, fun id hid hf => h.node_eq_of_frozen id hid (hf.mono hst),
    fun id hid s hs hpassed => h.not_passed id hid s hs (hst s hpassed)⟩

theorem growsAt_push {st : Stage} (nodes : Arena) {n : Node} (hn : ∀ s, n.span = some s → ¬ st.Passed s) :
    GrowsAt st nodes (nodes.push n) := by
  refine ⟨grows_push nodes n, fun _ hid _ => node_push_lt hid, fun id hid s hs => ?_⟩
  rcases Nat.lt_or_eq_of_le hid with hlt | rfl
  · rw [node_of_size_le (by rw [Array.size_push]; exact hlt)] at hs
    cases hs
  · rw [node_push_size] at hs
    exact hn s hs

/-! ## Packing -/

section WithAlternative

variable {owner : NodeId} {children : Children}

theorem size_withAlternative :
    (withAlternative nodes owner A alt children).size = nodes.size + 1 := by
  rw [withAlternative, size_addChild, Array.size_push]

theorem node_withAlternative_size (h : owner < nodes.size) :
    node (withAlternative nodes owner A alt children) nodes.size = alternativeNode A alt children := by
  rw [withAlternative, node_addChild_ne (Nat.ne_of_lt h), node_push_size]

theorem node_withAlternative_ne {id : NodeId} (hne : owner ≠ id) (h : id < nodes.size) :
    node (withAlternative nodes owner A alt children) id = node nodes id := by
  rw [withAlternative, node_addChild_ne hne, node_push_lt h]

theorem childrenOf_withAlternative_self (h : owner < nodes.size) :
    childrenOf (withAlternative nodes owner A alt children) owner =
      childrenOf nodes owner ++ [nodes.size] := by
  rw [withAlternative, childrenOf_addChild_self (by rw [Array.size_push]; exact Nat.lt_succ_of_lt h),
    childrenOf, node_push_lt h]
  rfl

theorem grows_withAlternative (h : owner < nodes.size) (hc : (node nodes owner).isChoice = true) :
    nodes.Grows (withAlternative nodes owner A alt children) :=
  (grows_push nodes _).trans (grows_addChild (by rw [node_push_lt h]; exact hc) _)

/-- A choice that the stage has not passed gets an alternative. -/
theorem growsAt_withAlternative {st : Stage} {s : Span} (hc : (node nodes owner).isChoice = true)
    (hs : (node nodes owner).span = some s) (hst : ¬ st.Passed s) :
    GrowsAt st nodes (withAlternative nodes owner A alt children) := by
  have hlt := lt_size_of_isChoice hc
  refine ⟨grows_withAlternative hlt hc, fun id hid hf => node_withAlternative_ne ?_ hid,
    fun id hid s' hs' => ?_⟩
  · rintro rfl
    exact hst (hf s hs)
  · -- the new node is packed, and has no span
    rcases Nat.lt_or_eq_of_le hid with hgt | rfl
    · rw [node_of_size_le (by rw [size_withAlternative]; exact hgt)] at hs'
      cases hs'
    · rw [node_withAlternative_size hlt] at hs'
      cases hs'

/-- No other node has the kind of a choice or leaf. -/
theorem head_withAlternative_iff {k : NodeKind} {P : Option Span → Prop} {id : NodeId}
    (hε : k ≠ .epsilon) (hp : k ≠ .packed A alt) :
    ((node (withAlternative nodes owner A alt children) id).kind = k ∧
      P (node (withAlternative nodes owner A alt children) id).span) ↔
    (node nodes id).kind = k ∧ P (node nodes id).span := by
  rcases Nat.lt_trichotomy id nodes.size with hlt | rfl | hgt <;>
    rw [withAlternative, kind_addChild, span_addChild]
  · rw [node_push_lt hlt]
  · rw [node_push_size, node_of_size_le (Nat.le_refl nodes.size)]
    simp [alternativeNode, show (default : Node).kind = .epsilon from rfl, hε.symm, hp.symm]
  · rw [node_of_size_le (by rw [Array.size_push]; exact hgt), node_of_size_le (Nat.le_of_lt hgt)]

theorem isChoice_withAlternative {id : NodeId} :
    (node (withAlternative nodes owner A alt children) id).isChoice = (node nodes id).isChoice := by
  rw [withAlternative, Node.isChoice, kind_addChild]
  rcases Nat.lt_trichotomy id nodes.size with hlt | rfl | hgt
  · rw [node_push_lt hlt]
    rfl
  · rw [node_push_size, node_of_size_le (Nat.le_refl nodes.size)]
    rfl
  · rw [node_of_size_le (by rw [Array.size_push]; exact hgt), node_of_size_le (Nat.le_of_lt hgt)]
    rfl

/-- The children of a choice, after an alternative has been packed. -/
theorem mem_children_withAlternative_iff (h : owner < nodes.size) {id p : NodeId}
    (hc : (node nodes id).isChoice = true) :
    p ∈ childrenOf (withAlternative nodes owner A alt children) id ↔
      p ∈ childrenOf nodes id ∨ (id = owner ∧ p = nodes.size) := by
  by_cases hid : owner = id
  · subst hid
    rw [childrenOf_withAlternative_self h, List.mem_append, List.mem_singleton]
    simp
  · rw [childrenOf, node_withAlternative_ne hid (lt_size_of_isChoice hc), ← childrenOf]
    simp [Ne.symm hid]

/-- The alternative is the only new one. -/
theorem hasAlternative_withAlternative_iff (hc : ∀ id, ∀ c ∈ childrenOf nodes id, c < nodes.size)
    (h : owner < nodes.size) (ho : (node nodes owner).isChoice = true) {id : NodeId} {B : RuleId}
    {alt' : Nat} {children' : Children} :
    HasAlternative (withAlternative nodes owner A alt children) id B alt' children' ↔
      HasAlternative nodes id B alt' children' ∨
        (id = owner ∧ A = B ∧ alt = alt' ∧ children = children') := by
  constructor
  · rintro ⟨hid, p, hp, hnode⟩
    rw [isChoice_withAlternative] at hid
    rcases (mem_children_withAlternative_iff h hid).1 hp with hp | ⟨rfl, rfl⟩
    · have hne : owner ≠ p := by
        rintro rfl
        rw [← @isChoice_withAlternative nodes A alt owner children, hnode] at ho
        cases ho
      rw [node_withAlternative_ne hne (hc id p hp)] at hnode
      exact .inl ⟨hid, p, hp, hnode⟩
    · rw [node_withAlternative_size h, alternativeNode_inj] at hnode
      exact .inr ⟨rfl, hnode⟩
  · rintro (hb | ⟨rfl, rfl, rfl, rfl⟩)
    · exact hb.grows (grows_withAlternative h ho)
    · refine ⟨by rw [isChoice_withAlternative]; exact ho, nodes.size, ?_,
        node_withAlternative_size h⟩
      exact (mem_children_withAlternative_iff h ho).2 (.inr ⟨rfl, rfl⟩)

/-- A node without children has no alternative, and takes none away. -/
theorem hasAlternative_push_iff (hc : ∀ id, ∀ c ∈ childrenOf nodes id, c < nodes.size) {n : Node}
    (hn : n.children = #[]) {id : NodeId} :
    HasAlternative (nodes.push n) id A alt children ↔ HasAlternative nodes id A alt children := by
  refine ⟨fun ⟨hid, p, hp, hnode⟩ => ?_, fun h => h.grows (grows_push nodes n)⟩
  have hlt : id < nodes.size := by
    rcases Nat.lt_or_eq_of_le (Nat.le_of_lt_succ (Array.size_push n ▸ lt_size_of_isChoice hid)) with
      hlt | rfl
    · exact hlt
    · rw [childrenOf, node_push_size, hn] at hp
      cases hp
  rw [node_push_lt hlt] at hid
  rw [childrenOf, node_push_lt hlt] at hp
  rw [node_push_lt (hc id p hp)] at hnode
  exact ⟨hid, p, hp, hnode⟩

/-- A choice gets an alternative whose children hold what it stands for. -/
theorem Backed.withAlternative (hε : ε.Laid g) (hbase : ε.nodes.Grows nodes)
    (h : Backed g m tokens nodes) (ho : Owns g nodes owner A alt dot l r)
    (hh : Holds g m tokens ε nodes A alt dot l r children) :
    Backed g m tokens (withAlternative nodes owner A alt children) := by
  have hpush := grows_push nodes (alternativeNode A alt children)
  have hlt := hh.lt_size hε hbase
  have hnode : node (nodes.push (alternativeNode A alt children)) nodes.size =
      alternativeNode A alt children := node_push_size _
  have hb := h.push (n := alternativeNode A alt children) (.inl rfl) hlt trivial
  refine hb.addChild (ho.grows hpush) (by simp) ⟨by rw [hnode]; rfl, ?_⟩
  rw [childrenOf, hnode]
  exact (hh.covers hε hbase).grows hpush hlt

end WithAlternative

end Arena

end ParseForest
