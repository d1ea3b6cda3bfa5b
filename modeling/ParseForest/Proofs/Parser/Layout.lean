import ParseForest.Proofs.Forest.Collapsing
import ParseForest.Proofs.Forest.Shapes
import ParseForest.Proofs.Parser.Outcome
import Mathlib.Data.List.MinMax

/-!
# How the forest of a parse is laid out

What the passes after a parse rely on: choices and alternatives alternate (`Arena.Layered`),
alternatives are told apart by their children (`Arena.Distinct`), and the parts of a right-hand side
end (`Arena.ShapesEnd`).
-/

namespace ParseForest

variable {σ : Type}

/-- The node is a child. -/
def Arena.IsChild (nodes : Arena) (id c : NodeId) : Prop := c ∈ Arena.childrenOf nodes id

/-- The node is a child of what is no rule node. -/
def Arena.IsInnerChild (nodes : Arena) (id c : NodeId) : Prop :=
  nodes.IsChild id c ∧ ∀ A, (Arena.node nodes id).kind ≠ .symbol A

/-- A part of a right-hand side is deeper the more symbols there are from where it begins. -/
def Arena.innerDepth (g : Grammar) (nodes : Arena) (id : NodeId) : Nat :=
  match (Arena.node nodes id).kind with
  | .intermediate A alt dot => 2 * ((g.alternative A alt).length - dot) + 3
  | .nulled _ _ _ => 1
  | _ => 0

/-- How deep a node is, an alternative over its deepest child. -/
def Arena.innerHeight (g : Grammar) (nodes : Arena) (id : NodeId) : Nat :=
  if (Arena.node nodes id).isPacked
  then ((Arena.childrenOf nodes id).map (nodes.innerDepth g)).foldr max 0 + 1
  else nodes.innerDepth g id

namespace ParseInput.Formed

variable {input : ParseInput σ} {nodes : Arena} (h : input.Formed nodes)
  (hε : input.compiled.epsilon.Laid input.grammar)
include h hε

/-- The alternatives of a choice: what derives nothing under the fragment of a rule, and otherwise
what holds the symbols of an alternative. -/
theorem alternative_cases {id p : NodeId} (hc : (Arena.node nodes id).isChoice = true)
    (hp : p ∈ Arena.childrenOf nodes id) :
    (∃ A alt, input.compiled.epsilon.symbol? A = some id ∧ Arena.node nodes p =
      EpsilonForest.packedNode input.grammar input.compiled.epsilon.symbols A alt) ∨
    ∃ s A alt dot children, (Arena.node nodes id).span = some s ∧
      Arena.Owns input.grammar nodes id A alt dot s.left s.right ∧
      Arena.node nodes p = Arena.alternativeNode A alt children ∧
      input.Holds nodes A alt dot s.left s.right children := by
  cases hs : (Arena.node nodes id).span with
  | none =>
    obtain ⟨A, hA⟩ := h.fragment_of_span_none hε hc hs
    obtain ⟨hlt, -, -, hall⟩ := hε.symbol A id hA
    rw [Arena.childrenOf, h.fragment id hlt] at hp
    obtain ⟨alt, -, hplt, hnode⟩ := List.exists_right_of_forall₂ hall hp
    exact .inl ⟨A, alt, hA, (h.fragment p hplt).trans hnode⟩
  | some s =>
    obtain ⟨A, alt, dot, children, ho, hnode, hh⟩ := h.shaped id s hc hs p hp
    exact .inr ⟨s, A, alt, dot, children, rfl, ho, hnode, hh⟩

theorem kind_fragment (x : Symbol) :
    (Arena.node nodes (EpsilonForest.fragment input.compiled.epsilon.symbols x)).kind = .epsilon ∨
      ∃ A, (Arena.node nodes (EpsilonForest.fragment input.compiled.epsilon.symbols x)).kind =
        .symbol A := by
  rw [h.fragment _ (Arena.fragment_lt hε x)]
  exact hε.kind_fragment x

/-- The children of an alternative that derives nothing. -/
theorem kind_of_packedNode {p c : NodeId} {A : RuleId} {alt : Nat} (hp : Arena.node nodes p =
      EpsilonForest.packedNode input.grammar input.compiled.epsilon.symbols A alt)
    (hc : c ∈ Arena.childrenOf nodes p) : (Arena.node nodes c).kind = .epsilon ∨
      ∃ A, (Arena.node nodes c).kind = .symbol A := by
  rw [Arena.childrenOf, hp] at hc
  obtain ⟨x, rfl⟩ := EpsilonForest.exists_fragment_of_packedNode hc
  exact h.kind_fragment hε x

/-- The children of a nulled node. -/
theorem kind_of_nulled {id c : NodeId} {A : RuleId} {alt dot : Nat}
    (hk : (Arena.node nodes id).kind = .nulled A alt dot) (hc : c ∈ Arena.childrenOf nodes id) :
    (Arena.node nodes c).kind = .epsilon ∨ ∃ A, (Arena.node nodes c).kind = .symbol A := by
  have hlt : id < input.compiled.epsilon.nodes.size := by
    by_contra hge
    have hm := h.made id (Nat.not_lt.1 hge) (Arena.lt_size_of_kind (by rw [hk]; simp))
    rw [Node.IsMade, hk] at hm
    exact hm
  rw [Arena.childrenOf, h.fragment id hlt] at hc
  rw [h.fragment id hlt] at hk
  by_cases h0 : id = 0
  · rw [h0, hε.epsilon] at hk
    cases hk
  · rcases hε.kinds id hlt h0 with ⟨B, hB⟩ | ⟨B, alt', he⟩ | ⟨B, alt', dot', -, he⟩
    · cases hk.symm.trans (hε.symbol B id hB).2.1
    · rw [he] at hk
      cases hk
    · rw [he] at hc
      obtain ⟨x, rfl⟩ := EpsilonForest.exists_fragment_of_nulledNode hc
      exact h.kind_fragment hε x

/-- The children of an alternative of a choice that spans tokens: what stands for the first symbol and
for the rest. -/
theorem kind_of_holds {A : RuleId} {alt dot l r : Nat} {children : Children}
    (hh : input.Holds nodes A alt dot l r children) {c : NodeId} (hc : c ∈ children.toList) :
    ((∃ i, (Arena.node nodes c).kind = .terminal i) ∨
      ∃ B, (Arena.node nodes c).kind = .symbol B) ∨
    ((Arena.node nodes c).kind = .nulled A alt (dot + 1) ∧
      input.compiled.epsilon.tail? A alt (dot + 1) = some c) ∨
    (∃ k, (Arena.node nodes c).kind = .intermediate A alt (dot + 1) ∧
      (Arena.node nodes c).span = some ⟨k, r⟩ ∧ dot + 1 < (input.grammar.alternative A alt).length) := by
  cases hh with
  | only hx hlast hs =>
    obtain rfl := List.mem_singleton.1 hc
    exact .inl hs.kind_cases
  | cons hx hs ht =>
    rcases List.mem_cons.1 hc with rfl | hc
    · exact .inl hs.kind_cases
    · obtain rfl := List.mem_singleton.1 hc
      cases ht with
      | nulled htail he => exact .inr (.inl ⟨(Arena.kind_tail hε h.base htail).2, htail⟩)
      | last _ _ hs _ => exact .inl hs.kind_cases
      | intermediate hk hspan _ hmore _ => exact .inr (.inr ⟨_, hk, hspan, Nat.lt_of_succ_lt hmore⟩)

theorem children_of_epsilon {id : NodeId} (hk : (Arena.node nodes id).kind = .epsilon) :
    Arena.childrenOf nodes id = [] := by
  by_cases hlt : id < nodes.size
  · have hfragment : id < input.compiled.epsilon.nodes.size := by
      by_contra hge
      have hm := h.made id (Nat.not_lt.1 hge) hlt
      rw [Node.IsMade, hk] at hm
      exact hm
    rw [h.fragment id hfragment] at hk
    rw [Arena.childrenOf, h.fragment id hfragment]
    by_cases h0 : id = 0
    · rw [h0, hε.epsilon]
      rfl
    · rcases hε.kinds id hfragment h0 with ⟨B, hB⟩ | ⟨B, alt', he⟩ | ⟨B, alt', dot', -, he⟩
      · cases hk.symm.trans (hε.symbol B id hB).2.1
      · rw [he] at hk
        cases hk
      · rw [he] at hk
        cases hk
  · rw [Arena.childrenOf, Arena.node_of_size_le (Nat.not_lt.1 hlt)]
    rfl

/-- What has a packed node among its children is a choice. -/
theorem isChoice_of_isPacked {id p : NodeId} (hp : (Arena.node nodes p).isPacked = true)
    (hmem : p ∈ Arena.childrenOf nodes id) : (Arena.node nodes id).isChoice = true := by
  cases hk : (Arena.node nodes id).kind with
  | symbol A => rw [Node.isChoice, hk]
  | intermediate A alt dot => rw [Node.isChoice, hk]
  | packed A alt =>
    rw [h.inner id (by rw [Node.isPacked, hk]) p hmem] at hp
    cases hp
  | terminal i =>
    rw [(h.leaf hε hk).2] at hmem
    cases hmem
  | epsilon =>
    rw [h.children_of_epsilon hε hk] at hmem
    cases hmem
  | nulled A alt dot =>
    rcases h.kind_of_nulled hε hk hmem with hk | ⟨B, hk⟩ <;> rw [Node.isPacked, hk] at hp <;> cases hp

/-- Choices and packed nodes alternate. -/
theorem layered : nodes.Layered :=
  ⟨h.backed.closed, fun _ hc _ hp => h.isPacked hε hc hp, fun _ _ hp hpk =>
    h.isChoice_of_isPacked hε hpk hp⟩

/-- The alternatives of a choice and the parts in them are told apart. -/
theorem distinct (hnodup : ∀ id s, (Arena.node nodes id).isChoice = true →
      (Arena.node nodes id).span = some s →
      ((Arena.childrenOf nodes id).map (Arena.node nodes)).Nodup) : nodes.Distinct := by
  refine ⟨fun id hc p hp p' hp' c hcp c' hcp' hpart hk hs => ?_,
    fun id hc => ?_⟩
  · -- only what holds symbols over tokens has parts
    rcases h.alternative_cases hε hc hp with ⟨A, alt, -, hnode⟩ |
      ⟨s, A, alt, dot, children, -, -, hnode, hh⟩
    · rcases hpart with ⟨B, alt', dot', hkc⟩ | ⟨B, alt', dot', hkc⟩ <;>
        rcases h.kind_of_packedNode hε hnode hcp with hk' | ⟨B', hk'⟩ <;> cases hkc.symm.trans hk'
    · rcases h.alternative_cases hε hc hp' with ⟨A', alt', -, hnode'⟩ |
        ⟨s', A', alt', dot', children', -, -, hnode', hh'⟩
      · rcases hpart with ⟨B, alt', dot', hkc⟩ | ⟨B, alt', dot', hkc⟩ <;>
          rcases h.kind_of_packedNode hε hnode' hcp' with hk' | ⟨B', hk'⟩ <;>
          cases hkc.symm.trans (hk.trans hk')
      · rw [Arena.childrenOf, hnode] at hcp
        rw [Arena.childrenOf, hnode'] at hcp'
        rcases h.kind_of_holds hε hh hcp with (⟨i, hkc⟩ | ⟨B, hkc⟩) | ⟨hkc, htail⟩ | ⟨k, hkc, hspan, -⟩
        · rcases hpart with ⟨_, _, _, hk'⟩ | ⟨_, _, _, hk'⟩ <;> cases hkc.symm.trans hk'
        · rcases hpart with ⟨_, _, _, hk'⟩ | ⟨_, _, _, hk'⟩ <;> cases hkc.symm.trans hk'
        · rcases h.kind_of_holds hε hh' hcp' with (⟨i, hkc'⟩ | ⟨B, hkc'⟩) | ⟨hkc', htail'⟩ | ⟨k, hkc', -⟩
          · cases hkc.symm.trans (hk.trans hkc')
          · cases hkc.symm.trans (hk.trans hkc')
          · obtain ⟨rfl, rfl, hdot⟩ := NodeKind.nulled.inj (hkc.symm.trans (hk.trans hkc'))
            rw [← hdot] at htail'
            exact Option.some.inj (htail.symm.trans htail')
          · cases hkc.symm.trans (hk.trans hkc')
        · exact h.unique c c' _ hspan (hs ▸ hspan) hk
  · cases hs : (Arena.node nodes id).span with
    | none =>
      obtain ⟨A, hA⟩ := h.fragment_of_span_none hε hc hs
      obtain ⟨hlt, -, -, hall⟩ := hε.symbol A id hA
      have hchildren : Arena.childrenOf nodes id =
          Arena.childrenOf input.compiled.epsilon.nodes id := by
        rw [Arena.childrenOf, h.fragment id hlt]
        rfl
      rw [hchildren]
      -- different alternatives have different numbers
      have hkinds : (Arena.childrenOf input.compiled.epsilon.nodes id).map
          (fun p => (Arena.node nodes p).kind) =
            (EpsilonForest.nullableAlternatives input.grammar A
              (input.grammar.rule A).alternatives.size).map (.packed A) := by
        refine List.forall₂_eq_eq_eq ▸ List.forall₂_map_left_iff.2 (List.forall₂_map_right_iff.2 ?_)
        refine hall.imp fun p alt hp => ?_
        rw [h.fragment p hp.1, hp.2]
        rfl
      refine List.Nodup.of_map Prod.fst ?_
      rw [List.map_map]
      refine (congrArg List.Nodup hkinds).mpr (List.Nodup.map ?_ (List.nodup_range.filter _))
      exact fun alt alt' heq => (NodeKind.packed.inj heq).2
    | some s =>
      have hmap := hnodup id s hc hs
      refine (List.Nodup.of_map _ hmap).map_on fun p hp p' hp' heq => ?_
      refine List.inj_on_of_nodup_map hmap hp hp' ?_
      obtain ⟨A, alt, dot, children, -, hnode, -⟩ := h.shaped id s hc hs p hp
      obtain ⟨A', alt', dot', children', -, hnode', -⟩ := h.shaped id s hc hs p' hp'
      obtain ⟨hk, hch⟩ := Prod.mk.inj heq
      rw [Arena.childrenOf, Arena.childrenOf, hnode, hnode'] at hch
      rw [hnode, hnode'] at hk
      obtain ⟨rfl, rfl⟩ := NodeKind.packed.inj hk
      rw [hnode, hnode', Arena.Children.toList_injective hch]

/-- A way that does not go on from a rule node ends. -/
theorem innerEnds (id : NodeId) : ¬ Relation.TransGen nodes.IsInnerChild id id := by
  -- a part of a right-hand side is below the parts that begin further left
  have hunpacked : ∀ {c}, (Arena.node nodes c).isPacked = false →
      nodes.innerHeight input.grammar c = nodes.innerDepth input.grammar c := by
    intro c hc
    simp only [Arena.innerHeight, hc, Bool.false_eq_true, if_false]
  refine not_transGen_of_lt (nodes.innerHeight input.grammar) ?_ id
  rintro a c ⟨hc, hsymbol⟩
  have hleaf : ∀ {c}, (Arena.node nodes c).kind = .epsilon ∨
      (∃ A, (Arena.node nodes c).kind = .symbol A) → nodes.innerHeight input.grammar c = 0 := by
    rintro c (hk | ⟨A, hk⟩) <;> simp only [Arena.innerHeight, Arena.innerDepth, Node.isPacked, hk,
      Bool.false_eq_true, if_false]
  cases hk : (Arena.node nodes a).kind with
  | symbol A => exact absurd hk (hsymbol A)
  | packed A alt =>
    have hpacked : (Arena.node nodes a).isPacked = true := by rw [Node.isPacked, hk]
    have hle := List.le_max_of_le (List.mem_map_of_mem (f := nodes.innerDepth input.grammar) hc)
      (Nat.le_refl _)
    rw [hunpacked (h.inner a hpacked c hc)]
    simp only [Arena.innerHeight, hpacked, if_true]
    exact Nat.lt_succ_of_le hle
  | nulled A alt dot =>
    rw [hleaf (h.kind_of_nulled hε hk hc)]
    simp only [Arena.innerHeight, Arena.innerDepth, Node.isPacked, hk, Bool.false_eq_true, if_false]
    exact Nat.zero_lt_one
  | terminal i =>
    rw [Arena.IsChild, (h.leaf hε hk).2] at hc
    cases hc
  | epsilon =>
    rw [Arena.IsChild, h.children_of_epsilon hε hk] at hc
    cases hc
  | intermediate A alt dot =>
    have hchoice : (Arena.node nodes a).isChoice = true := by rw [Node.isChoice, hk]
    rcases h.alternative_cases hε hchoice hc with ⟨B, alt', hB, -⟩ |
      ⟨s, B, alt', dot', children, -, ⟨⟨hk', -⟩ | hk', -⟩, hnode, hh⟩
    · obtain ⟨hlt, hk', -⟩ := hε.symbol B a hB
      rw [h.fragment a hlt, hk'] at hk
      cases hk
    · cases hk.symm.trans hk'
    · obtain ⟨rfl, rfl, rfl⟩ := NodeKind.intermediate.inj (hk.symm.trans hk')
      have hmax : (children.toList.map (nodes.innerDepth input.grammar)).foldr max 0 ≤
          2 * ((input.grammar.alternative A alt).length - dot) + 1 := by
        refine List.max_le_of_forall_le _ _ fun n hn => ?_
        obtain ⟨d, hd, rfl⟩ := List.mem_map.1 hn
        rcases h.kind_of_holds hε hh hd with (⟨i, hkd⟩ | ⟨B, hkd⟩) | ⟨hkd, -⟩ | ⟨k, hkd, -, hmore⟩ <;>
          simp only [Arena.innerDepth, hkd]
        all_goals omega
      have hheight : nodes.innerHeight input.grammar c =
          (children.toList.map (nodes.innerDepth input.grammar)).foldr max 0 + 1 := by
        simp only [Arena.innerHeight, Node.isPacked, hnode, Arena.alternativeNode, Arena.childrenOf, if_true]
      have hself : nodes.innerHeight input.grammar a =
          2 * ((input.grammar.alternative A alt).length - dot) + 3 := by
        simp only [Arena.innerHeight, Arena.innerDepth, Node.isPacked, hk, Bool.false_eq_true, if_false]
      omega

/-- Below what is no rule node, ranks fall, also where rules derive themselves. -/
theorem exists_innerRanked : ∃ rank, nodes.InnerRanked rank := by
  obtain ⟨rank, hle, hlt, hzero⟩ := exists_rank (fun id c hc => h.backed.closed id c hc.1) (h.innerEnds hε)
  refine ⟨rank, fun id hid c hc => hlt id c ⟨hc, hid⟩, hle, hzero epsilonId fun c hc => ?_⟩
  have hmem : c ∈ Arena.childrenOf nodes epsilonId := hc.1
  rw [h.children_of_epsilon hε h.backed.epsilon] at hmem
  cases hmem

/-- The parts of a right-hand side end. -/
theorem shapesEnd : nodes.ShapesEnd := by
  refine fun id hcycle => h.innerEnds hε id (Relation.TransGen.mono (fun a b hab => ⟨hab.1, ?_⟩) _ _
    hcycle)
  intro A hk
  have hpacked := h.isPacked hε (by rw [Node.isChoice, hk]) hab.1
  obtain ⟨B, alt, hkb⟩ := Node.isPacked_iff.1 hpacked
  rcases hab.2 with ⟨C, alt', dot, hk'⟩ | ⟨C, alt', dot, hk'⟩ | ⟨C, alt', dot, hk'⟩
  · cases hk.symm.trans hk'
  · cases hkb.symm.trans hk'
  · cases hkb.symm.trans hk'

end ParseInput.Formed

end ParseForest
