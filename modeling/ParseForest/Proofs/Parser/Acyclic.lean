import ParseForest.Proofs.Parser.Layout

/-!
# Forests without cycles

If no rule derives itself, no node of the forest of a parse is below itself (`Formed.exists_ranked`).
What is below the node of a rule lies within its tokens (`Below`), and if it is over all of them the
rule derives it in one step or more. So a rule node that is below itself is one of a rule that derives
itself; and a cycle that meets no rule node would be one of parts of right-hand sides, which end.
-/

namespace ParseForest

variable {σ : Type}

/-- What is spelled by no tokens derives nothing. -/
theorem Spells.nullable {g : Grammar} {m : TerminalMatcher} {tokens : TokenStream} {α : List Symbol}
    {l : Nat} (h : Spells g m tokens α l l) : g.Nullable α := by
  obtain ⟨w, hw, hlen, -⟩ := h
  have hnil : w = [] := List.length_eq_zero_iff.1 (by omega)
  rwa [hnil] at hw

/-- In one step or more. -/
abbrev Grammar.DerivesProperly (g : Grammar) : List Symbol → List Symbol → Prop :=
  Relation.TransGen g.Produces

/-- Symbols that derive nothing derive each of them alone. -/
theorem Grammar.Nullable.derives_of_mem {g : Grammar} {α : List Symbol} (h : g.Nullable α)
    {x : Symbol} (hx : x ∈ α) : g.Derives α [x] := by
  obtain ⟨β, γ, rfl⟩ := List.append_of_mem hx
  have hall := Grammar.nullable_iff_forall.1 h
  have hβ : g.Nullable β := Grammar.nullable_iff_forall.2 fun y hy => hall y (by simp [hy])
  have hγ : g.Nullable γ := Grammar.nullable_iff_forall.2 fun y hy => hall y (by simp [hy])
  simpa using Grammar.derives_append hβ (hγ.append_left [x])

/-! ## Fragments -/

section Fragments

variable {g : Grammar} {ε : EpsilonForest}

/-- What is below the fragment of a rule: the rule derives it. -/
inductive EpsilonForest.Below (g : Grammar) (ε : EpsilonForest) (A : RuleId) (c : NodeId) : Prop
  | symbol {B : RuleId} (hB : ε.symbol? B = some c) (hd : g.DerivesProperly [.rule A] [.rule B])
  | packed {B : RuleId} {alt : Nat} (hnode : Arena.node ε.nodes c = packedNode g ε.symbols B alt)
      (hn : g.Nullable (g.alternative B alt).symbols)
      (hd : g.DerivesProperly [.rule A] (g.alternative B alt).symbols)
  | epsilon (h : c = epsilonId)

variable (hg : g.WellFormed) (hε : ε.Laid g)
include hg hε

/-- The alternatives of the fragment of a rule are below it. -/
theorem EpsilonForest.Laid.below_of_alternative {A B : RuleId} {id p : NodeId}
    (hB : ε.symbol? B = some id) (hd : g.Derives [.rule A] [.rule B])
    (hp : p ∈ Arena.childrenOf ε.nodes id) : ε.Below g A p := by
  obtain ⟨alt, halt, -, hnode⟩ := List.exists_right_of_forall₂ (hε.symbol B id hB).2.2.2 hp
  obtain ⟨hlt, hnull⟩ := List.mem_filter.1 halt
  have hn : g.Nullable ((g.alternative B alt).symbols.drop 0) :=
    Arena.nullable_drop hg (Nat.le_of_eq (beq_iff_eq.1 hnull))
  exact .packed hnode hn (.tail' hd
    (Grammar.produces_rule (Grammar.alternative_mem (List.mem_range.1 hlt))))

theorem EpsilonForest.Laid.below_child {A : RuleId} {c d : NodeId} (hb : ε.Below g A c)
    (hd : d ∈ Arena.childrenOf ε.nodes c) : ε.Below g A d := by
  cases hb with
  | symbol hB hproper => exact hε.below_of_alternative hg hB hproper.to_reflTransGen hd
  | @packed B alt hnode hn hproper =>
    rw [Arena.childrenOf, hnode, packedNode] at hd
    dsimp only at hd
    split at hd
    · exact .epsilon (List.mem_singleton.1 hd)
    · obtain ⟨x, hx, rfl⟩ := List.mem_map.1 hd
      cases x with
      | terminal t => exact .epsilon rfl
      | rule C =>
        have hproper' := Relation.TransGen.trans_left hproper (hn.derives_of_mem hx)
        change ε.Below g A ((ε.symbol? C).getD epsilonId)
        cases hC : ε.symbol? C with
        | none => exact .epsilon rfl
        | some id => exact .symbol hC hproper'
  | epsilon h =>
    rw [h, epsilonId, Arena.childrenOf, hε.epsilon] at hd
    cases hd

end Fragments

/-! ## Nodes over tokens -/

namespace ParseInput

variable (input : ParseInput σ) (nodes : Arena) (A : RuleId) (s : Span)

/-- What is below the node of a rule over tokens: it lies within them, and if it is over all of them
the rule derives it. -/
inductive Below (c : NodeId) : Prop
  | fragment (h : c < input.compiled.epsilon.nodes.size)
  | terminal {i : Nat} (hk : (Arena.node nodes c).kind = .terminal i)
  | symbol {B : RuleId} {s' : Span} (hk : (Arena.node nodes c).kind = .symbol B)
      (hs : (Arena.node nodes c).span = some s') (hl : s.left ≤ s'.left) (hr : s'.right ≤ s.right)
      (hd : s' = s → input.grammar.DerivesProperly [.rule A] [.rule B])
  | intermediate {B : RuleId} {alt dot : Nat} {s' : Span}
      (hk : (Arena.node nodes c).kind = .intermediate B alt dot)
      (hs : (Arena.node nodes c).span = some s') (hl : s.left ≤ s'.left) (hr : s'.right ≤ s.right)
      (hd : s' = s → input.grammar.DerivesProperly [.rule A]
        ((input.grammar.alternative B alt).symbols.drop dot))
  | packed {B : RuleId} {alt dot : Nat} {s' : Span} {children : Children}
      (hnode : Arena.node nodes c = Arena.alternativeNode B alt children)
      (hh : input.Holds nodes B alt dot s'.left s'.right children) (hl : s.left ≤ s'.left)
      (hr : s'.right ≤ s.right) (hd : s' = s → input.grammar.DerivesProperly [.rule A]
        ((input.grammar.alternative B alt).symbols.drop dot))

variable {input nodes A s}

namespace Formed

variable (h : input.Formed nodes) (hε : input.compiled.epsilon.Laid input.grammar)
include h hε

/-- What stands for a symbol is below. -/
theorem below_of_stands {x : Symbol} {l r : Nat} {c : NodeId}
    (hs : nodes.Stands input.compiled.matcher input.tokens x l r c) (hl : s.left ≤ l)
    (hr : r ≤ s.right) (hd : ⟨l, r⟩ = s → input.grammar.DerivesProperly [.rule A] [x]) :
    input.Below nodes A s c := by
  cases x with
  | terminal t => exact .terminal hs.1
  | rule B =>
    obtain ⟨hk, hspan | ⟨hnone, -⟩⟩ := hs
    · exact .symbol hk hspan hl hr hd
    · exact .fragment (hε.symbol B c (h.symbol?_of_span_none hε hk hnone)).1

/-- What holds the symbols of an alternative is below. -/
theorem below_of_holds {B : RuleId} {alt dot : Nat} {s' : Span} {children : Children}
    (hh : input.Holds nodes B alt dot s'.left s'.right children) (hl : s.left ≤ s'.left)
    (hr : s'.right ≤ s.right) (hd : s' = s → input.grammar.DerivesProperly [.rule A]
      ((input.grammar.alternative B alt).symbols.drop dot)) {c : NodeId} (hc : c ∈ children.toList) :
    input.Below nodes A s c := by
  obtain ⟨l', r'⟩ := s'
  obtain ⟨l, r⟩ := s
  cases hh with
  | only hx hlast hs =>
    obtain rfl := List.mem_singleton.1 hc
    refine h.below_of_stands hε hs hl hr fun he => ?_
    have := hd he
    rwa [Arena.drop_eq_cons hx, hlast, Alternative.length, List.drop_length] at this
  | @cons x first second k hx hs ht =>
    have hlk := (h.backed.spells_of_stands hs).le
    have htail := h.backed.spells_of_covers (ht.covers hε h.base)
    have hkr := htail.le
    dsimp only at hl hr hlk hkr
    have hsplit : ∀ {l₁ r₁}, l' ≤ l₁ → r₁ ≤ r' → (⟨l₁, r₁⟩ : Span) = ⟨l, r⟩ →
        l₁ = l' ∧ r₁ = r' := by
      intro l₁ r₁ hl₁ hr₁ he
      obtain ⟨rfl, rfl⟩ := Span.mk.inj he
      exact ⟨Nat.le_antisymm hl hl₁, Nat.le_antisymm hr₁ hr⟩
    -- what is over all tokens leaves none for the rest
    have hfirst : (⟨l', k⟩ : Span) = ⟨l, r⟩ → input.grammar.DerivesProperly [.rule A] [x] := by
      intro he
      obtain ⟨-, rfl⟩ := hsplit (Nat.le_refl _) hkr he
      have hproper := hd he
      rw [Arena.drop_eq_cons hx] at hproper
      have hrest : input.grammar.Derives (x :: (input.grammar.alternative B alt).symbols.drop (dot + 1))
          [x] := by
        simpa using Grammar.Derives.append_left htail.nullable [x]
      exact .trans_left hproper hrest
    have hsecond : (⟨k, r'⟩ : Span) = ⟨l, r⟩ → input.grammar.DerivesProperly [.rule A]
        ((input.grammar.alternative B alt).symbols.drop (dot + 1)) := by
      intro he
      obtain ⟨rfl, -⟩ := hsplit hlk (Nat.le_refl _) he
      have hproper := hd he
      rw [Arena.drop_eq_cons hx] at hproper
      have hrest : input.grammar.Derives (x :: (input.grammar.alternative B alt).symbols.drop (dot + 1))
          ((input.grammar.alternative B alt).symbols.drop (dot + 1)) := by
        simpa using Grammar.Derives.append_right (h.backed.spells_of_stands hs).nullable _
      exact .trans_left hproper hrest
    rcases List.mem_cons.1 hc with rfl | hc
    · exact h.below_of_stands hε hs hl (Nat.le_trans hkr hr) hfirst
    · obtain rfl := List.mem_singleton.1 hc
      cases ht with
      | nulled hid _ => exact .fragment (hε.tail B alt (dot + 1) _ hid).1
      | last hx' hlast hs' _ =>
        refine h.below_of_stands hε hs' (Nat.le_trans hl hlk) hr fun he => ?_
        have := hsecond he
        rwa [Arena.drop_eq_cons hx', hlast, Alternative.length, List.drop_length] at this
      | intermediate hk hspan _ _ _ =>
        exact .intermediate hk hspan (Nat.le_trans hl hlk) hr hsecond

omit hε in
/-- The alternatives of a node that is below are below. -/
theorem below_of_alternative {id p : NodeId} {s' : Span} (hc : (Arena.node nodes id).isChoice = true)
    (hs : (Arena.node nodes id).span = some s') (hp : p ∈ Arena.childrenOf nodes id)
    (hl : s.left ≤ s'.left) (hr : s'.right ≤ s.right)
    (hd : s' = s → ∀ B alt dot, Arena.Owns input.grammar nodes id B alt dot s'.left s'.right →
      input.grammar.DerivesProperly [.rule A] ((input.grammar.alternative B alt).symbols.drop dot)) :
    input.Below nodes A s p := by
  obtain ⟨B, alt, dot, children, ho, hnode, hh⟩ := h.shaped id s' hc hs p hp
  exact .packed hnode hh hl hr fun he => hd he B alt dot ho

omit h hε in
/-- A rule that is derived properly derives what its node owns. -/
theorem derivesProperly_of_owns {id : NodeId} {B C : RuleId} {alt dot l r : Nat}
    (hk : (Arena.node nodes id).kind = .symbol B)
    (hd : input.grammar.Derives [.rule A] [.rule B])
    (ho : Arena.Owns input.grammar nodes id C alt dot l r) :
    input.grammar.DerivesProperly [.rule A] ((input.grammar.alternative C alt).symbols.drop dot) := by
  obtain ⟨⟨hk', rfl, halt⟩ | hk', -⟩ := ho
  · obtain rfl := NodeKind.symbol.inj (hk.symm.trans hk')
    exact .tail' hd (Grammar.produces_rule (Grammar.alternative_mem halt))
  · cases hk.symm.trans hk'

/-- What is below something below is below. -/
theorem below_child {c d : NodeId} (hb : input.Below nodes A s c) (hd : nodes.IsChild c d) :
    input.Below nodes A s d := by
  cases hb with
  | fragment hlt =>
    rw [Arena.IsChild, Arena.childrenOf, h.fragment c hlt] at hd
    exact .fragment (Arena.closed_epsilon hε hd)
  | terminal hk =>
    rw [Arena.IsChild, (h.leaf hε hk).2] at hd
    cases hd
  | symbol hk hs hl hr hproper =>
    exact h.below_of_alternative (by rw [Node.isChoice, hk]) hs hd hl hr fun he B alt dot ho =>
      derivesProperly_of_owns hk (hproper he).to_reflTransGen ho
  | intermediate hk hs hl hr hproper =>
    refine h.below_of_alternative (by rw [Node.isChoice, hk]) hs hd hl hr fun he B alt dot ho => ?_
    obtain ⟨⟨hk', -⟩ | hk', -⟩ := ho
    · cases hk.symm.trans hk'
    · obtain ⟨rfl, rfl, rfl⟩ := NodeKind.intermediate.inj (hk.symm.trans hk')
      exact hproper he
  | packed hnode hh hl hr hproper =>
    rw [Arena.IsChild, Arena.childrenOf, hnode] at hd
    exact h.below_of_holds hε hh hl hr hproper hd

/-! ## Cycles -/

/-- A rule whose node is below itself derives itself. -/
theorem derivesProperly_of_cycle (hg : input.grammar.WellFormed) {id : NodeId} {A : RuleId}
    (hk : (Arena.node nodes id).kind = .symbol A) (hcycle : Relation.TransGen nodes.IsChild id id) :
    input.grammar.DerivesProperly [.rule A] [.rule A] := by
  cases hs : (Arena.node nodes id).span with
  | none =>
    have hA := h.symbol?_of_span_none hε hk hs
    obtain ⟨hlt, -⟩ := hε.symbol A id hA
    have hbelow : ∀ c, Relation.TransGen nodes.IsChild id c → c < input.compiled.epsilon.nodes.size ∧
        input.compiled.epsilon.Below input.grammar A c := by
      intro c hc
      induction hc with
      | single hp =>
        rw [Arena.IsChild, Arena.childrenOf, h.fragment id hlt] at hp
        exact ⟨Arena.closed_epsilon hε hp, hε.below_of_alternative hg hA (.refl _) hp⟩
      | tail _ hd ih =>
        rw [Arena.IsChild, Arena.childrenOf, h.fragment _ ih.1] at hd
        exact ⟨Arena.closed_epsilon hε hd, hε.below_child hg ih.2 hd⟩
    rw [h.fragment id hlt] at hk
    cases (hbelow id hcycle).2 with
    | symbol hC hd =>
      obtain rfl := NodeKind.symbol.inj (hk.symm.trans (hε.symbol _ id hC).2.1)
      exact hd
    | packed hnode _ _ =>
      rw [hnode] at hk
      cases hk
    | epsilon he =>
      rw [he, epsilonId, hε.epsilon] at hk
      cases hk
  | some s =>
    have hbelow : ∀ c, Relation.TransGen nodes.IsChild id c → input.Below nodes A s c := by
      intro c hc
      induction hc with
      | single hp =>
        exact h.below_of_alternative (by rw [Node.isChoice, hk]) hs hp (Nat.le_refl _) (Nat.le_refl _)
          fun _ B alt dot ho => derivesProperly_of_owns hk (.refl _) ho
      | tail _ hd ih => exact h.below_child hε ih hd
    cases hbelow id hcycle with
    | fragment hlt => exact absurd (h.size_le_of_span hε hs) (Nat.not_le.2 hlt)
    | terminal hk' => cases hk.symm.trans hk'
    | symbol hk' hs' _ _ hd =>
      obtain rfl := NodeKind.symbol.inj (hk.symm.trans hk')
      exact hd (Option.some.inj (hs'.symm.trans hs))
    | intermediate hk' _ _ _ _ => cases hk.symm.trans hk'
    | packed hnode _ _ _ _ =>
      rw [hnode] at hk
      cases hk

/-- Where no rule derives itself, no node is below itself. -/
theorem not_cycle (hg : input.grammar.WellFormed) (hcyclic : ¬ input.grammar.Cyclic) (id : NodeId) :
    ¬ Relation.TransGen nodes.IsChild id id := by
  have hcases : ∀ a b, Relation.TransGen nodes.IsChild a b →
      Relation.TransGen nodes.IsInnerChild a b ∨
      ∃ c A, (Arena.node nodes c).kind = .symbol A ∧ Relation.ReflTransGen nodes.IsChild a c ∧
        Relation.TransGen nodes.IsChild c b := by
    intro a b hab
    have hstep : ∀ {b c}, nodes.IsChild b c → nodes.IsInnerChild b c ∨
        ∃ A, (Arena.node nodes b).kind = .symbol A := by
      intro b c hbc
      by_cases hA : ∃ A, (Arena.node nodes b).kind = .symbol A
      · exact .inr hA
      · exact .inl ⟨hbc, fun A hk => hA ⟨A, hk⟩⟩
    induction hab with
    | single hab =>
      rcases hstep hab with hin | ⟨A, hk⟩
      · exact .inl (.single hin)
      · exact .inr ⟨a, A, hk, .refl, .single hab⟩
    | tail hab hbc ih =>
      rcases ih with hin | ⟨d, A, hk, had, hdb⟩
      · rcases hstep hbc with hin' | ⟨A, hk⟩
        · exact .inl (.tail hin hin')
        · exact .inr ⟨_, A, hk, hab.to_reflTransGen, .single hbc⟩
      · exact .inr ⟨d, A, hk, had, .tail hdb hbc⟩
  intro hcycle
  rcases hcases id id hcycle with hin | ⟨c, A, hk, hto, hfrom⟩
  · exact h.innerEnds hε id hin
  · exact hcyclic ⟨A, h.derivesProperly_of_cycle hε hg hk (hfrom.trans_left hto)⟩

/-- Where no rule derives itself, the nodes have ranks. -/
theorem exists_ranked (hg : input.grammar.WellFormed) (hcyclic : ¬ input.grammar.Cyclic) :
    ∃ rank, nodes.Ranked rank := by
  obtain ⟨rank, hle, hlt, hzero⟩ := exists_rank (fun id c hc => h.backed.closed id c hc)
    (h.not_cycle hε hg hcyclic)
  refine ⟨rank, fun id c hc => hlt id c hc, hle, hzero epsilonId fun c hc => ?_⟩
  have hmem : c ∈ Arena.childrenOf nodes epsilonId := hc
  rw [h.children_of_epsilon hε h.backed.epsilon] at hmem
  cases hmem

end Formed

end ParseInput

end ParseForest
