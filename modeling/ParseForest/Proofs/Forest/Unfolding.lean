import ParseForest.Proofs.Forest.Derivations
import ParseForest.Proofs.Forest.Fragments
import Mathlib.Data.Set.Function

/-!
# Empty derivations unfolded

The fragments of a grammar may lie on cycles, and unfolding one of them, with an alternative taken at
each visit, may go on forever. What is unfolded in finitely many visits is a `Derivation`, and there is
exactly one for each derivation tree of the empty string (`EpsilonForest.fragments_exact`). One half is
by induction on the derivation (`Laid.spelled`), the other by induction on the tree
(`Laid.existsUnique_derivation`), where the number of an alternative tells under which packed node the
unfolding goes on.
-/

namespace ParseForest

open Arena ParseForest.Derivation

variable {g : Grammar} {m : TerminalMatcher} {tokens : TokenStream} {ε : EpsilonForest}

/-- The trees are derivation trees of the symbols, and there are no tokens in them. -/
def Tree.SpellsNothing (g : Grammar) (m : TerminalMatcher) (ts : List Tree) (xs : List Symbol) : Prop :=
  FitsAll g m ts xs ∧ leavesOfAll ts = []

namespace Tree.SpellsNothing

theorem nil : SpellsNothing g m [] [] := ⟨.nil, rfl⟩

theorem append {ts us : List Tree} {xs ys : List Symbol} (h : SpellsNothing g m ts xs)
    (h' : SpellsNothing g m us ys) : SpellsNothing g m (ts ++ us) (xs ++ ys) :=
  ⟨h.1.append h'.1, by rw [leavesOfAll_append, h.2, h'.2, List.append_nil]⟩

theorem eq_nil {ts : List Tree} (h : SpellsNothing g m ts []) : ts = [] := by
  obtain ⟨hfits, -⟩ := h
  cases hfits
  rfl

/-- What spells nothing for one symbol is one tree. -/
theorem exists_eq {ts : List Tree} {x : Symbol} (h : SpellsNothing g m ts [x]) :
    ∃ t, ts = [t] ∧ Fits g m t x ∧ t.leaves = [] := by
  obtain ⟨hfits, hleaves⟩ := h
  cases hfits with
  | cons h hs =>
    cases hs
    exact ⟨_, rfl, h, by simpa [leavesOfAll] using hleaves⟩

end Tree.SpellsNothing

namespace EpsilonForest.Laid

variable (hg : g.WellFormed) (hε : ε.Laid g)
include hg hε

/-! ## Alternatives of a fragment -/

/-- What is packed under the fragment of a rule is an alternative that derives the empty string. -/
theorem exists_alternative {A : RuleId} {id p : NodeId} (hid : ε.symbol? A = some id)
    (hp : p ∈ childrenOf ε.nodes id) : ∃ alt < (g.rule A).alternatives.size,
      g.Nullable (g.alternative A alt).symbols ∧ node ε.nodes p = packedNode g ε.symbols A alt := by
  obtain ⟨alt, hmem, -, hnode⟩ := List.exists_right_of_forall₂ (hε.symbol A id hid).2.2.2 hp
  obtain ⟨halt, hnull⟩ := (mem_nullableAlternatives_iff hg).1 hmem
  exact ⟨alt, halt, hnull, hnode⟩

omit hg in
/-- No alternative is packed twice under the fragment of a rule. -/
theorem packed_unique {A : RuleId} {id p p' : NodeId} (hid : ε.symbol? A = some id)
    (hp : p ∈ childrenOf ε.nodes id) (hp' : p' ∈ childrenOf ε.nodes id)
    (h : (node ε.nodes p).kind = (node ε.nodes p').kind) : p = p' := by
  have hkinds : (childrenOf ε.nodes id).map (fun q => (node ε.nodes q).kind) =
      (nullableAlternatives g A (g.rule A).alternatives.size).map (NodeKind.packed A) := by
    rw [← List.forall₂_eq_eq_eq, List.forall₂_map_left_iff, List.forall₂_map_right_iff]
    exact (hε.symbol A id hid).2.2.2.imp fun q alt hq => by rw [hq.2]; rfl
  refine List.inj_on_of_nodup_map (f := fun q => (node ε.nodes q).kind) ?_ hp hp' h
  rw [hkinds]
  exact (List.nodup_range.filter _).map fun alt alt' he => (NodeKind.packed.inj he).2

/-- The fragments of symbols that derive the empty string are those of rules. -/
theorem exists_rule {x : Symbol} (hx : g.Nullable [x]) :
    ∃ A, x = .rule A ∧ ε.symbol? A = some (fragment ε.symbols x) := by
  cases x with
  | terminal t => exact absurd hx Grammar.not_nullable_terminal
  | rule A =>
    obtain ⟨id, hid⟩ := hε.exists_symbol hg hx
    exact ⟨A, rfl, hid.trans (congrArg some (fragment_rule hid).symm)⟩

end EpsilonForest.Laid

/-! ## From derivations to trees -/

namespace EpsilonForest

/-- What a derivation from a fragment yields, by what the fragment is. -/
structure Spelled (g : Grammar) (m : TerminalMatcher) (tokens : TokenStream) (ε : EpsilonForest)
    (id : NodeId) (d : Derivation) : Prop where
  root : ∃ parts, d = .visit id parts
  epsilon : id = epsilonId → d.trees ε.nodes g tokens = []
  symbol : ∀ A, ε.symbol? A = some id → Tree.SpellsNothing g m (d.trees ε.nodes g tokens) [.rule A]
  packed : ∀ A alt, g.Nullable (g.alternative A alt).symbols →
    node ε.nodes id = packedNode g ε.symbols A alt →
    Tree.SpellsNothing g m (d.trees ε.nodes g tokens) (g.alternative A alt).symbols

/-- What derivations from the children of a packed node yield. -/
structure SpelledAll (g : Grammar) (m : TerminalMatcher) (tokens : TokenStream) (ε : EpsilonForest)
    (cs : List NodeId) (ds : List Derivation) : Prop where
  epsilon : cs = [epsilonId] → treesOfAll ε.nodes g tokens ds = []
  symbols : ∀ xs, g.Nullable xs → cs = xs.map (fragment ε.symbols) →
    Tree.SpellsNothing g m (treesOfAll ε.nodes g tokens ds) xs

namespace Laid

variable (hg : g.WellFormed) (hε : ε.Laid g)
include hg hε

omit hg in
theorem spelled_leaf {id : NodeId}
    (hk : (∃ i, (node ε.nodes id).kind = .terminal i) ∨ (node ε.nodes id).kind = .epsilon) :
    Spelled g m tokens ε id (.visit id []) where
  root := ⟨_, rfl⟩
  epsilon h := by
    rw [trees, h, show node ε.nodes epsilonId = .ofKind .epsilon none from hε.epsilon]
    rfl
  symbol A hid := by
    rw [(hε.symbol A id hid).2.1] at hk
    simp at hk
  packed A alt _ hnode := by
    rw [hnode] at hk
    simp [packedNode] at hk

theorem spelled_choice {id p : NodeId} {d : Derivation} (hc : (node ε.nodes id).isChoice = true)
    (hp : p ∈ childrenOf ε.nodes id) (h : Spelled g m tokens ε p d) :
    Spelled g m tokens ε id (.visit id [d]) where
  root := ⟨_, rfl⟩
  epsilon h := by
    rw [Node.isChoice, h, show node ε.nodes epsilonId = .ofKind .epsilon none from hε.epsilon] at hc
    cases hc
  symbol A hid := by
    obtain ⟨alt, halt, hnull, hnode⟩ := hε.exists_alternative hg hid hp
    obtain ⟨hfits, hleaves⟩ := h.packed A alt hnull hnode
    obtain ⟨parts, rfl⟩ := h.root
    have halternative : alternativeOf ε.nodes [.visit p parts] = alt := by
      rw [alternativeOf, hnode]
      rfl
    rw [trees, (hε.symbol A id hid).2.1]
    simp only [halternative, treesOfAll_singleton]
    exact ⟨.cons (.rule halt hfits) .nil, by simpa [Tree.leavesOfAll, Tree.leaves] using hleaves⟩
  packed A alt _ hnode := by
    rw [Node.isChoice, hnode] at hc
    cases hc

omit hg in
theorem spelled_whole {id : NodeId} {ds : List Derivation} (hk : (node ε.nodes id).isPacked = true ∨
      ∃ A alt dot, (node ε.nodes id).kind = .nulled A alt dot)
    (h : SpelledAll g m tokens ε (childrenOf ε.nodes id) ds) :
    Spelled g m tokens ε id (.visit id ds) where
  root := ⟨_, rfl⟩
  epsilon h := by
    rw [h, show node ε.nodes epsilonId = .ofKind .epsilon none from hε.epsilon] at hk
    simp [Node.isPacked, Node.ofKind] at hk
  symbol A hid := by simp [Node.isPacked, (hε.symbol A id hid).2.1] at hk
  packed A alt hnull hnode := by
    have htrees : (Derivation.visit id ds).trees ε.nodes g tokens = treesOfAll ε.nodes g tokens ds := by
      rw [trees, hnode]
      rfl
    rw [htrees]
    rw [childrenOf, hnode, packedNode] at h
    by_cases hempty : (g.alternative A alt).isEmpty = true
    · rw [if_pos hempty] at h
      rw [h.epsilon rfl, List.isEmpty_iff.1 hempty]
      exact .nil
    · rw [if_neg hempty] at h
      exact h.symbols _ hnull rfl

omit hg hε in
theorem spelledAll_nil : SpelledAll g m tokens ε [] [] where
  epsilon h := absurd h (by simp)
  symbols xs _ hxs := by
    obtain rfl := List.map_eq_nil_iff.1 hxs.symm
    exact .nil

theorem spelledAll_cons {c : NodeId} {cs : List NodeId} {d : Derivation} {ds : List Derivation}
    (h : Spelled g m tokens ε c d) (hs : SpelledAll g m tokens ε cs ds) :
    SpelledAll g m tokens ε (c :: cs) (d :: ds) where
  epsilon hcs := by
    obtain ⟨rfl, rfl⟩ := List.cons.inj hcs
    rw [treesOfAll, h.epsilon rfl, (hs.symbols [] Grammar.nullable_nil rfl).eq_nil, List.append_nil]
  symbols xs hnull hxs := by
    obtain ⟨x, xs, rfl, rfl, rfl⟩ := List.map_eq_cons_iff.1 hxs.symm
    obtain ⟨hx, hrest⟩ := Grammar.nullable_cons_iff.1 hnull
    obtain ⟨A, rfl, hid⟩ := hε.exists_rule hg hx
    exact (h.symbol A hid).append (hs.symbols xs hrest rfl)

/-- What is unfolded from a fragment in finitely many visits are derivation trees of the empty
string. -/
theorem spelled {id : NodeId} {d : Derivation} (h : ε.nodes.Derives id d) :
    Spelled g m tokens ε id d :=
  derives_induction (fun _ hk => hε.spelled_leaf hk)
    (fun _ _ _ hc hp ih => hε.spelled_choice hg hc hp ih) (fun _ _ hk ih => hε.spelled_whole hk ih)
    spelledAll_nil (fun _ _ _ _ ih ih' => hε.spelledAll_cons hg ih ih') h

/-! ## From trees to derivations -/

omit hg in
/-- The children of an alternative spell trees in exactly one way if the fragments of its symbols do. -/
theorem existsUnique_packed {p : NodeId} {A : RuleId} {alt : Nat} {ts : List Tree}
    (hnode : node ε.nodes p = packedNode g ε.symbols A alt)
    (hfits : Tree.FitsAll g m ts (g.alternative A alt).symbols)
    (h : ∃! ds, ε.nodes.DerivesAll ((g.alternative A alt).symbols.map (fragment ε.symbols)) ds ∧
      treesOfAll ε.nodes g tokens ds = ts) :
    ∃! ds, ε.nodes.DerivesAll (childrenOf ε.nodes p) ds ∧ treesOfAll ε.nodes g tokens ds = ts := by
  rw [childrenOf, hnode, packedNode]
  by_cases hempty : (g.alternative A alt).isEmpty = true
  · have hzero : node ε.nodes epsilonId = .ofKind .epsilon none := hε.epsilon
    have hleaf : (node ε.nodes epsilonId).kind = .epsilon := by rw [hzero]; rfl
    rw [List.isEmpty_iff.1 hempty] at hfits
    cases hfits
    rw [if_pos hempty]
    refine ⟨[.visit epsilonId []], ⟨.cons (.leaf (.inr hleaf)) .nil, ?_⟩, ?_⟩
    · rw [treesOfAll_singleton, trees, hzero]
      rfl
    · rintro ds ⟨_ | ⟨hd, ⟨⟩⟩, -⟩
      rw [(derives_leaf_iff (.inr hleaf)).1 hd]
  · rw [if_neg hempty]
    exact h

/-- A derivation tree of the empty string is unfolded from a fragment in exactly one way. -/
theorem existsUnique_derivation :
    (∀ t x, Tree.Fits g m t x → t.leaves = [] →
      ∃! d, ε.nodes.Derives (fragment ε.symbols x) d ∧ d.trees ε.nodes g tokens = [t]) ∧
    ∀ ts xs, Tree.FitsAll g m ts xs → Tree.leavesOfAll ts = [] →
      ∃! ds, ε.nodes.DerivesAll (xs.map (fragment ε.symbols)) ds ∧
        treesOfAll ε.nodes g tokens ds = ts := by
  refine Tree.fits_induction (fun tok t _ h => ?_) (fun A alt children halt hfits ih h => ?_)
    (fun _ => ?_) fun t ts x xs ht hts ih ih' h => ?_
  · simp [Tree.leaves] at h
  · have hleaves : Tree.leavesOfAll children = [] := by simpa [Tree.leaves] using h
    have hnull := Tree.nullable_of_leaves.2 _ _ hfits hleaves
    obtain ⟨id, hid⟩ := hε.exists_symbol hg
      (Grammar.nullable_rule_iff.2 ⟨_, Grammar.alternative_mem halt, hnull⟩)
    obtain ⟨p, hp, hnode⟩ := hε.exists_packed hg hid halt hnull
    obtain ⟨ds, ⟨hds, htrees⟩, hunique⟩ := hε.existsUnique_packed hnode hfits (ih hleaves)
    have hk := (hε.symbol A id hid).2.1
    have hc : (node ε.nodes id).isChoice = true := by rw [Node.isChoice, hk]
    have hpacked : ∀ {q B b}, node ε.nodes q = packedNode g ε.symbols B b →
        (node ε.nodes q).isPacked = true := by
      intro q B b hq
      rw [hq]
      rfl
    -- the tree of an alternative has the number of the alternative and the trees of its children
    have hyield : ∀ {q b es}, node ε.nodes q = packedNode g ε.symbols A b →
        (Derivation.visit id [.visit q es]).trees ε.nodes g tokens =
          [.rule (g.rule A).name A b (treesOfAll ε.nodes g tokens es)] := by
      intro q b es hq
      rw [trees, hk]
      simp only [alternativeOf, treesOfAll_singleton, trees, hq, packedNode]
    rw [fragment_rule hid]
    refine ⟨.visit id [.visit p ds], ⟨.choice hc hp (.whole (.inl (hpacked hnode)) hds), ?_⟩, ?_⟩
    · rw [hyield hnode, htrees]
    · rintro d ⟨hd, hd'⟩
      obtain ⟨q, hq, e, he, rfl⟩ := (derives_choice_iff hc).1 hd
      obtain ⟨b, hb, -, hqnode⟩ := hε.exists_alternative hg hid hq
      obtain ⟨es, hes, rfl⟩ := (derives_whole_iff (.inl (hpacked hqnode))).1 he
      rw [hyield hqnode] at hd'
      obtain ⟨-, -, rfl, htail⟩ := Tree.rule.inj (List.cons.inj hd').1
      obtain rfl := hε.packed_unique hid hp hq (by rw [hnode, hqnode])
      rw [hunique es ⟨hes, htail⟩]
  · refine ⟨[], ⟨.nil, rfl⟩, ?_⟩
    rintro ds ⟨⟨⟩, -⟩
    rfl
  · obtain ⟨hl, hl'⟩ := List.append_eq_nil_iff.1 (show t.leaves ++ Tree.leavesOfAll ts = [] from h)
    obtain ⟨d, ⟨hd, htree⟩, hunique⟩ := ih hl
    obtain ⟨ds, ⟨hds, htrees⟩, hunique'⟩ := ih' hl'
    refine ⟨d :: ds, ⟨.cons hd hds, by rw [treesOfAll, htree, htrees]; rfl⟩, ?_⟩
    rintro es ⟨_ | ⟨he, hes⟩, hes'⟩
    -- the derivation of the first symbol yields one tree, which is where the trees divide
    obtain ⟨A, rfl, hid⟩ := hε.exists_rule hg (Tree.nullable_of_leaves.1 t x ht hl)
    have hspelled : Spelled g m tokens ε _ _ := hε.spelled hg he
    obtain ⟨u, hu, -⟩ := (hspelled.symbol A hid).exists_eq
    rw [treesOfAll, hu] at hes'
    obtain ⟨rfl, hrest⟩ := List.cons.inj hes'
    rw [hunique _ ⟨he, hu⟩, hunique' _ ⟨hes, hrest⟩]

/-- The derivations that the fragment of a rule spells are, one for one, the derivation trees of the empty
string from the rule. -/
theorem bijOn_trees (m : TerminalMatcher) (tokens : TokenStream) {A : RuleId} {id : NodeId}
    (hid : ε.symbol? A = some id) :
    Set.BijOn (Derivation.trees ε.nodes g tokens) {d | ε.nodes.Derives id d}
      ((fun t => [t]) '' {t | Tree.Fits g m t (.rule A) ∧ t.leaves = []}) := by
  have hyields : ∀ d, ε.nodes.Derives id d →
      ∃ t, d.trees ε.nodes g tokens = [t] ∧ Tree.Fits g m t (.rule A) ∧ t.leaves = [] :=
    fun d hd => ((hε.spelled hg hd).symbol A hid).exists_eq
  have hunique : ∀ t, Tree.Fits g m t (.rule A) → t.leaves = [] →
      ∃! d, ε.nodes.Derives id d ∧ d.trees ε.nodes g tokens = [t] := by
    intro t ht hl
    rw [← fragment_rule hid]
    exact (hε.existsUnique_derivation hg).1 t _ ht hl
  refine ⟨fun d hd => ?_, fun d hd d' hd' he => ?_, ?_⟩
  · obtain ⟨t, ht, h⟩ := hyields d hd
    exact ⟨t, h, ht.symm⟩
  · obtain ⟨t, ht, hfits, hl⟩ := hyields d hd
    exact (hunique t hfits hl).unique ⟨hd, ht⟩ ⟨hd', he ▸ ht⟩
  · rintro _ ⟨t, ⟨hfits, hl⟩, rfl⟩
    obtain ⟨d, ⟨hd, ht⟩, -⟩ := hunique t hfits hl
    exact ⟨d, hd, ht⟩

/-! ## Tails -/

/-- There is a fragment for the symbols of an alternative from a place inside on if they all derive the
empty string. -/
theorem tail?_isSome_iff (A : RuleId) (alt k : Nat) : (ε.tail? A alt k).isSome ↔
    alt < (g.rule A).alternatives.size ∧ 1 ≤ k ∧ k < (g.alternative A alt).length ∧
      ∀ x ∈ (g.alternative A alt).symbols.drop k, g.Nullable [x] := by
  rw [hε.tail?_isSome]
  refine and_congr_right fun halt => and_congr_right fun _ => and_congr_right fun _ => ?_
  rw [hg.nullableFrom_le_iff A _ (Grammar.alternative_mem halt), Grammar.nullable_iff_forall]

/-- The fragments of the symbols, in order, are the children of a tail. -/
theorem childrenOf_tail {A : RuleId} {alt k : Nat} {id : NodeId} (hid : ε.tail? A alt k = some id) :
    List.Forall₂ (fun x c => ∃ B, x = .rule B ∧ ε.symbol? B = some c)
      ((g.alternative A alt).symbols.drop k) (childrenOf ε.nodes id) := by
  obtain ⟨-, -, -, hnull⟩ := (hε.tail?_isSome_iff hg A alt k).1 (by rw [hid]; rfl)
  rw [childrenOf, (hε.tail A alt k id hid).2]
  change List.Forall₂ _ _ (List.map _ _)
  rw [List.forall₂_map_right_iff]
  exact List.forall₂_same.2 fun x hx => hε.exists_rule hg (hnull x hx)

end Laid

/-- The fragments of a grammar spell exactly the empty derivations. A rule has one if it derives the empty
string, and what is unfolded from it is, one for one, what the rule derives the empty string by. The symbols
of an alternative from a place inside on have one if they all derive the empty string, and below it are
their own. The first node is the leaf for the empty string, no child is outside the arena, and no node has a
span. -/
theorem fragments_exact (hg : g.Built) :
    (∀ A, ((ofGrammar g).symbol? A).isSome ↔ g.Nullable [.rule A]) ∧
    (∀ A id, (ofGrammar g).symbol? A = some id → id < (ofGrammar g).nodes.size ∧
      (node (ofGrammar g).nodes id).kind = .symbol A ∧ ∀ m tokens,
        Set.BijOn (Derivation.trees (ofGrammar g).nodes g tokens) {d | (ofGrammar g).nodes.Derives id d}
          ((fun t => [t]) '' {t | Tree.Fits g m t (.rule A) ∧ t.leaves = []})) ∧
    (∀ A alt k, ((ofGrammar g).tail? A alt k).isSome ↔ alt < (g.rule A).alternatives.size ∧ 1 ≤ k ∧
      k < (g.alternative A alt).length ∧ ∀ x ∈ (g.alternative A alt).symbols.drop k, g.Nullable [x]) ∧
    (∀ A alt k id, (ofGrammar g).tail? A alt k = some id → id < (ofGrammar g).nodes.size ∧
      (node (ofGrammar g).nodes id).kind = .nulled A alt k ∧
      List.Forall₂ (fun x c => ∃ B, x = .rule B ∧ (ofGrammar g).symbol? B = some c)
        ((g.alternative A alt).symbols.drop k) (childrenOf (ofGrammar g).nodes id)) ∧
    node (ofGrammar g).nodes 0 = .ofKind .epsilon none ∧
    (∀ id < (ofGrammar g).nodes.size, ∀ c ∈ childrenOf (ofGrammar g).nodes id,
      c < (ofGrammar g).nodes.size) ∧
    ∀ id < (ofGrammar g).nodes.size, (node (ofGrammar g).nodes id).span = none := by
  have hw := hg.wellFormed
  have hε := laid_ofGrammar g
  refine ⟨fun A => ?_, fun A id hid => ?_, hε.tail?_isSome_iff hw, fun A alt k id hid => ?_, hε.epsilon,
    fun _ _ _ hc => Arena.closed_epsilon hε hc, fun id hid => hε.span_eq_none hid⟩
  · rw [hε.symbol?_isSome, hw.isNullable_iff]
  · obtain ⟨hlt, hk, -⟩ := hε.symbol A id hid
    exact ⟨hlt, hk, fun m tokens => hε.bijOn_trees hw m tokens hid⟩
  · obtain ⟨hlt, hnode⟩ := hε.tail A alt k id hid
    exact ⟨hlt, by rw [hnode]; rfl, hε.childrenOf_tail hw hid⟩

/-- Calls for the grammar `A ::= A A | ""`, in which the empty string has infinitely many derivations. -/
def nestBuilder : GrammarBuilder :=
  (GrammarBuilder.new.internRule "A" .normal).2
    |>.addAlternative 2 [.rule 2, .rule 2]
    |>.addAlternative 2 []

/-- What they build. -/
def nest : Grammar where
  rules := #[⟨startRuleName, .start, #[⟨[.rule 2, .rule 1], 2, none⟩], false⟩,
    ⟨"Token-EOF", .tokenClass, #[⟨[.terminal 0], 1, none⟩], false⟩,
    ⟨"A", .normal, #[⟨[.rule 2, .rule 2], 0, none⟩, ⟨[], 0, none⟩], true⟩]
  terminals := #[.ofClass eofClass ""]
  start := 0
  first := 2
  eofRule := 1
  eof := 0

theorem nest_built : nest.Built := by
  refine ⟨nestBuilder, ?_, by decide +kernel⟩
  have h := GrammarBuilder.Made.new.internRule "A" .normal
  refine (h.addAlternative 2 [.rule 2, .rule 2] ?_).addAlternative 2 [] ?_
  · simp
  · simp

/-- The fragment of `A`, the first node after the leaf for the empty string, lies on a cycle; it spells the
tree in which both children are empty, and spells it once. The second symbol of `A A` has a fragment of its
own, the first has none. -/
theorem fragments_exact_nest :
    let empty : Tree := .rule "A" 2 1 []
    (ofGrammar nest).symbol? 2 = some 1 ∧
    (∃! d, (ofGrammar nest).nodes.Derives 1 d ∧
      d.trees (ofGrammar nest).nodes nest (.ofTokens []) = [.rule "A" 2 0 [empty, empty]]) ∧
    ((ofGrammar nest).tail? 2 0 1).isSome ∧ ¬ ((ofGrammar nest).tail? 2 0 0).isSome := by
  intro empty
  obtain ⟨-, hsymbol, htail, -⟩ := fragments_exact nest_built
  have hid : (ofGrammar nest).symbol? 2 = some 1 := by decide +kernel
  obtain ⟨-, -, hall⟩ := hsymbol 2 1 hid
  let m : TerminalMatcher := ⟨#[], 0⟩
  have hempty : Tree.Fits nest m empty (.rule 2) :=
    .rule (show 1 < (nest.rule 2).alternatives.size by decide) .nil
  have hfits : Tree.Fits nest m (.rule "A" 2 0 [empty, empty]) (.rule 2) :=
    .rule (show 0 < (nest.rule 2).alternatives.size by decide) (.cons hempty (.cons hempty .nil))
  obtain ⟨-, hinj, hsurj⟩ := hall m (.ofTokens [])
  obtain ⟨d, hd, ht⟩ := hsurj ⟨_, ⟨hfits, rfl⟩, rfl⟩
  refine ⟨hid, ⟨d, ⟨hd, ht⟩, fun d' hd' => hinj hd'.1 hd (hd'.2.trans ht.symm)⟩, ?_, ?_⟩
  · refine (htail 2 0 1).2 ⟨by decide, by decide, by decide, ?_⟩
    have hnull : nest.Nullable [.rule 2] :=
      (Tree.nullable_of_leaves (m := m)).1 empty _ hempty rfl
    intro x hx
    obtain rfl : x = .rule 2 := by simpa [nest, Grammar.alternative, Grammar.rule] using hx
    exact hnull
  · exact fun h => absurd ((htail 2 0 0).1 h).2.1 (by decide)

end EpsilonForest

end ParseForest
