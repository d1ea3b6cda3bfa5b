import ParseForest.Proofs.Forest.Indexing
import ParseForest.Proofs.Parser.Normal
import ParseForest.Proofs.Parser.Trees

/-!
# Every tree of a forest has one number

The numbers of a forest that a parse answers go through its trees, cycles or not (`Parser.numbers_trees`).
For this the alternatives of the forest have to be told apart by their trees, which the passes leave so
(`Arrives.separates_passed`), and each has to belong to one choice. For what is packed in the parse this is
`Engine.Parented`; and a fragment is an alternative of a fragment only, as what spans tokens is not put
together from what derives nothing (`Formed.size_le_of_packs`).
-/

namespace ParseForest

variable {σ : Type}

namespace ParseInput.Formed

open Arena

variable {input : ParseInput σ} {nodes : Arena} (h : input.Formed nodes)
  (hε : input.compiled.epsilon.Laid input.grammar) {A : RuleId} {alt dot l r : Nat} {id p : NodeId}
include h hε

theorem eq_of_stands {x : Symbol} (hid : id < input.compiled.epsilon.nodes.size)
    (hs : nodes.Stands input.compiled.matcher input.tokens x l r id) : l = r := by
  have hspan : (node nodes id).span = none := by rw [h.fragment id hid, hε.span_eq_none hid]
  cases x with
  | terminal t =>
    rw [(h.leaf hε hs.1).1] at hspan
    cases hspan
  | rule A =>
    obtain ⟨-, hs | ⟨-, he⟩⟩ := hs
    · rw [hspan] at hs
      cases hs
    · exact he

/-- Fragments hold symbols over no tokens. -/
theorem eq_of_holds {children : Children} (hh : input.Holds nodes A alt dot l r children)
    (hchildren : ∀ c ∈ children.toList, c < input.compiled.epsilon.nodes.size) : l = r := by
  cases hh with
  | only _ _ hs => exact h.eq_of_stands hε (hchildren _ (.head _)) hs
  | cons _ hs ht =>
    have hsecond := hchildren _ (.tail _ (.head _))
    refine (h.eq_of_stands hε (hchildren _ (.head _)) hs).trans ?_
    cases ht with
    | nulled _ he => exact he
    | last _ _ hs _ => exact h.eq_of_stands hε hsecond hs
    | intermediate _ hspan _ _ _ => exact absurd hsecond (Nat.not_lt.2 (h.size_le_of_span hε hspan))

/-- The alternatives of what spans tokens are no fragments. -/
theorem size_le_of_packs (hp : nodes.Packs id p) {s : Span} (hs : (node nodes id).span = some s) :
    input.compiled.epsilon.nodes.size ≤ p := by
  by_contra hlt
  rw [Nat.not_le] at hlt
  rcases h.alternative_cases hε hp.1 hp.2 with ⟨A, -, hA, -⟩ |
    ⟨s', A, alt, dot, children, hs', -, hnode, hh⟩
  · exact absurd (hε.symbol A id hA).1 (Nat.not_lt.2 (h.size_le_of_span hε hs))
  · refine absurd (h.eq_of_holds hε hh fun c hc => ?_) (Nat.ne_of_lt (h.lt_of_span hε hs'))
    have hc' : c ∈ childrenOf input.compiled.epsilon.nodes p := by
      rw [childrenOf, ← h.fragment p hlt, hnode]
      exact hc
    exact Arena.closed_epsilon hε hc'

/-- Every alternative belongs to one choice. -/
theorem packs_unique (hparented : nodes.Parented input.compiled.epsilon.nodes.size) {id' : NodeId}
    (hp : nodes.Packs id p) (hp' : nodes.Packs id' p) : id' = id := by
  rcases Nat.lt_or_ge p input.compiled.epsilon.nodes.size with hlt | hge
  · -- the fragment of a rule tells which rule it is of
    have hfragment : ∀ {owner}, nodes.Packs owner p → ∃ A alt,
        input.compiled.epsilon.symbol? A = some owner ∧ (node nodes p).kind = .packed A alt := by
      intro owner ho
      rcases h.alternative_cases hε ho.1 ho.2 with ⟨A, alt, hA, hnode⟩ | ⟨s, -, -, -, -, hs, -⟩
      · exact ⟨A, alt, hA, by rw [hnode]; rfl⟩
      · exact absurd hlt (Nat.not_lt.2 (h.size_le_of_packs hε ho hs))
    obtain ⟨A, alt, hA, hk⟩ := hfragment hp
    obtain ⟨B, alt', hB, hk'⟩ := hfragment hp'
    obtain ⟨rfl, -⟩ := NodeKind.packed.inj (hk.symm.trans hk')
    exact Option.some.inj (hB.symm.trans hA)
  · exact (hparented.owner p hge (h.isPacked hε hp.1 hp.2)).unique hp' hp

end ParseInput.Formed

namespace Engine

variable {input : ParseInput σ} {e : Engine σ} {root : NodeId} {user : σ} {f : Forest}

section

variable (hr : input.Ready)
include hr

/-- A parse that ends has a root. -/
theorem parse_arrives (user : σ) : Ends (parse input) (fun root e => Arrives input user e root)
    (fun _ => True) (initial input user) := by
  rw [parse]
  split
  · rename_i hb
    rw [parseBlank]
    split
    · rename_i root hroot
      exact .blank hb hroot
    · trivial
  · rename_i hb
    split
    · trivial
    · refine (parseTokens_ends hr user).mono (fun root e hends => ?_) fun _ _ => trivial
      obtain ⟨start, hf, hroot, hne⟩ := hends
      exact .levels (Bool.eq_false_of_not_eq_true hb) hf hroot hne

/-- Where a parse ends, whatever it has packed belongs to one choice. -/
theorem parse_parented (user : σ) : Ends (parse input) (fun _ e => e.Parented input) (fun _ => True)
    (initial input user) := by
  rw [parse]
  split
  · rw [parseBlank]
    split
    · exact parented_initial hr.epsilon user
    · trivial
  · split
    · trivial
    · refine (parseTokens_reaches hr user).imp fun root e hends => ?_
      obtain ⟨start, hreach, -, -⟩ := hends
      exact hreach.parented hr

/-- The forest of a run is what the passes leave of the arena in which the parse ends. -/
theorem exists_arrives (hf : (run input user).1 = .ok f) : ∃ e root, Arrives input user e root ∧
    e.Parented input ∧ f = ⟨passed input e root, root, input.tokens, input.grammar, e.stats⟩ := by
  have hends := (parse_arrives hr user).and (parse_parented hr user)
  rw [Ends] at hends
  rw [run, EStateM.run] at hf
  cases hp : parse input (initial input user) with
  | ok root e =>
    rw [hp] at hends hf
    dsimp only at hf
    rw [finish_eq] at hf
    split at hf
    · cases hf
    · exact ⟨e, root, hends.1, hends.2, (Except.ok.inj hf).symm⟩
  | error err e =>
    rw [hp] at hf
    cases hf

variable (h : Arrives input user e root)
include h

/-- The passes leave choices fewer alternatives, and nodes no more trees. -/
theorem Arrives.narrows_passed : Arena.Narrows input.grammar input.tokens (fun _ => True) e.nodes
    (passed input e root) := by
  obtain ⟨nodes, htrims, hpassed⟩ := exists_trimmedTo input e root
  have hnarrows : Arena.Narrows input.grammar input.tokens (fun _ => True) e.nodes nodes :=
    htrims.narrows (h.layered hr)
  rcases hpassed with he | he <;> rw [he]
  · exact hnarrows
  · exact hnarrows.trans (Pass.narrows_collapse_linkParents hnarrows.layered
      ((hnarrows.kind_eq _).trans (h.formed hr).backed.epsilon))

/-- The passes leave alternatives that are told apart by their trees. -/
theorem Arrives.separates_passed : (passed input e root).Separates input.grammar input.tokens
    fun _ => True :=
  ((h.formed hr).separates hr (h.distinct hr)).narrows (fun _ _ => trivial) (h.narrows_passed hr)

/-- The passes leave every alternative to one choice. -/
theorem Arrives.owned_passed (hparented : e.Parented input) : (passed input e root).Owned := by
  have hnarrows := h.narrows_passed hr
  have hpacks : ∀ {id p}, (passed input e root).Packs id p → e.nodes.Packs id p := by
    rintro id p ⟨hc, hp⟩
    rw [hnarrows.toSameHeads.isChoice_eq] at hc
    exact ⟨hc, (hnarrows.sublist id hc).subset hp⟩
  intro id p hc hp _ owner hc' hp'
  exact (h.formed hr).packs_unique hr.epsilon hparented.nodes (hpacks ⟨hc, hp⟩) (hpacks ⟨hc', hp'⟩)

/-- Where no rule derives itself, there are no cycles. -/
theorem Arrives.not_cyclic_passed (hcyclic : ¬ input.grammar.Cyclic) :
    ¬ (passed input e root).Cyclic root := by
  obtain ⟨nodes, htrimmed⟩ := exists_trimmedTo input e root
  obtain ⟨rank, hrank⟩ := (h.formed hr).exists_ranked hr.epsilon hr.wellFormed hcyclic
  exact (h.restacks hr htrimmed hrank).ranked.not_cyclic root

end

end Engine

namespace Parser

variable {g : Grammar} {lexer : LexerDescription} {c : CompiledGrammar} {config : ParserConfig}
  {user : List (Disambiguator σ)} {tokens : TokenStream} {s : σ} {f : Forest}

/-- The forests of a grammar without rules that derive themselves have no cycles. -/
theorem not_cyclic_of_ok (hg : g.Built) (hcyclic : ¬ g.Cyclic)
    (hc : CompiledGrammar.ofGrammar g lexer = .ok c)
    (hf : (parseTokens ⟨c, config, user⟩ tokens s).1 = .ok f) : ¬ f.nodes.Cyclic f.root := by
  have hr := CompiledGrammar.ready hg hc config user tokens.ensureEof
  obtain ⟨e, root, harr, -, rfl⟩ := Engine.exists_arrives hr hf
  obtain ⟨rfl, -⟩ := CompiledGrammar.parts_of_ofGrammar hc
  exact harr.not_cyclic_passed hr hcyclic

/-- The numbers below the count of a forest, and no others, are those of its trees, and different numbers
are those of different trees, whatever cycles there are. If no cycle can be reached from the root, the
count is the number of derivations that the forest spells, or the limit if there are more; and up to the
limit every derivation has one number. -/
theorem numbers_trees (hg : g.Built) (hc : CompiledGrammar.ofGrammar g lexer = .ok c)
    (hf : (parseTokens ⟨c, config, user⟩ tokens s).1 = .ok f) :
    (∀ i, (f.treeAt? i).isSome ↔ i < f.treeCount) ∧
    (∀ i j, i < f.treeCount → j < f.treeCount → f.treeAt? i = f.treeAt? j → i = j) ∧
    (¬ f.nodes.Cyclic f.root →
      ∃ ds : List Derivation, ds.Nodup ∧ (∀ d, d ∈ ds ↔ f.nodes.Derives f.root d) ∧
        f.treeCount = min countLimit ds.length ∧ (ds.length ≤ countLimit → ∀ d ∈ ds,
          ∃! i, ∃ t, f.treeAt? i = some t ∧ [t] = d.trees f.nodes f.grammar f.tokens)) := by
  have hr := CompiledGrammar.ready hg hc config user tokens.ensureEof
  obtain ⟨e, root, harr, hparented, rfl⟩ := Engine.exists_arrives hr hf
  have hnarrows := harr.narrows_passed hr
  have howned := harr.owned_passed hr hparented
  have hε := (hnarrows.kind_eq epsilonId).trans (harr.formed hr).backed.epsilon
  have hsep := harr.separates_passed hr
  have hleaf := fun id i hk => (harr.formed hr).lt_length_of_terminal
    ((hnarrows.kind_eq id).symm.trans hk) (i := i)
  have hroot := (hnarrows.kind_eq root).trans (harr.kind_root hr)
  exact ⟨Forest.treeAt?_isSome_iff howned hε hsep hleaf hroot,
    fun i j => Forest.treeAt?_injective howned hε hsep hleaf hroot,
    Forest.exists_derivations howned hε hsep hleaf hroot⟩

theorem numbers_trees_items : ∃ c f, CompiledGrammar.ofGrammar .list .empty = .ok c ∧
    (parseTokens ⟨c, plainConfig, ([] : List (Disambiguator Unit))⟩ (.items 2) ()).1 = .ok f ∧
    (∀ i, (f.treeAt? i).isSome ↔ i < f.treeCount) ∧ ¬ f.nodes.Cyclic f.root ∧
    ∃ ds : List Derivation, (∀ d, d ∈ ds ↔ f.nodes.Derives f.root d) ∧
      f.treeCount = min countLimit ds.length := by
  obtain ⟨c, hc, hm, hsize⟩ := CompiledGrammar.exists_list
  obtain ⟨ht, hcontent, -⟩ := TokenStream.items_endsOnce 2
  obtain ⟨f, hf⟩ := exists_ok Grammar.list_built Grammar.list_avoidsStart hc rfl rfl ht
    (withinLimits_items hc hsize (by decide) [] ()) (by
      rw [hm, hcontent]
      exact Grammar.list_derivesTokens 1)
  obtain ⟨hsome, -, hderives⟩ := numbers_trees Grammar.list_built hc hf
  have hcyclic := not_cyclic_of_ok Grammar.list_built Grammar.list_not_cyclic hc hf
  obtain ⟨ds, -, hds, hcount, -⟩ := hderives hcyclic
  exact ⟨c, f, hc, hf, hsome, hcyclic, ds, hds, hcount⟩

end Parser

end ParseForest
