import ParseForest.Proofs.Parser.Operators
import ParseForest.Proofs.Parser.Trees

/-!
# Precedence loses no clean tree

Where the operator alternatives of a grammar split once, a parse with precedence answers a forest with
every clean tree of its input (`Parser.keeps_clean_trees`): no derivation that such a tree needs is turned
down (`Engine.Finished.spares_clean`), and the passes take none away (`Arrives.exists_trimmedTo`).
-/

namespace ParseForest

variable {σ : Type}

namespace Engine

variable {input : ParseInput σ} {e : Engine σ} {root : NodeId} {user : σ} {t : Tree}

section

variable (hr : input.Ready) (h : Arrives input user e root) (hsplits : input.grammar.SplitsOnce)
  (hby : input.ByPrecedence)
include hr h hsplits hby

omit hby in
theorem Arrives.resolvable : e.nodes.Resolvable input.grammar :=
  (h.formed hr).resolvable hr hsplits fun _ _ => h.nodup hr

/-- The passes that take alternatives away leave every clean tree. -/
theorem Arrives.exists_trimmedTo : ∃ nodes, TrimmedTo input e root nodes ∧
    ∀ id t, e.nodes.Reads input.grammar input.tokens id t → t.Clean input.grammar →
      nodes.Reads input.grammar input.tokens id t := by
  have hresolvable := h.resolvable hr hsplits
  rcases trimmedTo_cases input e root with htrimmed | htrimmed
  · exact ⟨e.nodes, htrimmed, fun _ _ hread _ => hread⟩
  · refine ⟨_, htrimmed, fun id t hread hclean => ?_⟩
    exact Pass.reads_pruneDead (hresolvable.layered.trims (Pass.trims_selecting _ _))
      (Pass.reads_selecting hresolvable hby.greedy hread hclean)

end

/-- Where there is a clean tree, a parse answers a forest, unless a limit of the stack is reached. -/
theorem run_of_clean {last : Token} (hr : input.Ready) (hs : input.grammar.AvoidsStart)
    (hsplits : input.grammar.SplitsOnce) (hby : input.ByPrecedence) (ht : input.tokens.EndsOnce)
    (hend : input.EndsWith last) (hlength : input.tokens.length < GraphStack.idLimit)
    (hstack : ∀ limit, (run input user).1 ≠ .error (.stackLimit limit)) (hparse : input.IsParse t)
    (hclean : t.Clean input.grammar) : ∃ e root, Arrives input user e root ∧
      (run input user).1 = .ok ⟨passed input e root, root, input.tokens, input.grammar, e.stats⟩ ∧
      ∀ t, input.IsParse t → t.Clean input.grammar →
        e.nodes.Reads input.grammar input.tokens root t := by
  have hgoodEnd : (input.endTree last).Everywhere (fun _ => input.grammar.Agrees)
      (input.tokens.length - 1) := by
    refine ⟨fun op _ side i t _ hi hclash => ?_, trivial, trivial⟩
    obtain rfl := List.mem_singleton.1 (List.mem_of_getElem? hi)
    exact hclash
  have hspares : ∀ start l e, Finished input start l e → e.Spares input fun _ => input.grammar.Agrees :=
    fun _ _ _ hf => hf.spares_clean hr hsplits hby
  rcases run_complete hr hs hparse hclean hend hgoodEnd hspares ht user with
    ⟨e, root, harr, hread, hrun⟩ | hlong | ⟨limit, hlimit⟩
  · obtain ⟨nodes, htrimmed, hkept⟩ := harr.exists_trimmedTo hr hsplits hby
    exact ⟨e, root, harr,
      hrun.trans (harr.finish_of_trimmedTo hr ht htrimmed (hkept root t hread hclean)),
      fun t hparse hclean => harr.reads hr hs hparse hclean hend hgoodEnd hspares ht⟩
  · exact absurd hlong (Nat.not_le.2 hlength)
  · exact absurd hlimit (hstack limit)

end Engine

/-- A derivation tree of the first rule for the tokens, in which no operand clashes with its operator. -/
structure Grammar.IsCleanParse (g : Grammar) (m : TerminalMatcher) (toks : List Token) (t : Tree) :
    Prop where
  fits : t.Fits g m (.rule g.first)
  leaves_eq : t.leaves = toks
  clean : t.Clean g

/-! ## An example -/

namespace Grammar

/-- Calls for the grammar of sums of integers. -/
def sumBuilder : GrammarBuilder :=
  let here : Location := ⟨1, 1⟩
  let b := (((GrammarBuilder.new.declareClass "int" "[0-9]+").internRule "sum" .normal).2.mention
    "Token-int" here).2
  ((b.literal "+").2.annotate 0 (some 1) (some .left) here).2
    |>.addAlternative 2 [.rule 2, .terminal 0, .rule 2]
    |>.addAlternative 2 [.rule 3]

/-- What they build. -/
def sum : Grammar where
  rules := #[⟨startRuleName, .start, #[⟨[.rule 2, .rule 1], 2, none⟩], false⟩,
    ⟨"Token-EOF", .tokenClass, #[⟨[.terminal 1], 1, none⟩], false⟩,
    ⟨"sum", .normal, #[⟨[.rule 2, .terminal 0, .rule 2], 3, some ⟨1, 1, .left⟩⟩,
      ⟨[.rule 3], 1, none⟩], false⟩,
    ⟨"Token-int", .tokenClass, #[⟨[.terminal 2], 1, none⟩], false⟩]
  terminals := #[.literal ⟨"+", some 1, .left⟩, .ofClass eofClass "", .ofClass "int" "[0-9]+"]
  start := 0
  first := 2
  eofRule := 1
  eof := 1

theorem sum_built : sum.Built := by
  refine ⟨sumBuilder, ?_, by decide +kernel⟩
  have h := (((GrammarBuilder.Made.new.declareClass "int" "[0-9]+").internRule "sum" .normal).mention
    "Token-int" ⟨1, 1⟩).literal "+"
  refine ((h.annotate 0 (some 1) (some .left) ⟨1, 1⟩).addAlternative 2 _ fun t ht => ?_).addAlternative
    2 _ fun t ht => ?_
  · obtain rfl : t = 0 := by simpa using ht
    decide +kernel
  · simp at ht

theorem sum_avoidsStart : sum.AvoidsStart := forall_alternatives_of_lt (by decide)

theorem sum_splitsOnce : sum.SplitsOnce := forall_alternatives_of_lt (by decide)

theorem sum_not_cyclic : ¬ sum.Cyclic := by
  -- only the rule of the sum has an alternative that is a single rule
  have hunit : ∀ A, ∀ a ∈ (sum.rule A).alternatives, a.symbols.length = 1 →
      a.symbols.head?.bind Symbol.rule? = none ∨ (A = 2 ∧ a.symbols = [.rule 3]) :=
    forall_alternatives_of_lt (by decide)
  refine not_cyclic_of_rank (forall_alternatives_of_lt (by decide)) (fun A => if A = 2 then 1 else 0)
    fun A a ha B hB => ?_
  rcases hunit A a ha (by rw [hB]; rfl) with hnone | ⟨rfl, hrule⟩
  · rw [hB] at hnone
    cases hnone
  · obtain rfl : B = 3 := by simpa [hB] using hrule
    decide

end Grammar

/-- The grammar of sums compiles. -/
theorem CompiledGrammar.exists_sum : ∃ c, CompiledGrammar.ofGrammar .sum .empty = .ok c ∧
    c.matcher = ⟨#[.text "+", .never, .className "int"], 1⟩ ∧ c.automaton.states.size = 8 := by
  obtain ⟨c, hc, hm, hsize⟩ := exists_ofGrammar Grammar.sum_built
    (m := ⟨#[.text "+", .never, .className "int"], 1⟩) (by cbv) rfl
  exact ⟨c, hc, hm, hsize.trans (by cbv)⟩

/-- The parts of sums. -/
def Token.one : Token := ⟨"int", "1", ⟨1, 1, 0, 1⟩⟩

def Token.plus : Token := ⟨"+", "+", ⟨1, 2, 1, 1⟩⟩

/-- The tree of a sum that is a single integer. -/
def Tree.one : Tree := .rule "sum" 2 1 [.rule "Token-int" 3 0 [.token .one]]

/-- A sum of two integers is derived. -/
theorem Grammar.sum_derivesTokens :
    sum.DerivesTokens ⟨#[.text "+", .never, .className "int"], 1⟩ 2 [.one, .plus, .one] := by
  have hint : sum.Derives [.rule 3] [.terminal 2] :=
    derives_rule (show sum.alternative 3 0 ∈ _ from alternative_mem (by decide)) (.refl _)
  have hone : sum.Derives [.rule 2] [.terminal 2] :=
    derives_rule (show sum.alternative 2 1 ∈ _ from alternative_mem (by decide)) hint
  refine ⟨[2, 0, 2], derives_rule (show sum.alternative 2 0 ∈ _ from alternative_mem (by decide)) ?_,
    .cons (by decide) (.cons (by decide) (.cons (by decide) .nil))⟩
  exact derives_append (α := [.rule 2]) hone (derives_append (α := [.terminal 0]) (.refl _) hone)

/-- The sum of two integers has a clean tree. -/
theorem Grammar.sum_isCleanParse : sum.IsCleanParse ⟨#[.text "+", .never, .className "int"], 1⟩
    [.one, .plus, .one] (.rule "sum" 2 0 [.one, .token .plus, .one]) := by
  have hone : Tree.one.Fits .sum ⟨#[.text "+", .never, .className "int"], 1⟩ (.rule 2) :=
    @Tree.Fits.rule .sum _ 2 1 _ (by decide) (.cons
      (@Tree.Fits.rule .sum _ 3 0 _ (by decide) (.cons (@Tree.Fits.token _ _ _ 2 (by decide)) .nil)) .nil)
  refine ⟨@Tree.Fits.rule .sum _ 2 0 _ (by decide)
    (.cons hone (.cons (@Tree.Fits.token _ _ _ 0 (by decide)) (.cons hone .nil))), rfl, ?_⟩
  -- no operand has an operator
  have hclean : ∀ l, Tree.one.Everywhere (fun _ => Grammar.sum.Agrees) l := fun l =>
    ⟨agrees_of_operator_eq_none rfl, ⟨agrees_of_operator_eq_none rfl, trivial, trivial⟩, trivial⟩
  refine ⟨fun op hop side i t hi ht hclash => ?_, hclean _, trivial, hclean _, trivial⟩
  obtain rfl | rfl | rfl : t = .one ∨ t = .token .plus ∨ t = .one := by
    simpa using List.mem_of_getElem? ht
  · exact not_clashes_of_operator_eq_none rfl hclash
  · exact hclash
  · exact not_clashes_of_operator_eq_none rfl hclash

namespace Parser

variable {g : Grammar} {lexer : LexerDescription} {c : CompiledGrammar} {config : ParserConfig}
  {tokens : TokenStream} {s : σ}

/-- Where the operator alternatives split once and no rule derives itself, a parse without greedy lists
and disambiguators answers a forest if its input has a clean tree, and the forest lists every clean tree
as long as its count is below the limit. -/
theorem keeps_clean_trees (hg : g.Built) (hs : g.AvoidsStart) (hcyclic : ¬ g.Cyclic)
    (hsplits : g.SplitsOnce) (hc : CompiledGrammar.ofGrammar g lexer = .ok c)
    (hgreedy : config.greedy = false) (ht : tokens.EndsOnce)
    (hlimits : WithinLimits ⟨c, config, []⟩ tokens s)
    (hclean : ∃ t, g.IsCleanParse c.matcher tokens.content t) :
    ∃ f, (parseTokens ⟨c, config, []⟩ tokens s).1 = .ok f ∧
      (f.treeCount < countLimit → ∀ t, g.IsCleanParse c.matcher tokens.content t → t ∈ f.trees) := by
  obtain ⟨rfl, -⟩ := CompiledGrammar.parts_of_ofGrammar hc
  obtain ⟨hlength, hstack⟩ := hlimits
  obtain ⟨t, hfits, hleaves, hclean⟩ := hclean
  have hr := CompiledGrammar.ready hg hc config ([] : List (Disambiguator σ)) tokens
  have hby : ParseInput.ByPrecedence ⟨c, config, ([] : List (Disambiguator σ)), tokens⟩ :=
    ⟨rfl, fun hon => absurd (hgreedy.symm.trans hon) Bool.false_ne_true⟩
  obtain ⟨last, hend⟩ := CompiledGrammar.endsWith hc ht config ([] : List (Disambiguator σ))
  rw [parseTokens, ht.ensureEof_eq] at hstack ⊢
  obtain ⟨e, root, harr, hrun, hreads⟩ := Engine.run_of_clean hr hs hsplits hby ht hend hlength hstack
    (ParseInput.isParse_iff.2 ⟨hfits, hleaves⟩) hclean
  obtain ⟨nodes, htrimmed, hkept⟩ := harr.exists_trimmedTo hr hsplits hby
  refine ⟨_, hrun, fun hcount t ht' => ?_⟩
  obtain ⟨hiff, hlisted⟩ := harr.reads_passed_iff hr ht hcyclic htrimmed rfl t
  exact (hlisted hcount).2 (hiff.2 (hkept root t
    (hreads t (ParseInput.isParse_iff.2 ⟨ht'.fits, ht'.leaves_eq⟩) ht'.clean) ht'.clean))

theorem keeps_clean_trees_sum : ∃ c f, CompiledGrammar.ofGrammar .sum .empty = .ok c ∧
    (parseTokens ⟨c, { ParserConfig.standard with greedy := false },
      ([] : List (Disambiguator Unit))⟩ (.ofTokens [.one, .plus, .one]) ()).1 = .ok f ∧
    (f.treeCount < countLimit → Tree.rule "sum" 2 0 [.one, .token .plus, .one] ∈ f.trees) := by
  obtain ⟨c, hc, hm, hsize⟩ := CompiledGrammar.exists_sum
  obtain ⟨ht, hcontent, hlen⟩ := @TokenStream.endsOnce_ofTokens [.one, .plus, .one] (by decide)
  have hlimits : WithinLimits ⟨c, { ParserConfig.standard with greedy := false },
      ([] : List (Disambiguator Unit))⟩ (.ofTokens [.one, .plus, .one]) () := by
    refine withinLimits_of_le Grammar.sum_built hc ht ?_ ?_ <;> rw [hlen, hsize] <;> decide
  have hparse : Grammar.sum.IsCleanParse c.matcher
      (TokenStream.ofTokens [.one, .plus, .one]).content
      (.rule "sum" 2 0 [.one, .token .plus, .one]) := by
    rw [hm, hcontent]
    exact Grammar.sum_isCleanParse
  obtain ⟨f, hf, hlisted⟩ := keeps_clean_trees Grammar.sum_built Grammar.sum_avoidsStart
    Grammar.sum_not_cyclic Grammar.sum_splitsOnce hc rfl ht hlimits ⟨_, hparse⟩
  exact ⟨c, f, hc, hf, fun hcount => hlisted hcount _ hparse⟩

end Parser

end ParseForest
