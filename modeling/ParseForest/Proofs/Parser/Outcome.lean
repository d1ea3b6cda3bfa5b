import ParseForest.Parser.Basic
import ParseForest.Proofs.Epsilon
import ParseForest.Proofs.Forest.Passes
import ParseForest.Proofs.Lexer.Classes
import ParseForest.Proofs.Parser.Levels

/-!
# What a parse answers

The root of a parse is the node of the first rule over all tokens but the end of input
(`Arrives.stands`), in a forest that is sound; the passes after the parse leave it so. Every tree of
the forest is therefore a derivation tree for exactly this input (`Arrives.fits`).
-/

namespace ParseForest

variable {σ : Type}

/-! ## Token streams -/

namespace TokenStream

/-- The last token is the end of input, and no other is. -/
def EndsOnce (tokens : TokenStream) : Prop :=
  ∃ before last, tokens.tokens = Array.push before last ∧ last.isEof = true ∧
    ∀ t ∈ before, Token.isEof t = false

/-- The tokens before the last one. -/
def content (tokens : TokenStream) : List Token := tokens.slice 0 (tokens.length - 1)

variable {tokens : TokenStream}

theorem EndsOnce.ensureEof_eq (h : tokens.EndsOnce) : tokens.ensureEof = tokens := by
  obtain ⟨before, last, he, hlast, -⟩ := h
  rw [ensureEof, if_pos]
  rw [he, Array.back?_push]
  exact hlast

theorem slice_of_append {tokens : TokenStream} {toks toks' : List Token}
    (h : tokens.tokens = (toks ++ toks').toArray) : tokens.slice 0 toks.length = toks := by
  rw [slice, h]
  simp

/-- A stream of tokens of which none is the end of input. -/
theorem endsOnce_ofTokens {toks : List Token} (h : ∀ t ∈ toks, t.isEof = false) :
    (ofTokens toks).EndsOnce ∧ (ofTokens toks).content = toks ∧
      (ofTokens toks).length = toks.length + 1 := by
  have hlast : (toks.toArray.back?.any Token.isEof) = false := by
    rw [List.back?_toArray]
    cases hl : toks.getLast? with
    | none => rfl
    | some t => exact h t (List.mem_of_getLast? hl)
  obtain ⟨p, hp⟩ : ∃ p, (ofTokens toks).tokens = toks.toArray.push (.eof p) := by
    refine ⟨eofPosition toks.toArray, ?_⟩
    rw [ofTokens, ensureEof, if_neg (by rw [hlast]; exact Bool.false_ne_true)]
  have hlen : (ofTokens toks).length = toks.length + 1 := by simp [length, hp]
  refine ⟨⟨toks.toArray, .eof p, hp, rfl, fun t ht => h t (by simpa using ht)⟩, ?_, hlen⟩
  rw [content, hlen, Nat.add_sub_cancel]
  exact @slice_of_append _ toks [.eof p] (by rw [hp]; simp)

theorem EndsOnce.length_pos (h : tokens.EndsOnce) : 0 < tokens.length := by
  obtain ⟨before, last, he, -⟩ := h
  rw [length, he, Array.size_push]
  exact Nat.succ_pos _

end TokenStream

/-- The parts of a compiled grammar guarantee what a parse needs. -/
theorem CompiledGrammar.ready {g : Grammar} {lexer : LexerDescription} {c : CompiledGrammar}
    (hg : g.Built) (h : CompiledGrammar.ofGrammar g lexer = .ok c) (config : ParserConfig)
    (user : List (Disambiguator σ)) (tokens : TokenStream) :
    ParseInput.Ready ⟨c, config, user, tokens⟩ := by
  obtain ⟨rfl, ha, he, -⟩ := parts_of_ofGrammar h
  refine ⟨hg.wellFormed, Automaton.of_ofGrammar hg.wellFormed ha, ?_, fun hs => ?_⟩
  · change EpsilonForest.Laid c.grammar c.epsilon
    rw [he]
    exact EpsilonForest.laid_ofGrammar c.grammar
  · obtain ⟨a, ha', hexact⟩ := Automaton.exists_isExact hg.wellFormed hs
    obtain rfl := Except.ok.inj (ha.symm.trans ha')
    exact hexact

namespace Engine

variable {input : ParseInput σ} {start : StackId} {e : Engine σ} {root : NodeId}

/-! ## The root -/

/-- The way down from an accepting state: the end of input is the last token, and the first rule
stands before it. -/
theorem Finished.stands_root (hr : input.Ready) (h : Finished input start input.tokens.length e)
    (hroot : e.acceptedRoot? input start = some root) :
    e.nodes.Stands input.compiled.matcher input.tokens (.rule input.grammar.first) 0
      (input.tokens.length - 1) root := by
  have hlr := hr.automaton.isLR0
  simp only [acceptedRoot?, Option.bind_eq_bind, Option.bind_eq_some_iff] at hroot
  obtain ⟨top, htop, hroot⟩ := hroot
  obtain ⟨beforeEof, hbefore, hroot⟩ := Array.exists_of_findSome?_eq_some hroot
  obtain ⟨edge, hedge, rfl⟩ := Option.map_eq_some_iff.1 hroot
  have hstart : edge.target = start := by simpa using Array.find?_some hedge
  have hmem := Array.mem_of_find?_eq_some hedge
  -- the accepting state has the completed item of the rule that accepts
  obtain ⟨hlt, hlevel⟩ := (h.work.indexed.mem_level_iff _ top).1 (Array.mem_of_find?_eq_some htop)
  have hi := hr.automaton.start_item hr.wellFormed (h.work.state_lt top hlt)
    (by simpa using Array.find?_some htop)
  have hsyms := hr.wellFormed.alternative_start.2
  obtain ⟨-, x, hx, hs⟩ := h.work.labelled top beforeEof hbefore
  obtain ⟨hi', hsym⟩ := hlr.step_back_eq hx hi
  obtain ⟨-, y, hy, hs'⟩ := h.work.labelled _ edge hmem
  obtain ⟨-, hsym'⟩ := hlr.step_back_eq hy hi'
  rw [hsyms] at hsym hsym'
  obtain rfl := Option.some.inj hsym
  obtain rfl := Option.some.inj hsym'
  have hn := (Spells.eof hr.wellFormed (h.forest.formed.backed.spells_of_stands hs)).1
  rw [hlevel] at hn
  rw [hstart, h.start_level] at hs'
  rw [hn, Nat.add_sub_cancel]
  exact hs'

/-- A parse ends in this state, and the root is this node. -/
inductive Arrives (input : ParseInput σ) (user : σ) : Engine σ → NodeId → Prop
  | blank (h : input.tokens.isBlank = true) {root : NodeId}
      (hroot : input.compiled.epsilon.symbol? input.grammar.first = some root) :
      Arrives input user (initial input user) root
  | levels (h : input.tokens.isBlank = false) {start : StackId} {e : Engine σ} {root : NodeId}
      (hf : Finished input start input.tokens.length e)
      (hroot : e.acceptedRoot? input start = some root) (hne : Arena.childrenOf e.nodes root ≠ []) :
      Arrives input user e root

/-- A parse that ends has a root, which still has to be passed on, or it fails for a reason. -/
theorem run_cases (hr : input.Ready) (user : σ) :
    (∃ e root, Arrives input user e root ∧ (run input user).1 = finish input e root) ∨
    (input.tokens.isBlank = true ∧ input.compiled.epsilon.symbol? input.grammar.first = none ∧
      ∃ expected, (run input user).1 = .error (.unexpectedToken
        (((input.tokens.get? 0).map Token.position).getD ⟨0, 0, 0, 0⟩)
        (((input.tokens.get? 0).map Token.describe).getD "end of input") "" expected) ∧
        expected = expectedNames input [Automaton.start]) ∨
    (input.tokens.isBlank = false ∧ GraphStack.idLimit ≤ input.tokens.length ∧
      (run input user).1 = .error (.internal "token stream too long")) ∨
    (input.tokens.isBlank = false ∧ input.tokens.length < GraphStack.idLimit ∧
      ∃ err, Fails input err ∧ (run input user).1 = .error err) := by
  rw [run, parse]
  cases hb : input.tokens.isBlank with
  | true =>
    rw [if_pos rfl, parseBlank]
    cases hroot : input.compiled.epsilon.symbol? input.grammar.first with
    | some root => exact .inl ⟨_, root, .blank hb hroot, rfl⟩
    | none => exact .inr (.inl ⟨rfl, rfl, _, rfl, rfl⟩)
  | false =>
    rw [if_neg Bool.false_ne_true]
    by_cases hlong : GraphStack.idLimit ≤ input.tokens.length
    · rw [if_pos hlong]
      exact .inr (.inr (.inl ⟨rfl, hlong, rfl⟩))
    · rw [if_neg hlong]
      have hends := parseTokens_ends hr user
      simp only [Ends] at hends
      simp only [EStateM.run]
      cases hp : parseTokens input (initial input user) with
      | ok root e =>
        rw [hp] at hends
        obtain ⟨start, hf, hroot, hne⟩ := hends
        exact .inl ⟨e, root, .levels hb hf hroot hne, rfl⟩
      | error err e =>
        rw [hp] at hends
        exact .inr (.inr (.inr ⟨trivial, Nat.not_le.1 hlong, err, hends, rfl⟩))

variable {user : σ}

/-- The arena of a parse is sound. -/
theorem Arrives.formed (hr : input.Ready) (h : Arrives input user e root) : input.Formed e.nodes := by
  cases h with
  | blank _ _ => exact input.formed_fragments hr.wellFormed hr.epsilon
  | levels _ hf _ _ => exact hf.forest.formed

/-- A blank stream is nothing but its end. -/
theorem length_of_isBlank {tokens : TokenStream} (ht : tokens.EndsOnce) (hb : tokens.isBlank = true) :
    tokens.length = 1 := by
  obtain ⟨before, last, he, -, hbefore⟩ := ht
  rw [TokenStream.isBlank, he, Array.all_push, Bool.and_eq_true] at hb
  have : before = #[] := by
    by_contra hne
    obtain ⟨t, ht⟩ := Array.exists_mem_of_ne_empty before hne
    have := Array.all_eq_true_iff_forall_mem.1 hb.1 t ht
    rw [hbefore t ht] at this
    cases this
  rw [TokenStream.length, he, this]
  rfl

theorem not_isBlank_of_one_lt {tokens : TokenStream} (ht : tokens.EndsOnce) (h : 1 < tokens.length) :
    ¬ tokens.isBlank = true := fun hb => Nat.lt_irrefl _ (length_of_isBlank ht hb ▸ h)

/-- The root stands for the first rule over all tokens but the end of input. -/
theorem Arrives.stands (hr : input.Ready) (ht : input.tokens.EndsOnce)
    (h : Arrives input user e root) : e.nodes.Stands input.compiled.matcher input.tokens
      (.rule input.grammar.first) 0 (input.tokens.length - 1) root := by
  have hformed := h.formed hr
  cases h with
  | blank hb hroot =>
    rw [length_of_isBlank ht hb]
    exact hformed.stands_symbol hr hroot 0
  | levels _ hf hroot _ => exact hf.stands_root hr hroot

/-! ## The passes -/

/-- The passes that the settings and the forest ask for. -/
def passesOf (input : ParseInput σ) (e : Engine σ) (root : NodeId) : List Pass :=
  if input.config.transforms then
    if (Forest.mk e.nodes root input.tokens input.grammar e.stats).isAmbiguous || 0 < e.rejectedCount
    then Pass.standard input.config.precedence input.config.greedy else Pass.structural
  else []

/-- The arena after the passes. -/
def passed (input : ParseInput σ) (e : Engine σ) (root : NodeId) : Arena :=
  (Pass.runAll (passesOf input e root) input.grammar root e.nodes).1

/-- A forest is answered unless the passes have left the root without an alternative. -/
theorem finish_eq (input : ParseInput σ) (e : Engine σ) (root : NodeId) :
    finish input e root =
      if input.config.transforms && (Arena.node (passed input e root) root).isChoice &&
        (Arena.node (passed input e root) root).children.isEmpty then .error .emptyForest
      else .ok ⟨passed input e root, root, input.tokens, input.grammar, e.stats⟩ := by
  have htransform : ∀ passes r, Pass.runAll passes input.grammar root e.nodes = r →
      (Forest.mk e.nodes root input.tokens input.grammar e.stats).transform passes =
        if (Arena.node r.1 root).isChoice && (Arena.node r.1 root).children.isEmpty then
          (⟨r.1, root, input.tokens, input.grammar, e.stats⟩, .error .emptyForest)
        else (⟨r.1, root, input.tokens, input.grammar, e.stats⟩, .ok (r.2.any Prod.snd)) := by
    rintro passes r rfl
    rfl
  rw [finish, passed, passesOf]
  cases ht : input.config.transforms with
  | false => simp [Pass.runAll]
  | true =>
    simp only [if_pos, Bool.true_and, htransform _ _ rfl]
    generalize Pass.runAll _ input.grammar root e.nodes = r
    by_cases hdead : ((Arena.node r.1 root).isChoice && (Arena.node r.1 root).children.isEmpty) = true
    · rw [if_pos hdead, if_pos hdead]
    · rw [if_neg hdead, if_neg hdead]

/-- Only the limit of the stack is the reason for its error. -/
theorem mayFail_of_run (hr : input.Ready) {user : σ} {limit : Nat}
    (h : (run input user).1 = .error (.stackLimit limit)) : input.MayFail (.stackLimit limit) := by
  rcases run_cases hr user with ⟨e, root, -, hrun⟩ | ⟨-, -, _, hrun, -⟩ | ⟨-, -, hrun⟩ |
    ⟨-, -, err, hfails, hrun⟩ <;> rw [hrun] at h
  · rw [finish_eq] at h
    split at h <;> cases h
  · cases h
  · cases h
  · obtain rfl := Except.error.inj h
    generalize herr : ParseError.stackLimit limit = err at hfails
    cases hfails with
    | early hmay => exact hmay
    | stuck | unaccepted | empty => cases herr

/-- The passes keep the arena sound. -/
theorem passed_sound (root : NodeId)
    (hsound : Arena.Sound input.grammar input.compiled.matcher input.tokens e.nodes) :
    Arena.Sound input.grammar input.compiled.matcher input.tokens (passed input e root) ∧
      Arena.SameHeads e.nodes (passed input e root) := by
  refine Pass.runAll_keeps (fun pass hpass => ?_) hsound
  rw [passesOf] at hpass
  split at hpass
  · split at hpass
    · exact Pass.standard_keeps _ _ pass hpass
    · exact Pass.structural_keeps pass hpass
  · cases hpass

/-- A forest is answered exactly if there are no passes or they leave the root an alternative. -/
theorem Arrives.finish_eq_ok_iff (hr : input.Ready) (ht : input.tokens.EndsOnce)
    (h : Arrives input user e root) {f : Forest} : finish input e root = .ok f ↔
      f = ⟨passed input e root, root, input.tokens, input.grammar, e.stats⟩ ∧
        (input.config.transforms = true → Arena.childrenOf (passed input e root) root ≠ []) := by
  have hheads := (passed_sound root (h.formed hr).backed.toSound).2
  have hchoice : (Arena.node (passed input e root) root).isChoice = true := by
    rw [hheads.isChoice_eq, Node.isChoice, (h.stands hr ht).1]
  have hempty : (Arena.node (passed input e root) root).children.isEmpty = true ↔
      Arena.childrenOf (passed input e root) root = [] := by
    rw [Arena.childrenOf, Array.toList_eq_nil_iff, Array.isEmpty_iff]
  rw [finish_eq, hchoice, Bool.and_true]
  by_cases hdead : input.config.transforms = true ∧
      Arena.childrenOf (passed input e root) root = []
  · rw [if_pos (Bool.and_eq_true_iff.2 ⟨hdead.1, hempty.2 hdead.2⟩)]
    exact ⟨fun h => (by cases h), fun h => absurd hdead.2 (h.2 hdead.1)⟩
  · rw [if_neg fun hif => hdead ⟨(Bool.and_eq_true_iff.1 hif).1, hempty.1 (Bool.and_eq_true_iff.1 hif).2⟩]
    exact ⟨fun h => ⟨(Except.ok.inj h).symm, fun hon hnil => hdead ⟨hon, hnil⟩⟩, fun h => by rw [h.1]⟩

/-- The trees that the root of the forest stands for are derivation trees for this input. -/
theorem Arrives.fits (hr : input.Ready) (ht : input.tokens.EndsOnce) (h : Arrives input user e root)
    {t : Tree} (hread : (passed input e root).Reads input.grammar input.tokens root t) :
    t.Fits input.grammar input.compiled.matcher (.rule input.grammar.first) ∧
      t.leaves = input.tokens.content := by
  obtain ⟨hsound, hheads⟩ := passed_sound root (h.formed hr).backed.toSound
  obtain ⟨-, hfits, hleaves⟩ := hsound.fits.1 root t hread _ _ _ ((h.stands hr ht).congr hheads)
  cases hfits with
  | cons hfit _ =>
    rw [Tree.leavesOfAll, Tree.leavesOfAll, List.append_nil] at hleaves
    exact ⟨hfit, hleaves⟩

end Engine

/-! ## Forests of a parser -/

namespace Forest

variable {f : Forest} {t : Tree}

/-- Trees by number are among those that the root stands for. -/
theorem reads_of_treeAt? {i : Nat} (h : f.treeAt? i = some t) :
    f.nodes.Reads f.grammar f.tokens f.root t := by
  simp only [treeAt?, treeUnder] at h
  split at h
  · exact TreeIndex.treeFrom_reads _ h
  · cases h

theorem reads_of_mem_firstTrees {n : Nat} (h : t ∈ f.firstTrees n) :
    f.nodes.Reads f.grammar f.tokens f.root t := by
  obtain ⟨i, -, hi⟩ := List.mem_filterMap.1 h
  exact TreeIndex.treeFrom_reads _ hi

end Forest

namespace Parser

variable {g : Grammar} {lexer : LexerDescription} {c : CompiledGrammar} {config : ParserConfig}
  {user : List (Disambiguator σ)} {tokens : TokenStream} {s : σ} {f : Forest}

/-- A forest that is answered is what the passes have made of the forest of the levels, and if there
are passes they have left the root an alternative. -/
theorem arrives_of_ok (hg : g.Built) (hc : CompiledGrammar.ofGrammar g lexer = .ok c)
    (ht : tokens.EndsOnce) (hf : (parseTokens ⟨c, config, user⟩ tokens s).1 = .ok f) :
    ∃ e root, Engine.Arrives ⟨c, config, user, tokens⟩ s e root ∧
      f = ⟨Engine.passed ⟨c, config, user, tokens⟩ e root, root, tokens, c.grammar, e.stats⟩ ∧
      (config.transforms = true →
        Arena.childrenOf (Engine.passed ⟨c, config, user, tokens⟩ e root) root ≠ []) := by
  rw [parseTokens, ht.ensureEof_eq] at hf
  have hr := CompiledGrammar.ready hg hc config user tokens
  rcases Engine.run_cases hr s with ⟨e, root, harr, hrun⟩ | ⟨-, -, _, hrun, -⟩ | ⟨-, -, hrun⟩ |
    ⟨-, -, _, -, hrun⟩ <;> rw [hrun] at hf
  · exact ⟨e, root, harr, (harr.finish_eq_ok_iff hr ht).1 hf⟩
  all_goals cases hf

end Parser

end ParseForest
