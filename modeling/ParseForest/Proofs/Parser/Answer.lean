import ParseForest.Proofs.Parser.Layout
import ParseForest.Proofs.Parser.Machine
import ParseForest.Proofs.Parser.Recognition
import ParseForest.Proofs.Forest.Deduplicating
import ParseForest.Proofs.Forest.Stocked
import Mathlib

/-!
# Recognition

Without the built-in rules the passes after a parse take nothing away that stands for a tree
(`Engine.passed_of_ruled`), so a parse whose root stands for a tree answers a forest. Together with what
is known of failures this settles what a parse without disambiguators answers: a forest exactly if the
first rule derives terminals that the tokens satisfy, and otherwise an unexpected token
(`Parser.recognizes`).
-/

namespace ParseForest

/-!
## Disambiguators that go by rule, alternative and span

Without the built-in rules, and with disambiguators whose verdict depends on nothing but the rule, the
alternative and the span of a candidate (`Ruling`), every candidate is judged at once, and the verdict
on a derivation can be told from the tree that it stands for (`Tree.Admitted`). So no derivation is
turned down that a tree needs whose rule nodes are all accepted (`Engine.Finished.spares`).
-/

section

variable {σ : Type}

/-- A verdict on the derivations of an alternative of a rule over a span. -/
abbrev Ruling := RuleId → Nat → Span → Bool

/-- The disambiguator goes by the ruling, whatever its state. -/
def Disambiguator.GoesBy (d : Disambiguator σ) (v : Ruling) : Prop :=
  ∀ c s, (d c s).1 = v c.rule c.alt c.span

/-- All rulings accept. -/
def Accepted (vs : List Ruling) (A : RuleId) (alt : Nat) (s : Span) : Prop :=
  ∀ v ∈ vs, v A alt s = true

theorem acceptedByAll_fst {user : List (Disambiguator σ)} {vs : List Ruling}
    (h : List.Forall₂ Disambiguator.GoesBy user vs) (c : Candidate) (s : σ) :
    (acceptedByAll user c s).1 = true ↔ Accepted vs c.rule c.alt c.span := by
  induction h generalizing s with
  | nil => simp [acceptedByAll, Accepted]
  | @cons d v user vs hd _ ih =>
    have hv := hd c s
    rw [acceptedByAll]
    cases hdc : d c s with
    | mk b s' =>
      rw [hdc] at hv
      obtain rfl : b = v c.rule c.alt c.span := hv
      cases hb : v c.rule c.alt c.span with
      | true => simp [ih, Accepted, hb]
      | false => simp [Accepted, hb]

/-- The rule node, which begins at the position, is accepted if it covers tokens. -/
def Tree.Admitted (vs : List Ruling) (l : Nat) : Tree → Prop
  | .rule _ A alt children => leavesOfAll children ≠ [] →
    Accepted vs A alt ⟨l, l + (leavesOfAll children).length⟩
  | .token _ => True

/-- Without rulings every tree is accepted. -/
theorem Tree.admitted_nil (l : Nat) : ∀ t, Tree.Admitted [] l t
  | .rule _ _ _ _ => fun _ _ hv => by cases hv
  | .token _ => trivial

/-- Candidates are judged by the rulings alone. -/
structure ParseInput.RuledBy (input : ParseInput σ) (vs : List Ruling) : Prop where
  precedence : input.config.precedence = false
  greedy : input.config.greedy = false
  user : List.Forall₂ Disambiguator.GoesBy input.user vs

namespace ParseInput.RuledBy

variable {input : ParseInput σ} {vs : List Ruling} (h : input.RuledBy vs)
include h

theorem judge_eq_accept_iff (c : Candidate) (s : σ) :
    (input.pipeline.judge c s).1 = .accept ↔ Accepted vs c.rule c.alt c.span := by
  have hbuiltIn : input.pipeline.builtIn c = .accept := by
    simp [pipeline, Pipeline.builtIn, h.precedence, h.greedy]
  rw [Pipeline.judge, hbuiltIn, ← acceptedByAll_fst h.user c s]
  dsimp only [pipeline]
  cases hb : acceptedByAll input.user c s with
  | mk b s' => cases b <;> simp

theorem prompt : input.Prompt := by
  intro c s
  have hbuiltIn : input.pipeline.builtIn c = .accept := by
    simp [pipeline, Pipeline.builtIn, h.precedence, h.greedy]
  rw [Pipeline.judge, hbuiltIn]
  dsimp only
  cases hb : acceptedByAll input.pipeline.user c s with
  | mk b s' => cases b <;> simp

/-- What is kept is accepted, and what is turned down is not. -/
def policy : Policy input where
  Known _ _ d b := b = true ↔ Accepted vs d.rule d.alt d.span
  grows _ _ hk _ _ := hk
  accepts _ _ _ hj := iff_of_true rfl ((h.judge_eq_accept_iff _ _).1 hj)
  rejects _ _ _ hj _ := iff_of_false Bool.false_ne_true fun ha =>
    hj ((h.judge_eq_accept_iff _ _).2 ha)
  buries hp _ _ _ _ _ := absurd h.prompt hp

end ParseInput.RuledBy

namespace Engine

variable {input : ParseInput σ} {start : StackId} {e : Engine σ} {l : Nat} {vs : List Ruling}

/-- Nothing that a tree of accepted rule nodes needs has been turned down. -/
theorem Finished.spares (hr : input.Ready) (hv : input.RuledBy vs) (h : Finished input start l e) :
    e.Spares input (Tree.Admitted vs) := by
  intro d hd hmem ts hreads hadmitted
  obtain ⟨d', hkey, hd', hknown⟩ := h.forest.dropped d.key hmem
  obtain rfl := hd'.eq_of_key hd hkey.symm
  have hnot : ¬ Accepted vs d.rule d.alt d.span := by
    have := hknown hv.policy
    simpa only [ParseInput.RuledBy.policy, Bool.false_eq_true, false_iff] using this
  -- the tree covers the tokens of the derivation
  have hf := h.forest.formed
  have hlt : d.span.left < d.span.right := hf.lt_of_span hr.epsilon hd.span_eq
  have hspans := (hf.backed.spans_of_covers (hd.holds.covers hr.epsilon hf.base) hreads).2
  apply hnot
  rw [show d.span = ⟨d.span.left, d.span.left + (Tree.leavesOfAll ts).length⟩ by rw [← hspans.2]]
  refine hadmitted fun hnil => ?_
  rw [hnil] at hspans
  exact Nat.ne_of_lt hlt hspans.2.symm

end Engine

end

variable {σ : Type}

namespace Engine

variable {input : ParseInput σ} {start : StackId} {e : Engine σ} {root : NodeId} {vs : List Ruling}
  {user : σ} {t : Tree}

/-! ## The forest of a parse -/

/-- The root labels an edge to the start of the stack. -/
theorem exists_edge_root (hroot : e.acceptedRoot? input start = some root) :
    ∃ u, ⟨start, root⟩ ∈ (e.stack.node u).edges := by
  simp only [acceptedRoot?, Option.bind_eq_bind, Option.bind_eq_some_iff] at hroot
  obtain ⟨top, -, hroot⟩ := hroot
  obtain ⟨beforeEof, -, hroot⟩ := Array.exists_of_findSome?_eq_some hroot
  obtain ⟨edge, hedge, rfl⟩ := Option.map_eq_some_iff.1 hroot
  obtain rfl : edge.target = start := by simpa using Array.find?_some hedge
  exact ⟨_, Array.mem_of_find?_eq_some hedge⟩

/-- The root is on the stack. -/
theorem Finished.usable_root (h : Finished input start input.tokens.length e)
    (hroot : e.acceptedRoot? input start = some root) : e.Usable input root := by
  obtain ⟨u, hedge⟩ := exists_edge_root hroot
  exact (h.work.labelled u _ hedge).1

section

variable (hr : input.Ready) (h : Arrives input user e root)
include hr h

theorem Arrives.layered : e.nodes.Layered := (h.formed hr).layered hr.epsilon

theorem Arrives.shapesEnd : e.nodes.ShapesEnd := (h.formed hr).shapesEnd hr.epsilon

/-- The alternatives of a node are different. -/
theorem Arrives.nodup {id : NodeId} {s : Span} (hc : (Arena.node e.nodes id).isChoice = true)
    (hs : (Arena.node e.nodes id).span = some s) :
    ((Arena.childrenOf e.nodes id).map (Arena.node e.nodes)).Nodup := by
  have hformed := h.formed hr
  cases h with
  | blank _ _ =>
    have hle := hformed.size_le_of_span hr.epsilon hs
    exact absurd (Arena.lt_size_of_isChoice hc) (Nat.not_lt.2 hle)
  | levels _ hf _ _ => exact hf.forest.nodup id s hc hs

theorem Arrives.distinct : e.nodes.Distinct :=
  (h.formed hr).distinct hr.epsilon fun _ _ => h.nodup hr

/-- The root stands for a tree, where candidates are judged at once. -/
theorem Arrives.exists_reads (ht : input.tokens.EndsOnce) (hp : input.Prompt) :
    ∃ t, e.nodes.Reads input.grammar input.tokens root t := by
  have hk := (h.stands hr ht).1
  have hproductive : e.nodes.Productive input.grammar input.tokens root := by
    cases h with
    | blank _ hroot => exact hr.epsilon.productive_symbol input.compiled.matcher hr.wellFormed hroot
    | levels _ hf hroot _ => exact (hf.usable_root hroot).productive hp
  obtain ⟨ts, hts⟩ := hproductive
  obtain ⟨t, -, -, hread, -⟩ := hts.exists_first (.inr ⟨_, hk⟩)
  exact ⟨t, hread⟩

/-- The passes have taken alternatives away, and then, if they were asked for, collapsed and linked what
was left. -/
def TrimmedTo (input : ParseInput σ) (e : Engine σ) (root : NodeId) (nodes : Arena) : Prop :=
  Arena.Trims e.nodes nodes ∧ (passed input e root = nodes ∨
    passed input e root = (Pass.linkParents.run input.grammar root
      (Pass.collapse.run input.grammar root nodes).1).1)

omit hr h in
/-- The passes take no alternatives away, or those that the selecting passes and the last pruning do. -/
theorem trimmedTo_cases (input : ParseInput σ) (e : Engine σ) (root : NodeId) :
    TrimmedTo input e root e.nodes ∨ TrimmedTo input e root (Pass.pruneDead.run input.grammar root
      (Pass.runAll (Pass.selecting input.config.precedence input.config.greedy) input.grammar root
        e.nodes).1).1 := by
  simp only [TrimmedTo]
  rw [passed, passesOf]
  split
  · split
    · rw [Pass.runAll_standard]
      have htrims : e.nodes.Trims (Pass.runAll (Pass.selecting input.config.precedence
        input.config.greedy) input.grammar root e.nodes).1 := Pass.trims_selecting _ _
      exact .inr ⟨htrims.trans (Pass.trims_pruneDead input.grammar root _), .inr rfl⟩
    · exact .inl ⟨.refl _, .inr rfl⟩
  · exact .inl ⟨.refl _, .inl rfl⟩

omit hr h in
theorem exists_trimmedTo (input : ParseInput σ) (e : Engine σ) (root : NodeId) :
    ∃ nodes, TrimmedTo input e root nodes :=
  (trimmedTo_cases input e root).elim (fun h => ⟨_, h⟩) fun h => ⟨_, h⟩

/-- A root for which there is a tree when the passes have taken alternatives away makes a forest. -/
theorem Arrives.finish_of_trimmedTo (ht : input.tokens.EndsOnce) {nodes : Arena}
    (htrimmed : TrimmedTo input e root nodes)
    (hread : nodes.Reads input.grammar input.tokens root t) : finish input e root =
      .ok ⟨passed input e root, root, input.tokens, input.grammar, e.stats⟩ := by
  obtain ⟨htrims, hpassed⟩ := htrimmed
  have hk := (h.stands hr ht).1
  have hchildren : Arena.childrenOf (passed input e root) root = Arena.childrenOf nodes root := by
    rcases hpassed with he | he <;> rw [he]
    rw [(Pass.relinks_linkParents _ _ _).childrenOf_eq]
    exact Pass.childrenOf_collapseAll _ (by rw [Node.isPacked, htrims.kind_eq, hk])
  refine (h.finish_eq_ok_iff hr ht).2 ⟨rfl, fun _ => hchildren ▸ ?_⟩
  cases hread with
  | token hk' _ => cases ((htrims.kind_eq root).trans hk).symm.trans hk'
  | rule _ hp _ _ => exact List.ne_nil_of_mem hp

/-- Without the built-in rules the passes take only away what stands for no tree. -/
theorem Arrives.passed_eq (hv : input.RuledBy vs) : ∃ nodes, TrimmedTo input e root nodes ∧
    ∀ fuel id, nodes.readings input.grammar input.tokens fuel id =
      e.nodes.readings input.grammar input.tokens fuel id := by
  simp only [TrimmedTo]
  rw [passed, passesOf, hv.precedence, hv.greedy]
  split
  · split
    · -- equivalent alternatives are never found
      refine ⟨_, ⟨.trans (Pass.trims_pruneDead input.grammar root e.nodes)
        (Pass.trims_pruneDead input.grammar root _), .inr ?_⟩, fun fuel id => ?_⟩
      · have htrims := Pass.trims_pruneDead input.grammar root e.nodes
        have hdedupe := @Pass.dedupeEquivalent_eq _ input.grammar root ((h.layered hr).trims htrims)
          ((h.distinct hr).trims htrims (h.layered hr)) ((h.shapesEnd hr).trims htrims)
        simp only [Pass.runAll, Pass.standard, Bool.false_eq_true, if_false, List.append_nil,
          List.cons_append, List.nil_append, List.foldl_cons, List.foldl_nil, hdedupe]
      · rw [Pass.pruneDead_readings, Pass.pruneDead_readings]
    · exact ⟨e.nodes, ⟨.refl _, .inr rfl⟩, fun _ _ => rfl⟩
  · exact ⟨e.nodes, ⟨.refl _, .inl rfl⟩, fun _ _ => rfl⟩

/-- Where the passes change no list of trees, they leave the trees of every node. -/
theorem Arrives.reads_iff_of_readings_eq {nodes : Arena} (htrims : Arena.Trims e.nodes nodes)
    (hreadings : ∀ fuel id, nodes.readings input.grammar input.tokens fuel id =
      e.nodes.readings input.grammar input.tokens fuel id) {id : NodeId} :
    nodes.Reads input.grammar input.tokens id t ↔
      e.nodes.Reads input.grammar input.tokens id t := by
  have hl := h.layered hr
  refine ⟨fun hread => ?_, fun hread => ?_⟩
  · have hk := hread.kind_cases
    rw [htrims.kind_eq] at hk
    obtain ⟨fuel, hfuel⟩ := (Arena.exists_mem_readings (hl.trims htrims)).1 id t hread
    exact (Arena.exists_mem_readings_iff hl hk).1 ⟨fuel, by rwa [← hreadings]⟩
  · have hk := hread.kind_cases
    rw [← htrims.kind_eq] at hk
    obtain ⟨fuel, hfuel⟩ := (Arena.exists_mem_readings hl).1 id t hread
    exact (Arena.exists_mem_readings_iff (hl.trims htrims) hk).1 ⟨fuel, by rwa [hreadings]⟩

/-- Without the built-in rules a root that stands for a tree makes a forest. -/
theorem Arrives.finish_eq_ok (ht : input.tokens.EndsOnce) (hv : input.RuledBy vs)
    (hread : e.nodes.Reads input.grammar input.tokens root t) : finish input e root =
      .ok ⟨passed input e root, root, input.tokens, input.grammar, e.stats⟩ := by
  obtain ⟨nodes, htrimmed, hreadings⟩ := h.passed_eq hr hv
  exact h.finish_of_trimmedTo hr ht htrimmed ((h.reads_iff_of_readings_eq hr htrimmed.1 hreadings).2 hread)

end

/-- Without the built-in rules a parse finds every tree of which all rule nodes are accepted, unless a
limit is reached. -/
theorem run_of_admitted {last : Token} (hr : input.Ready) (hs : input.grammar.AvoidsStart)
    (ht : input.tokens.EndsOnce) (hend : input.EndsWith last) (hv : input.RuledBy vs)
    (heof : Accepted vs input.grammar.eofRule 0 ⟨input.tokens.length - 1, input.tokens.length⟩)
    (hlength : input.tokens.length < GraphStack.idLimit)
    (hstack : ∀ limit, (run input user).1 ≠ .error (.stackLimit limit)) (hparse : input.IsParse t)
    (hadmitted : t.Everywhere (Tree.Admitted vs) 0) : ∃ e root, Arrives input user e root ∧
      e.nodes.Reads input.grammar input.tokens root t ∧ (run input user).1 =
        .ok ⟨passed input e root, root, input.tokens, input.grammar, e.stats⟩ := by
  have hgoodEnd : (input.endTree last).Everywhere (Tree.Admitted vs) (input.tokens.length - 1) := by
    refine ⟨fun _ => ?_, trivial, trivial⟩
    have hlen : input.tokens.length - 1 + (Tree.leavesOfAll [Tree.token last]).length =
        input.tokens.length := Nat.sub_add_cancel hend.length_pos
    rw [hlen]
    exact heof
  rcases run_complete hr hs hparse hadmitted hend hgoodEnd (fun _ _ _ hf => hf.spares hr hv) ht user with
    ⟨e, root, harr, hread, hrun⟩ | hlong | ⟨limit, hlimit⟩
  · exact ⟨e, root, harr, hread, hrun.trans (harr.finish_eq_ok hr ht hv hread)⟩
  · exact absurd hlong (Nat.not_le.2 hlength)
  · exact absurd hlimit (hstack limit)

/-- Without the built-in rules and disambiguators the root stands for every derivation tree. -/
theorem Arrives.reads_of_isParse {t : Tree} {last : Token} (hr : input.Ready)
    (h : Arrives input user e root) (hs : input.grammar.AvoidsStart) (ht : input.tokens.EndsOnce)
    (hend : input.EndsWith last) (hv : input.RuledBy []) (hparse : input.IsParse t) :
    e.nodes.Reads input.grammar input.tokens root t := by
  have hall := Tree.everywhere_of_forall (P := Tree.Admitted []) Tree.admitted_nil
  exact h.reads hr hs hparse (hall 0 t) hend (hall _ _) (fun _ _ _ hf => hf.spares hr hv) ht

/-- Where a parse fails at a token: the input is blank and must not be, no stack can take the token, or
none accepts after the last one. -/
inductive FailsAt (input : ParseInput σ) : Nat → ParseError → Prop
  | blank (hb : input.tokens.isBlank = true)
      (hnone : input.compiled.epsilon.symbol? input.grammar.first = none) :
      FailsAt input 0 (.unexpectedToken (((input.tokens.get? 0).map Token.position).getD ⟨0, 0, 0, 0⟩)
        (((input.tokens.get? 0).map Token.describe).getD "end of input") ""
        (expectedNames input [Automaton.start]))
  | stuck {start : StackId} {l : Nat} {e : Engine σ} (h : Finished input start l e)
      (hl : l < input.tokens.length) (hs : e.shifts = #[]) : FailsAt input l (e.failure input l)
  | unaccepted {start : StackId} {e : Engine σ} (h : Finished input start input.tokens.length e) :
      FailsAt input (input.tokens.length - 1) (e.failure input (input.tokens.length - 1))

/-- Without the built-in rules a parse that answers no forest fails at a token, unless a limit is
reached. -/
theorem run_failsAt (hr : input.Ready) (ht : input.tokens.EndsOnce) (hv : input.RuledBy vs)
    (hlength : input.tokens.length < GraphStack.idLimit)
    (hstack : ∀ limit, (run input user).1 ≠ .error (.stackLimit limit))
    (hnot : ¬ ∃ f, (run input user).1 = .ok f) :
    ∃ i err, FailsAt input i err ∧ (run input user).1 = .error err := by
  rcases run_cases hr user with ⟨e, root, harr, hrun⟩ | ⟨hb, hnone, _, hrun, rfl⟩ | ⟨-, hlong, -⟩ |
    ⟨-, -, err, hfails, hrun⟩
  · obtain ⟨t, hread⟩ := harr.exists_reads hr ht hv.prompt
    exact absurd ⟨_, hrun.trans (harr.finish_eq_ok hr ht hv hread)⟩ hnot
  · exact ⟨_, _, .blank hb hnone, hrun⟩
  · exact absurd hlong (Nat.not_le.2 hlength)
  · cases hfails with
    | early hmay =>
      cases err with
      | stackLimit limit => exact absurd hrun (hstack limit)
      | unexpectedToken | emptyForest | lexing | internal => exact hmay.elim
    | stuck hf hl hs => exact ⟨_, _, .stuck hf hl hs, hrun⟩
    | unaccepted hf _ => exact ⟨_, _, .unaccepted hf, hrun⟩
    | @empty start e root hf hroot hnil =>
      have hne := ((hf.usable_root hroot).productive hv.prompt).children_ne_nil
        (by rw [Node.isChoice, (hf.stands_root hr hroot).1])
      exact absurd hnil hne

/-- What is answered then is an unexpected token. -/
theorem run_of_not_ok (hr : input.Ready) (ht : input.tokens.EndsOnce) (hv : input.RuledBy vs)
    (hlength : input.tokens.length < GraphStack.idLimit)
    (hstack : ∀ limit, (run input user).1 ≠ .error (.stackLimit limit))
    (hnot : ¬ ∃ f, (run input user).1 = .ok f) : ∃ position found near expected,
      (run input user).1 = .error (.unexpectedToken position found near expected) := by
  obtain ⟨i, err, hfails, hrun⟩ := run_failsAt hr ht hv hlength hstack hnot
  cases hfails <;> exact ⟨_, _, _, _, hrun⟩

end Engine

/-! ## What is derived -/

/-- The rule derives terminals that the tokens satisfy, one by one. -/
def Grammar.DerivesTokens (g : Grammar) (m : TerminalMatcher) (A : RuleId) (toks : List Token) :
    Prop :=
  ∃ w : List TerminalId, g.Derives [.rule A] (w.map Symbol.terminal) ∧
    List.Forall₂ (fun tok t => t ∈ m.matching tok) toks w

/-- What symbols spell from the beginning is derived by them, and satisfied by the tokens. -/
theorem Spells.exists_matching {g : Grammar} {m : TerminalMatcher} {tokens : TokenStream}
    {α : List Symbol} {r : Nat} (h : Spells g m tokens α 0 r) : ∃ w : List TerminalId,
      g.Derives α (w.map Symbol.terminal) ∧
        List.Forall₂ (fun tok t => t ∈ m.matching tok) (tokens.slice 0 r) w := by
  obtain ⟨w, hw, rfl, hsat⟩ := h
  have hle : 0 + w.length ≤ tokens.length := by
    by_cases hlt : 0 < 0 + w.length
    · exact Spells.le_length ⟨w, hw, rfl, hsat⟩ hlt
    · omega
  obtain ⟨hspans, hlen⟩ := TokenStream.spans_slice (Nat.zero_le _) hle
  refine ⟨w, hw, List.forall₂_iff_get.2 ⟨by omega, fun i hi hi' => ?_⟩⟩
  obtain ⟨tok, htok, hmem⟩ := hsat i w[i] (List.getElem?_eq_getElem hi')
  have := hspans i _ (List.getElem?_eq_getElem hi)
  obtain rfl := Option.some.inj (this.symm.trans htok)
  exact hmem

theorem Spells.derivesTokens {g : Grammar} {m : TerminalMatcher} {tokens : TokenStream} {A : RuleId}
    {r : Nat} (h : Spells g m tokens [.rule A] 0 r) : g.DerivesTokens m A (tokens.slice 0 r) :=
  h.exists_matching

/-- Some tree stands for what is derived. -/
theorem ParseInput.exists_isParse (input : ParseInput σ)
    (h : input.grammar.DerivesTokens input.compiled.matcher input.grammar.first input.tokens.content) :
    ∃ t, input.IsParse t := by
  obtain ⟨w, hw, hmatch⟩ := h
  obtain ⟨ts, hfits, hleaves⟩ := hw.exists_trees hmatch
  cases hfits with
  | cons hfit hnil =>
    cases hnil with
    | nil =>
      rw [Tree.leavesOfAll, Tree.leavesOfAll, List.append_nil] at hleaves
      exact ⟨_, hfit, hleaves ▸ TokenStream.spans_slice (Nat.zero_le _) (Nat.sub_le _ _)⟩

/-- What a parse looks for are the derivation trees of the first rule for the tokens before the end. -/
theorem ParseInput.isParse_iff {input : ParseInput σ} {t : Tree} : input.IsParse t ↔
    t.Fits input.grammar input.compiled.matcher (.rule input.grammar.first) ∧
      t.leaves = input.tokens.content := by
  have hslice : input.tokens.Spans input.tokens.content 0 (input.tokens.length - 1) :=
    TokenStream.spans_slice (Nat.zero_le _) (Nat.sub_le _ _)
  refine ⟨fun h => ⟨h.fits, h.spans.unique hslice⟩, fun ⟨hfits, hleaves⟩ => ⟨hfits, ?_⟩⟩
  rw [hleaves]
  exact hslice

/-- A stream that ends once ends with the end of input. -/
theorem CompiledGrammar.endsWith {g : Grammar} {lexer : LexerDescription} {c : CompiledGrammar}
    (h : CompiledGrammar.ofGrammar g lexer = .ok c) {tokens : TokenStream} (ht : tokens.EndsOnce)
    (config : ParserConfig) (user : List (Disambiguator σ)) :
    ∃ last, ParseInput.EndsWith ⟨c, config, user, tokens⟩ last := by
  obtain ⟨rfl, -, -, hm, -⟩ := parts_of_ofGrammar h
  obtain ⟨before, last, he, hlast, -⟩ := ht
  refine ⟨last, ?_, ?_⟩
  · rw [TokenStream.length, TokenStream.get?, he, Array.size_push]
    exact Array.getElem?_push_size
  · have heof : c.matcher.eof = c.grammar.eof := by
      simp only [TerminalMatcher.ofGrammar, bind, Except.bind] at hm
      split at hm
      · cases hm
      · rw [← Except.ok.inj hm]
    rw [TerminalMatcher.matching, if_pos hlast]
    exact List.mem_singleton.2 heof.symm

/-- The end of input satisfies nothing but its own terminal. -/
theorem TokenStream.EndsOnce.matching_last {tokens : TokenStream} (ht : tokens.EndsOnce)
    {m : TerminalMatcher} {last : Token} {eof : TerminalId}
    (hlast : tokens.get? (tokens.length - 1) = some last) (heof : eof ∈ m.matching last) :
    ∀ t ∈ m.matching last, t = eof := by
  obtain ⟨before, last', he, hisEof, -⟩ := ht
  rw [length, get?, he, Array.size_push, Nat.add_sub_cancel, Array.getElem?_push_size] at hlast
  obtain rfl := Option.some.inj hlast
  rw [TerminalMatcher.matching, if_pos hisEof] at *
  intro t ht
  rw [List.mem_singleton.1 ht, List.mem_singleton.1 heof]

/-! ## Limits -/

namespace Parser

/-- The parse stays within the limits of the stack: there are numbers for as many levels as there are
tokens, and never more nodes than the settings allow. -/
def WithinLimits (p : Parser σ) (tokens : TokenStream) (s : σ) : Prop :=
  tokens.length < GraphStack.idLimit ∧
    ∀ limit, (p.parseTokens tokens s).1 ≠ .error (.stackLimit limit)

variable {g : Grammar} {lexer : LexerDescription} {c : CompiledGrammar} {config : ParserConfig}
  {user : List (Disambiguator σ)} {tokens : TokenStream} {s : σ}

/-- The limits are not reached if they leave room for a node per level and state. -/
theorem withinLimits_of_le (hg : g.Built) (hc : CompiledGrammar.ofGrammar g lexer = .ok c)
    (ht : tokens.EndsOnce)
    (hmax : (tokens.length + 1) * c.automaton.states.size ≤ config.maxStackNodes)
    (hid : (tokens.length + 1) * c.automaton.states.size ≤ GraphStack.idLimit) :
    WithinLimits ⟨c, config, user⟩ tokens s := by
  have hr := CompiledGrammar.ready hg hc config user tokens
  have hpos : 0 < c.automaton.states.size := hr.automaton.isLR0.pos
  refine ⟨Nat.lt_of_lt_of_le ?_ hid, fun limit hlimit => ?_⟩
  · exact Nat.lt_of_lt_of_le (Nat.lt_succ_self _) (Nat.le_mul_of_pos_right _ hpos)
  · rw [parseTokens, ht.ensureEof_eq] at hlimit
    obtain ⟨rfl, hlt⟩ := Engine.mayFail_of_run hr hlimit
    have hbound : Engine.nodeBound ⟨c, config, user, tokens⟩ =
      (tokens.length + 1) * c.automaton.states.size := rfl
    rw [hbound] at hlt
    exact hlt.elim (Nat.not_lt.2 hmax) (Nat.not_lt.2 hid)

/-- Without the built-in rules and disambiguators a parse answers a forest if the first rule derives
terminals that the tokens satisfy. -/
theorem exists_ok (hg : g.Built) (hs : g.AvoidsStart)
    (hc : CompiledGrammar.ofGrammar g lexer = .ok c) (hprecedence : config.precedence = false)
    (hgreedy : config.greedy = false) (ht : tokens.EndsOnce)
    (hlimits : WithinLimits ⟨c, config, []⟩ tokens s)
    (hd : g.DerivesTokens c.matcher g.first tokens.content) :
    ∃ f, (parseTokens ⟨c, config, []⟩ tokens s).1 = .ok f := by
  obtain ⟨rfl, -⟩ := CompiledGrammar.parts_of_ofGrammar hc
  obtain ⟨hlength, hstack⟩ := hlimits
  have hr := CompiledGrammar.ready hg hc config ([] : List (Disambiguator σ)) tokens
  have hv : ParseInput.RuledBy ⟨c, config, ([] : List (Disambiguator σ)), tokens⟩ [] :=
    ⟨hprecedence, hgreedy, .nil⟩
  obtain ⟨last, hend⟩ := CompiledGrammar.endsWith hc ht config ([] : List (Disambiguator σ))
  rw [parseTokens, ht.ensureEof_eq] at hstack ⊢
  obtain ⟨t, hparse⟩ := ParseInput.exists_isParse
    ⟨c, config, ([] : List (Disambiguator σ)), tokens⟩ hd
  obtain ⟨e, root, -, -, hrun⟩ := Engine.run_of_admitted hr hs ht hend hv (fun _ hv => by cases hv)
    hlength hstack hparse (Tree.everywhere_of_forall Tree.admitted_nil 0 t)
  exact ⟨_, hrun⟩

end Parser

/-! ## An example -/

/-- The item of a list. -/
def Token.item : Token := ⟨"a", "a", ⟨1, 1, 0, 1⟩⟩

/-- A list of items. -/
def TokenStream.items (n : Nat) : TokenStream := .ofTokens (List.replicate n .item)

/-- A tree for `n` items. -/
structure Tree.IsItems (n : Nat) (t : Tree) : Prop where
  fits : t.Fits .list ⟨#[.text "a", .never], 1⟩ (.rule 2)
  leaves_eq : t.leaves = List.replicate n .item

/-- A tree for three items, put together from the left or from the right. -/
def Tree.threeItems (fromLeft : Bool) : Tree :=
  let one : Tree := .rule "list" 2 1 [.token .item]
  let two : Tree := .rule "list" 2 0 [one, one]
  .rule "list" 2 0 (if fromLeft then [two, one] else [one, two])

theorem TokenStream.items_endsOnce (n : Nat) : (items n).EndsOnce ∧
    (items n).content = List.replicate n .item ∧ (items n).length = n + 1 := by
  have h := @endsOnce_ofTokens (List.replicate n .item) fun t ht => by
    rw [List.eq_of_mem_replicate ht]
    decide
  rwa [List.length_replicate] at h

/-- A built grammar compiles without a lexer of its own if its literals and terminals do. -/
theorem CompiledGrammar.exists_ofGrammar {g : Grammar} (hg : g.Built) {m : TerminalMatcher}
    (hlexer : (Lexer.ofDescription (g.literals.foldl LexerDescription.literal .empty)).isOk = true)
    (hm : TerminalMatcher.ofGrammar g = .ok m) : ∃ c, CompiledGrammar.ofGrammar g .empty = .ok c ∧
      c.matcher = m ∧ c.automaton.states.size = (canonicalCollection g).size := by
  obtain ⟨a, ha⟩ := Automaton.exists_ofGrammar hg.wellFormed
  obtain ⟨l, hl⟩ : ∃ l, Lexer.ofDescription (g.literals.foldl LexerDescription.literal .empty) = .ok l := by
    cases h : Lexer.ofDescription (g.literals.foldl LexerDescription.literal .empty) with
    | ok l => exact ⟨l, rfl⟩
    | error err =>
      rw [h] at hlexer
      cases hlexer
  refine ⟨⟨g, a, .ofGrammar g, l, m⟩, ?_, rfl, Automaton.size_states ha⟩
  simp only [ofGrammar, assemble, bind, Except.bind, hl, ha, hm]

/-- There are two trees for three items. -/
theorem Tree.isItems_threeItems (fromLeft : Bool) : (threeItems fromLeft).IsItems 3 := by
  have hone : Tree.Fits .list ⟨#[.text "a", .never], 1⟩ (.rule "list" 2 1 [.token .item]) (.rule 2) :=
    .rule (A := 2) (by decide) (.cons (.token (by decide)) .nil)
  have hpair : ∀ {t u : Tree}, t.Fits .list ⟨#[.text "a", .never], 1⟩ (.rule 2) →
      u.Fits .list ⟨#[.text "a", .never], 1⟩ (.rule 2) →
      Tree.Fits .list ⟨#[.text "a", .never], 1⟩ (.rule "list" 2 0 [t, u]) (.rule 2) := fun ht hu =>
    .rule (A := 2) (by decide) (.cons ht (.cons hu .nil))
  cases fromLeft
  · exact ⟨hpair hone (hpair hone hone), rfl⟩
  · exact ⟨hpair (hpair hone hone) hone, rfl⟩

/-- The grammar of lists compiles. -/
theorem CompiledGrammar.exists_list : ∃ c, CompiledGrammar.ofGrammar .list .empty = .ok c ∧
    c.matcher = ⟨#[.text "a", .never], 1⟩ ∧ c.automaton.states.size = 6 := by
  obtain ⟨c, hc, hm, hsize⟩ := exists_ofGrammar Grammar.list_built (by cbv) rfl
  exact ⟨c, hc, hm, hsize.trans (by cbv)⟩

/-- A list of one item or more is derived. -/
theorem Grammar.list_derivesTokens (n : Nat) :
    list.DerivesTokens ⟨#[.text "a", .never], 1⟩ 2 (List.replicate (n + 1) .item) := by
  have hmatch : ∀ n, List.Forall₂ (fun tok t => t ∈ TerminalMatcher.matching
      ⟨#[.text "a", .never], 1⟩ tok) (List.replicate n Token.item) (List.replicate n 0) := fun n => by
    rw [List.forall₂_iff_get]
    refine ⟨by simp, fun i hi hi' => ?_⟩
    simp only [List.get_eq_getElem, List.getElem_replicate]
    decide
  refine ⟨List.replicate (n + 1) 0, ?_, hmatch (n + 1)⟩
  have hitem : list.alternative 2 1 ∈ (list.rule 2).alternatives := alternative_mem (by decide)
  have hmore : list.alternative 2 0 ∈ (list.rule 2).alternatives := alternative_mem (by decide)
  have hone : list.Derives [.rule 2] [.terminal 0] := derives_rule hitem (.refl _)
  induction n with
  | zero => exact hone
  | succ n ih =>
    refine derives_rule hmore ?_
    rw [List.replicate_succ, List.map_cons]
    exact derives_append (α := [.rule 2]) hone ih

namespace Parser

/-- The settings of a parse without the built-in rules. -/
def plainConfig : ParserConfig := { ParserConfig.standard with precedence := false, greedy := false }

/-- The limits leave room for short lists, whatever the other settings. -/
theorem withinLimits_of_maxStackNodes {c : CompiledGrammar} {config : ParserConfig}
    (hmax : config.maxStackNodes = 1000000) (hc : CompiledGrammar.ofGrammar .list .empty = .ok c)
    (hsize : c.automaton.states.size = 6) {n : Nat} (hn : n ≤ 1000) (user : List (Disambiguator σ))
    (s : σ) : WithinLimits ⟨c, config, user⟩ (.items n) s := by
  obtain ⟨ht, -, hlen⟩ := TokenStream.items_endsOnce n
  refine withinLimits_of_le Grammar.list_built hc ht ?_ ?_
  · rw [hlen, hsize, hmax]
    omega
  · rw [hlen, hsize, GraphStack.idLimit]
    omega

theorem withinLimits_items {c : CompiledGrammar}
    (hc : CompiledGrammar.ofGrammar .list .empty = .ok c) (hsize : c.automaton.states.size = 6)
    {n : Nat} (hn : n ≤ 1000) (user : List (Disambiguator σ)) (s : σ) :
    WithinLimits ⟨c, plainConfig, user⟩ (.items n) s :=
  withinLimits_of_maxStackNodes rfl hc hsize hn user s

/-- A list of a few items is parsed without the built-in rules: a forest is answered, and the machine has
stopped with a root that stands for all items and for the trees that they have. -/
theorem exists_parse_items {n : Nat} (hpos : 0 < n) (hn : n ≤ 1000) : ∃ c f start e root,
    CompiledGrammar.ofGrammar .list .empty = .ok c ∧ c.matcher = ⟨#[.text "a", .never], 1⟩ ∧
    (parseTokens ⟨c, plainConfig, ([] : List (Disambiguator Unit))⟩ (.items n) ()).1 = .ok f ∧
    Engine.Reaches ⟨c, plainConfig, ([] : List (Disambiguator Unit)), .items n⟩ () start .stop e ∧
    Engine.Arrives ⟨c, plainConfig, ([] : List (Disambiguator Unit)), .items n⟩ () e root ∧
    Engine.finish ⟨c, plainConfig, ([] : List (Disambiguator Unit)), .items n⟩ e root = .ok f ∧
    (∃ u, ⟨start, root⟩ ∈ (e.stack.node u).edges) ∧
    (Arena.node e.nodes root).span = some ⟨0, n⟩ ∧
    ∀ t : Tree, e.nodes.Reads .list (.items n) root t ↔ t.IsItems n := by
  obtain ⟨c, hc, hm, hsize⟩ := CompiledGrammar.exists_list
  obtain ⟨ht, hcontent, hlen⟩ := TokenStream.items_endsOnce n
  obtain ⟨f, hf⟩ := exists_ok Grammar.list_built Grammar.list_avoidsStart hc rfl rfl ht
    (withinLimits_items hc hsize hn ([] : List (Disambiguator Unit)) ()) (by
      obtain ⟨m, rfl⟩ := Nat.exists_eq_succ_of_ne_zero hpos.ne'
      rw [hm, hcontent]
      exact Grammar.list_derivesTokens m)
  obtain ⟨hg, -⟩ := CompiledGrammar.parts_of_ofGrammar hc
  have hr := CompiledGrammar.ready Grammar.list_built hc plainConfig ([] : List (Disambiguator Unit))
    (.items n)
  obtain ⟨last, hend⟩ := CompiledGrammar.endsWith hc ht plainConfig ([] : List (Disambiguator Unit))
  have hrun := hf
  rw [parseTokens, ht.ensureEof_eq] at hrun
  obtain ⟨start, e, root, hreach, harr, hfinish, hroot, -, hspan, -⟩ := Engine.reaches_of_run hr ht
    (by rw [hlen]; omega) hrun
  rw [hlen, Nat.add_sub_cancel] at hspan
  have hstart : c.grammar.AvoidsStart := hg ▸ Grammar.list_avoidsStart
  have hparse : ∀ t : Tree, ParseInput.IsParse
      ⟨c, plainConfig, ([] : List (Disambiguator Unit)), .items n⟩ t ↔ t.IsItems n := fun t => by
    rw [ParseInput.isParse_iff]
    simp only [ParseInput.grammar, hg, hm, hcontent]
    exact ⟨fun h => ⟨h.1, h.2⟩, fun h => ⟨h.1, h.2⟩⟩
  refine ⟨c, f, start, e, root, hc, hm, hf, hreach, harr, hfinish,
    Engine.exists_edge_root hroot, hspan, fun t => ?_⟩
  rw [← hparse t]
  have hreads := harr.reads_of_isParse (t := t) hr hstart ht hend ⟨rfl, rfl, .nil⟩
  rw [ParseInput.grammar, hg] at hreads
  refine ⟨fun hread => ?_, hreads⟩
  obtain ⟨hfits, hspans⟩ := (harr.formed hr).backed.spans_of_stands (harr.stands hr ht)
    (show e.nodes.Reads c.grammar _ root t by rwa [hg])
  exact ⟨hfits, hspans⟩

/-! ## Answers -/

variable {g : Grammar} {lexer : LexerDescription} {c : CompiledGrammar} {config : ParserConfig}
  {user : List (Disambiguator σ)} {tokens : TokenStream} {s : σ} {f : Forest}

/-- What a parse answers a forest for is derived, whatever the settings and the disambiguators. -/
theorem derivesTokens_of_ok (hg : g.Built) (hc : CompiledGrammar.ofGrammar g lexer = .ok c)
    (ht : tokens.EndsOnce) (hf : (parseTokens ⟨c, config, user⟩ tokens s).1 = .ok f) :
    g.DerivesTokens c.matcher g.first tokens.content := by
  obtain ⟨e, root, harr, -⟩ := arrives_of_ok hg hc ht hf
  obtain ⟨rfl, -⟩ := CompiledGrammar.parts_of_ofGrammar hc
  have hr := CompiledGrammar.ready hg hc config user tokens
  exact ((harr.formed hr).backed.spells_of_stands (harr.stands hr ht)).derivesTokens

/-- Without precedence, greedy lists and disambiguators a parse answers a forest exactly if the first
rule derives terminals that the tokens before the end satisfy, and otherwise an unexpected token. -/
theorem recognizes (hg : g.Built) (hs : g.AvoidsStart)
    (hc : CompiledGrammar.ofGrammar g lexer = .ok c) (hprecedence : config.precedence = false)
    (hgreedy : config.greedy = false) (ht : tokens.EndsOnce)
    (hlimits : WithinLimits ⟨c, config, []⟩ tokens s) :
    ((∃ f, (parseTokens ⟨c, config, []⟩ tokens s).1 = .ok f) ↔
      g.DerivesTokens c.matcher g.first tokens.content) ∧
    (¬ g.DerivesTokens c.matcher g.first tokens.content → ∃ position found near expected,
      (parseTokens ⟨c, config, []⟩ tokens s).1 =
        .error (.unexpectedToken position found near expected)) := by
  have hr := CompiledGrammar.ready hg hc config ([] : List (Disambiguator σ)) tokens
  have hderives : (∃ f, (parseTokens ⟨c, config, []⟩ tokens s).1 = .ok f) ↔
      g.DerivesTokens c.matcher g.first tokens.content :=
    ⟨fun ⟨f, hf⟩ => derivesTokens_of_ok hg hc ht hf,
      exists_ok hg hs hc hprecedence hgreedy ht hlimits⟩
  refine ⟨hderives, fun hnot => ?_⟩
  obtain ⟨hlength, hstack⟩ := hlimits
  rw [← hderives] at hnot
  rw [parseTokens, ht.ensureEof_eq] at hstack hnot ⊢
  exact Engine.run_of_not_ok hr ht ⟨hprecedence, hgreedy, .nil⟩ hlength hstack hnot

theorem recognizes_items : ∃ c f, CompiledGrammar.ofGrammar .list .empty = .ok c ∧
    (parseTokens ⟨c, plainConfig, ([] : List (Disambiguator Unit))⟩ (.items 2) ()).1 = .ok f := by
  obtain ⟨c, hc, hm, hsize⟩ := CompiledGrammar.exists_list
  obtain ⟨ht, hcontent, -⟩ := TokenStream.items_endsOnce 2
  obtain ⟨hiff, -⟩ := recognizes Grammar.list_built Grammar.list_avoidsStart hc rfl rfl ht
    (withinLimits_items hc hsize (by decide) ([] : List (Disambiguator Unit)) ())
  obtain ⟨f, hf⟩ := hiff.2 (by
    rw [hm, hcontent]
    exact Grammar.list_derivesTokens 1)
  exact ⟨c, f, hc, hf⟩

end Parser

end ParseForest
