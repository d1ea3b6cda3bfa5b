import ParseForest.Proofs.Parser.Operators
import ParseForest.Proofs.Parser.Sharing

/-!
# Disambiguators see well-formed candidates

What a candidate is judged by are its right-hand sides, and both precedence and the disambiguators find the
operands in them by place. In every parse the right-hand sides of a candidate are some, though no more than
the cap, and each has one node per symbol of the alternative, which between them span the tokens of the
candidate (`Parser.candidates_wellFormed`). That holds of any derivation of a symbol node in the forest of a
parse (`Deferred.Valid.wellFormed`), whatever the intermediate nodes and the parts that derive nothing
through which its right-hand sides are read off.

A step asks about one candidate at most (`Engine.asked?`), and it depends on what candidates are judged by
through the answer to this candidate alone (`Engine.next_judgedBy`). Nothing is left out: no symbol node gets
an alternative about which the run has not asked (`Engine.Reaches.exists_asked`).
-/

namespace ParseForest

variable {σ : Type}

/-! ## Well-formed candidates -/

/-- The spans lie one after the other from `l` to `r`, and none is empty. -/
def Tiles : List Span → Nat → Nat → Prop
  | [], l, r => l = r
  | s :: ss, l, r => s.left = l ∧ s.left < s.right ∧ Tiles ss s.right r

namespace Candidate

variable (m : TerminalMatcher) (ε : EpsilonForest) (c : Candidate)

/-- The node stands for the symbol: for a rule it is a node of this rule, and its fragment if it has no
span; for a terminal it is the node of a token that satisfies it. -/
def Represents (x : Symbol) (id : NodeId) : Prop :=
  match x with
  | .rule A => (Arena.node c.nodes id).kind = .symbol A ∧
      ((Arena.node c.nodes id).span = none → ε.symbol? A = some id)
  | .terminal t => ∃ i, (Arena.node c.nodes id).kind = .terminal i ∧ c.tokens.Satisfies m i t

/-- What precedence and the disambiguators rely on. -/
structure WellFormed : Prop where
  alt_lt : c.alt < (c.grammar.rule c.rule).alternatives.size
  kind_eq : (Arena.node c.nodes c.node).kind = .symbol c.rule
  span_eq : (Arena.node c.nodes c.node).span = some c.span
  span_lt : c.span.left < c.span.right
  sequences_ne_nil : c.sequences ≠ []
  length_le : c.sequences.length ≤ 64
  /-- One node per symbol, in order -/
  represents : ∀ s ∈ c.sequences, List.Forall₂ (c.Represents m ε) c.alternative.symbols s
  tiles : ∀ s ∈ c.sequences,
    Tiles (s.filterMap fun id => (Arena.node c.nodes id).span) c.span.left c.span.right

end Candidate

section

variable {input : ParseInput σ} {nodes : Arena} (hr : input.Ready) (h : input.Formed nodes)
include hr h

/-- What stands for a symbol represents it in every candidate. -/
theorem ParseInput.Formed.represents_of_stands {x : Symbol} {l r : Nat} {id : NodeId}
    (hs : nodes.Stands input.compiled.matcher input.tokens x l r id) (d : Deferred) (level : Nat) :
    (input.candidate nodes d level).Represents input.compiled.matcher input.compiled.epsilon x id := by
  cases x with
  | terminal t => exact ⟨l, hs.1, hs.2.2⟩
  | rule A => exact ⟨hs.1, h.symbol?_of_span_none hr.epsilon hs.1⟩

/-- What stands for symbols one after the other spans the tokens between its ends. -/
theorem ParseInput.Formed.tiles_of_standsAll {xs : List Symbol} {l r : Nat} {s : Sequence}
    (hs : Arena.StandsAll input.compiled.matcher input.tokens nodes xs l r s) :
    Tiles (s.filterMap fun id => (Arena.node nodes id).span) l r := by
  induction hs with
  | nil l => rfl
  | @cons x xs l k r c s hc _ ih =>
    cases hspan : (Arena.node nodes c).span with
    | some span =>
      obtain rfl := h.span_eq_of_stands hr.epsilon hc hspan
      simp only [List.filterMap_cons, hspan]
      exact ⟨rfl, h.lt_of_span hr.epsilon hspan, ih⟩
    | none =>
      -- only what derives nothing has no span
      have he : l = k := by
        cases x with
        | terminal t => cases hspan.symm.trans (h.leaf hr.epsilon hc.1).1
        | rule A =>
          rcases hc.2 with hspan' | ⟨-, he⟩
          · cases hspan.symm.trans hspan'
          · exact he
      subst he
      simpa only [List.filterMap_cons, hspan] using ih

/-- A derivation of a symbol node makes a well-formed candidate. -/
theorem Deferred.Valid.wellFormed {d : Deferred} (hd : d.Valid input nodes) (level : Nat) :
    (input.candidate nodes d level).WellFormed input.compiled.matcher input.compiled.epsilon := by
  have hall : ∀ s ∈ Arena.sequencesOf nodes sequenceCap d.children.toList, Arena.StandsAll
      input.compiled.matcher input.tokens nodes (input.grammar.alternative d.rule d.alt).symbols
      d.span.left d.span.right s := fun s hs =>
    h.standsAll hr hd.holds (Arena.flattens_of_mem_sequencesOf hs)
  exact {
    alt_lt := hd.alt_lt
    kind_eq := hd.kind_eq
    span_eq := hd.span_eq
    span_lt := h.lt_of_span hr.epsilon hd.span_eq
    sequences_ne_nil := hd.sequences_ne_nil hr h
    length_le := Arena.length_sequencesOf_le (by decide) _
    represents := fun s hs => (hall s hs).forall₂ fun hst => h.represents_of_stands hr hst d level
    tiles := fun s hs => h.tiles_of_standsAll hr (hall s hs) }

end

/-! ## What a step asks about -/

/-- The node for which a candidate offers a derivation, the alternative, and what it spans. -/
def Candidate.place (c : Candidate) : NodeId × RuleId × Nat × Span := (c.node, c.rule, c.alt, c.span)

/-- The same input, to be judged by other rules. -/
def ParseInput.judgedBy (input : ParseInput σ) (config : ParserConfig) (user : List (Disambiguator σ)) :
    ParseInput σ := { input with config, user }

namespace Engine

/-- What is asked about a derivation that is offered: nothing if it is known or a child is dead. -/
def offered? (input : ParseInput σ) (d : Deferred) (e : Engine σ) : Option Candidate :=
  if e.packed.contains d.key || e.rejected.contains d.key then none
  else if hasDeadChild e.nodes d.children e.level then none
  else some (input.candidate e.nodes d e.level)

/-- The candidate about which the next step asks. It does when a reduction is completed, and when a
derivation that has waited is judged. -/
def asked? (input : ParseInput σ) (ph : Phase) (e : Engine σ) : Option Candidate :=
  match ph with
  | .reduce _ =>
    match e.pending with
    | .complete node rule alt children :: rest =>
      let e := { e with pending := rest, reductionCount := e.reductionCount + 1 }
      let left := (e.stack.node node).level
      match symbolNode rule left e with
      | .ok symbol e => offered? input ⟨symbol, rule, alt, ⟨left, e.level⟩, children⟩ e
      | .error _ _ => none
    | _ => none
  | .settle _ (d :: _) =>
    if hasDeadChild e.nodes d.children (e.level + 1) then none
    else some (input.candidate e.nodes d (e.level + 1))
  | _ => none

variable {input : ParseInput σ} {e : Engine σ} {start : StackId} {ph : Phase} {user : σ}

theorem eq_of_offered?_eq_some {d : Deferred} {c : Candidate} (h : offered? input d e = some c) :
    c = input.candidate e.nodes d e.level := by
  rw [offered?] at h
  split at h
  · cases h
  · split at h
    · cases h
    · exact (Option.some.inj h).symm

/-- What is asked about is a derivation in the forest of the parse. It is judged at the stage to which the
run has come; all that the forest may have got since is the node of the derivation. -/
theorem Between.asked_cases (hr : input.Ready) (h : Between input start ph e) {c : Candidate}
    (hc : asked? input ph e = some c) : ∃ nodes d level, input.Formed nodes ∧ d.Valid input nodes ∧
      (ph.stage input).IsFor d level ∧ e.nodes.GrowsAt (ph.stage input) nodes ∧
      c = input.candidate nodes d level := by
  unfold asked? at hc
  split at hc
  · rename_i l
    split at hc
    · rename_i node rule alt children rest hp
      have hv : e.Valid input := Labours.toValid h
      have hmem : ∀ q ∈ Pending.complete node rule alt children :: rest, q.Valid input e :=
        hp ▸ hv.toWorkValid.pending
      obtain ⟨hg, hv₁⟩ := hv.queue hr (fun q hq => hmem q (.tail _ hq)) hv.walks hv.zeros hv.shifts
      have hcount : Queues input 0 { e with pending := rest }
          { e with pending := rest, reductionCount := e.reductionCount + 1 } :=
        Builds.queues hr hv₁ ⟨⟨rfl, rfl, rfl, rfl, rfl, rfl, rfl⟩, ⟨.refl _ _, fun _ => .inl, fun _ => id⟩,
          hv₁.toForestValid.congr rfl rfl rfl rfl rfl rfl rfl rfl rfl⟩
      have hends := hcount.valid.symbolNode (E := fun _ => True) hr
        (((hmem _ (.head _)).grows hr hv.formed hg).grows hr hv₁.formed hcount.toGrowsAt)
      rw [Ends] at hends
      dsimp only at hc
      split at hc
      · rename_i symbol e₁ hnode
        rw [hnode] at hends
        obtain ⟨hb, hd⟩ := hends
        have hlevel : e.level = l := Labours.level_eq h
        have hlevel₁ : e₁.level = l := hb.level.trans hlevel
        exact ⟨_, _, _, hb.valid.formed, hd, ⟨hlevel₁, .inl ⟨hlevel₁, rfl⟩⟩, hlevel ▸ hb.nodes,
          eq_of_offered?_eq_some hc⟩
      · cases hc
    · cases hc
  · rename_i l d ds
    obtain ⟨w, hf⟩ := Judges.forest h
    split at hc
    · cases hc
    · have hw := hf.waits d (.head _)
      exact ⟨_, d, _, hf.formed, hw.toValid,
        ⟨hw.right_eq, .inr ⟨congrArg (· + 1) (Judges.level_eq h), rfl⟩⟩, .refl _ _,
        (Option.some.inj hc).symm⟩
  · cases hc

/-! ## What a step depends on -/

/-- Two steps do the same in a state if their parts do. -/
theorem bind_apply_congr {α β : Type} {m m' : EngineM σ α} {f f' : α → EngineM σ β} (hm : m e = m' e)
    (hf : ∀ a e', m e = .ok a e' → f a e' = f' a e') : (m >>= f) e = (m' >>= f') e := by
  simp only [bind, EStateM.bind, ← hm]
  cases h : m e with
  | ok a e' => exact hf a e' h
  | error err e' => rfl

/-- The user's rules are not asked when the node of a rule is made. -/
theorem symbolNode_user {A : RuleId} {left : Nat} {E : ParseError → Prop} :
    Ends (symbolNode A left) (fun _ e' => e'.user = e.user) E e := by
  simp only [symbolNode, newNode, ends_bind, ends_get]
  split <;> simp

section

variable {config : ParserConfig} {rules : List (Disambiguator σ)}

theorem judge_judgedBy {d : Deferred} {level : Nat}
    (h : (input.judgedBy config rules).pipeline.judge (input.candidate e.nodes d level) e.user =
      input.pipeline.judge (input.candidate e.nodes d level) e.user) :
    judge (input.judgedBy config rules) d level e = judge input d level e := by
  have heq : ∀ i : ParseInput σ, judge i d level e =
      .ok (i.pipeline.judge (i.candidate e.nodes d level) e.user).1
        { e with user := (i.pipeline.judge (i.candidate e.nodes d level) e.user).2 } := fun _ => rfl
  rw [heq, heq, show (input.judgedBy config rules).candidate = input.candidate from rfl, h]

theorem addAlternative_judgedBy {d : Deferred} (h : ∀ c ∈ offered? input d e,
      (input.judgedBy config rules).pipeline.judge c e.user = input.pipeline.judge c e.user) :
    addAlternative (input.judgedBy config rules) d e = addAlternative input d e := by
  refine bind_apply_congr rfl fun e₁ e₂ hget => ?_
  obtain ⟨rfl, rfl⟩ := EStateM.Result.ok.inj hget
  split
  · rfl
  · rename_i hknown
    split
    · rfl
    · rename_i hdead
      refine bind_apply_congr (judge_judgedBy (h _ ?_)) fun _ _ _ => rfl
      rw [offered?, if_neg hknown, if_neg hdead]
      rfl

theorem queueFirst_judgedBy (level : Nat) (node : StackId) :
    queueFirst (input.judgedBy config rules) level node = queueFirst input level node := by
  have hedge : queueEdge (input.judgedBy config rules) node = queueEdge input node := rfl
  simp only [queueFirst, queueShifted, hedge]
  rfl

theorem complete_judgedBy {node : StackId} {rule : RuleId} {alt : Nat} {children : Children}
    {left : Nat} (hleft : (e.stack.node node).level = left)
    (h : ∀ symbol e', symbolNode rule left e = .ok symbol e' →
      ∀ c ∈ offered? input ⟨symbol, rule, alt, ⟨left, e'.level⟩, children⟩ e',
        (input.judgedBy config rules).pipeline.judge c e.user = input.pipeline.judge c e.user) :
    complete (input.judgedBy config rules) node rule alt children e =
      complete input node rule alt children e := by
  subst hleft
  refine bind_apply_congr rfl fun left e₁ hleft => ?_
  obtain ⟨rfl, rfl⟩ := EStateM.Result.ok.inj hleft
  refine bind_apply_congr rfl fun symbol e₁ hsymbol => ?_
  have huser : Ends (symbolNode rule (e.stack.node node).level) (fun _ e' => e'.user = e.user)
    (fun _ => True) e := symbolNode_user
  rw [Ends, hsymbol] at huser
  refine bind_apply_congr rfl fun e₂ e₃ hget => ?_
  obtain ⟨rfl, rfl⟩ := EStateM.Result.ok.inj hget
  refine bind_apply_congr (addAlternative_judgedBy ?_) fun _ _ _ => congrFun rfl _
  rw [huser]
  exact h symbol _ hsymbol

/-- A step depends on what candidates are judged by through the candidate about which it asks. -/
theorem next_judgedBy (h : ∀ c ∈ asked? input ph e,
      (input.judgedBy config rules).pipeline.judge c e.user = input.pipeline.judge c e.user) :
    next (input.judgedBy config rules) start ph e = next input start ph e := by
  cases ph with
  | reduce l =>
    refine bind_apply_congr rfl fun e₁ e₂ hget => ?_
    obtain ⟨rfl, rfl⟩ := EStateM.Result.ok.inj hget
    cases hp : e.pending with
    | nil => rfl
    | cons p rest =>
      cases p with
      | zero => exact congrFun rfl e
      | walk => exact congrFun rfl e
      | complete node rule alt children =>
        refine bind_apply_congr rfl fun _ e₂ htake => ?_
        obtain ⟨-, rfl⟩ := EStateM.Result.ok.inj htake
        refine bind_apply_congr ?_ fun _ _ _ => rfl
        refine bind_apply_congr rfl fun _ e₃ hcount => ?_
        obtain ⟨-, rfl⟩ := EStateM.Result.ok.inj hcount
        refine complete_judgedBy rfl fun symbol e' hsymbol c hc => h c ?_
        simp only [asked?, hp]
        dsimp only at hsymbol
        rw [hsymbol]
        exact hc
  | settle l ds =>
    cases ds with
    | nil => exact congrFun rfl e
    | cons d ds =>
      refine bind_apply_congr ?_ fun _ _ _ => rfl
      refine bind_apply_congr rfl fun e₁ e₂ hget => ?_
      obtain ⟨rfl, rfl⟩ := EStateM.Result.ok.inj hget
      split
      · rfl
      · rename_i hdead
        refine bind_apply_congr (judge_judgedBy (h _ ?_)) fun _ _ _ => rfl
        rw [asked?, if_neg hdead]
        rfl
  | begin l => exact congrFun rfl e
  | queue l nodes =>
    cases nodes with
    | nil => rfl
    | cons u nodes =>
      refine bind_apply_congr ?_ fun _ _ _ => rfl
      rw [queueFirst_judgedBy]
  | shift l label xs => cases xs <;> rfl
  | stop => exact congrFun rfl e

/-- A run takes the same steps under other rules that answer what it asks alike. -/
theorem Reaches.judgedBy (hmax : config.maxStackNodes = input.config.maxStackNodes)
    (h : Reaches input user start ph e)
    (hsame : ∀ ph e, Reaches input user start ph e → ∀ c ∈ asked? input ph e,
      (input.judgedBy config rules).pipeline.judge c e.user = input.pipeline.judge c e.user) :
    Reaches (input.judgedBy config rules) user start ph e := by
  induction h with
  | start h =>
    have hinit : initial (input.judgedBy config rules) user = initial input user := by
      simp only [initial, ParseInput.judgedBy, hmax]
    exact .start (hinit ▸ h)
  | step h hs ih => exact .step ih ⟨hs.1, (next_judgedBy (hsame _ _ h)).trans hs.2⟩

end

/-! ## Nothing is left out -/

/-- The rule that turns down one alternative of one node. -/
def refuse (place : NodeId × RuleId × Nat × Span) : Disambiguator σ := fun c s => (c.place != place, s)

/-- The input, with one alternative of one node to be turned down. -/
def refusing (input : ParseInput σ) (place : NodeId × RuleId × Nat × Span) : ParseInput σ :=
  input.judgedBy input.config (refuse place :: input.user)

section

variable {place : NodeId × RuleId × Nat × Span} {c : Candidate}

theorem judge_refusing (h : c.place ≠ place) (s : σ) :
    (refusing input place).pipeline.judge c s = input.pipeline.judge c s := by
  have hrefuse : refuse place c s = (true, s) := by
    rw [refuse, bne_iff_ne.2 h]
  have hall : acceptedByAll (refuse place :: input.user) c s = acceptedByAll input.user c s := by
    rw [acceptedByAll, hrefuse]
  rw [Pipeline.judge, Pipeline.judge,
    show (refusing input place).pipeline.user = refuse place :: input.user from rfl, hall]
  rfl

theorem judge_refusing_ne_accept (h : c.place = place) (s : σ) :
    ((refusing input place).pipeline.judge c s).1 ≠ .accept := by
  have hrefuse : refuse place c s = (false, s) := by
    rw [refuse, h, bne_self_eq_false]
  have hall : acceptedByAll (refuse place :: input.user) c s = (false, s) := by
    rw [acceptedByAll, hrefuse]
  rw [Pipeline.judge]
  split
  · rw [show (refusing input place).pipeline.user = refuse place :: input.user from rfl, hall]
    exact Verdict.noConfusion
  · rename_i hne
    exact hne

end

/-- What is kept is not what is turned down. -/
def refused (input : ParseInput σ) (place : NodeId × RuleId × Nat × Span) :
    Policy (refusing input place) where
  Known _ _ d b := b = true → (d.symbol, d.rule, d.alt, d.span) ≠ place
  grows _ _ hk _ _ := hk
  accepts _ _ _ haccept _ hplace := judge_refusing_ne_accept (by exact hplace) _ haccept
  rejects _ _ _ _ _ hb := by cases hb
  buries _ _ _ _ _ _ hb := by cases hb

/-- A run has asked about every alternative that a symbol node has got. -/
theorem Reaches.exists_asked (hr : input.Ready) (h : Reaches input user start ph e) {id : NodeId}
    {A : RuleId} {s : Span} {alt : Nat} {children : Children}
    (hk : (Arena.node e.nodes id).kind = .symbol A) (hs : (Arena.node e.nodes id).span = some s)
    (ha : e.nodes.HasAlternative id A alt children) : ∃ ph' e' c, Reaches input user start ph' e' ∧
      asked? input ph' e' = some c ∧ c.place = (id, A, alt, s) := by
  by_contra hno
  have h' : Reaches (refusing input (id, A, alt, s)) user start ph e :=
    h.judgedBy rfl fun ph' e' hreach c hc =>
      judge_refusing (fun hplace => hno ⟨ph', e', c, hreach, hc, hplace⟩) e'.user
  have hr' : (refusing input (id, A, alt, s)).Ready :=
    ⟨hr.wellFormed, hr.automaton, hr.epsilon, hr.exact⟩
  obtain ⟨st, ds, hforest⟩ := (h'.between hr').forest
  exact hforest.kept (refused input (id, A, alt, s)) id A s alt children hk hs ha rfl rfl

/-- A parse of more than the end of the input that answers a forest has asked about some candidate. -/
theorem exists_asked_of_run (hr : input.Ready) (ht : input.tokens.EndsOnce)
    (hlength : 1 < input.tokens.length) {f : Forest} (hf : (run input user).1 = .ok f) :
    ∃ start ph e c, Reaches input user start ph e ∧ asked? input ph e = some c := by
  obtain ⟨start, e, root, hreach, -, -, -, hk, hspan, hne⟩ := reaches_of_run hr ht hlength hf
  obtain ⟨st, ds, hforest⟩ := (hreach.between hr).forest
  have hc : (Arena.node e.nodes root).isChoice = true := by rw [Node.isChoice, hk]
  obtain ⟨p, hp⟩ := List.exists_mem_of_ne_nil _ hne
  obtain ⟨A, alt, dot, children, -, hnode, -⟩ := hforest.formed.shaped root _ hc hspan p hp
  have ha : e.nodes.HasAlternative root A alt children := ⟨hc, p, hp, hnode⟩
  obtain rfl := hforest.formed.rule_eq hk hspan ha
  obtain ⟨ph, e', c, hreach', hc, -⟩ := hreach.exists_asked hr hk hspan ha
  exact ⟨start, ph, e', c, hreach', hc⟩

end Engine

namespace Parser

variable {g : Grammar} {lexer : LexerDescription} {c : CompiledGrammar}

/-- In every state that a parse comes to, the candidate about which the next step asks is well-formed: its
right-hand sides are some, but no more than 64, and each has one node per symbol of the alternative, in
order, which stands for the symbol, and the spans of these nodes lie one after the other from end to end of
the candidate. The step asks about nothing else: under any other settings and rules it does the same, if they
say the same of this candidate. -/
theorem candidates_wellFormed (hg : g.Built) (hc : CompiledGrammar.ofGrammar g lexer = .ok c)
    (config : ParserConfig) (user : List (Disambiguator σ)) (tokens : TokenStream) (s : σ)
    (input : ParseInput σ) (hinput : input = ⟨c, config, user, tokens.ensureEof⟩)
    {start : StackId} {ph : Phase} {e : Engine σ} (h : Engine.Reaches input s start ph e) :
    (∀ candidate ∈ Engine.asked? input ph e, candidate.grammar = g ∧
      candidate.tokens = tokens.ensureEof ∧ candidate.WellFormed c.matcher c.epsilon) ∧
    ∀ config' user', (∀ candidate ∈ Engine.asked? input ph e,
        (input.judgedBy config' user').pipeline.judge candidate e.user =
          input.pipeline.judge candidate e.user) →
      Engine.next (input.judgedBy config' user') start ph e = Engine.next input start ph e := by
  have hr := CompiledGrammar.ready hg hc config user tokens.ensureEof
  obtain ⟨rfl, -⟩ := CompiledGrammar.parts_of_ofGrammar hc
  subst hinput
  refine ⟨fun candidate hasked => ?_, fun config' user' => Engine.next_judgedBy⟩
  obtain ⟨nodes, d, level, hformed, hd, -, -, rfl⟩ := (h.between hr).asked_cases hr hasked
  exact ⟨rfl, rfl, hd.wellFormed hr hformed level⟩

theorem candidates_wellFormed_items : ∃ c start ph e candidate,
    CompiledGrammar.ofGrammar .list .empty = .ok c ∧
    Engine.Reaches ⟨c, plainConfig, ([] : List (Disambiguator Unit)), (TokenStream.items 2).ensureEof⟩ ()
      start ph e ∧
    Engine.asked? ⟨c, plainConfig, [], (TokenStream.items 2).ensureEof⟩ ph e = some candidate ∧
    candidate.WellFormed c.matcher c.epsilon := by
  obtain ⟨c, hc, hm, hsize⟩ := CompiledGrammar.exists_list
  obtain ⟨ht, hcontent, hlen⟩ := TokenStream.items_endsOnce 2
  obtain ⟨f, hf⟩ := exists_ok Grammar.list_built Grammar.list_avoidsStart hc rfl rfl ht
    (withinLimits_items hc hsize (by decide) [] ()) (by
      rw [hm, hcontent]
      exact Grammar.list_derivesTokens 1)
  have hr := CompiledGrammar.ready Grammar.list_built hc plainConfig
    ([] : List (Disambiguator Unit)) (TokenStream.items 2).ensureEof
  obtain ⟨start, ph, e, candidate, hreach, hasked⟩ := Engine.exists_asked_of_run hr
    (show (TokenStream.items 2).ensureEof.EndsOnce from ht.ensureEof_eq.symm ▸ ht)
    (show 1 < (TokenStream.items 2).ensureEof.length by decide) hf
  exact ⟨c, start, ph, e, candidate, hc, hreach, hasked,
    ((candidates_wellFormed Grammar.list_built hc plainConfig [] (.items 2) () _ rfl hreach).1 candidate
      hasked).2.2⟩

end Parser

end ParseForest
