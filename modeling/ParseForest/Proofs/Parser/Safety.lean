import ParseForest.Proofs.Parser.Answer
import ParseForest.Proofs.Parser.Machine

/-!
# A parse ends, and never with an internal error

Between two steps of a run the edges of the stack are labelled by what the transitions between their
ends recognise, and what is pending can be done (`Pending.Safe`): a walk back over the stack comes to
states that have a goto on the rule, and what is reduced to nothing has a fragment. So the internal
errors are never met (`Parser.never_internal`). A run has no step that can be repeated forever, and does
all the work of a level (`Parser.terminates`).
-/

namespace ParseForest

variable {σ : Type}

/-- The work cannot meet an internal error. -/
def Pending.Safe (input : ParseInput σ) (e : Engine σ) : Pending → Prop
  | .zero node rule => (∃ label, input.compiled.epsilon.symbol? rule = some label) ∧
      ∃ q, input.compiled.automaton.goto? (e.stack.node node).state rule = some q
  | .walk w => ∀ t labels, labels.length = w.remaining → e.stack.Path t labels w.node →
      ∃ q, input.compiled.automaton.goto? (e.stack.node t).state w.rule = some q
  | .complete node rule _ _ =>
      ∃ q, input.compiled.automaton.goto? (e.stack.node node).state rule = some q

namespace Engine

variable {input : ParseInput σ} {e : Engine σ} {user : σ} {start : StackId}

/-- The items of the states along a path are those of the symbols that are left. -/
theorem StackValid.hasItem_of_path (hr : input.Ready) (h : e.StackValid input) {t u : StackId}
    {labels : List NodeId} (hpath : e.stack.Path t labels u) {rule : RuleId} {alt : Nat}
    (hi : e.stack.HasItem input u ⟨rule, alt, labels.length⟩) :
    e.stack.HasItem input t ⟨rule, alt, 0⟩ := by
  induction hpath with
  | nil => exact hi
  | snoc _ he ih =>
    rw [List.length_append, List.length_singleton] at hi
    exact ih (h.step_back hr he hi).2.1

/-- Valid work cannot meet an internal error. -/
theorem StackValid.safe (hr : input.Ready) (h : e.StackValid input) {p : Pending}
    (hp : p.Valid input e) : p.Safe input e := by
  cases p with
  | zero node rule =>
    obtain ⟨⟨alt, hi⟩, -, hs, hnull⟩ := hp
    have hsome := hr.epsilon.symbol?_isSome rule
    rw [(hr.wellFormed.isNullable_iff rule).2 hnull] at hsome
    exact ⟨Option.isSome_iff_exists.1 hsome, h.exists_goto hr hi hs⟩
  | walk w =>
    obtain ⟨-, hi, -, -, -, hs⟩ := hp
    intro t labels hlen hpath
    exact h.exists_goto hr (h.hasItem_of_path hr hpath (hlen ▸ hi)) hs
  | complete node rule alt children => exact h.exists_goto hr hp.1 hp.2.2.2.2

/-- Between two steps the stack makes sense, and so does what is pending. -/
theorem Between.valid {ph : Phase} (h : Between input start ph e) :
    e.StackValid input ∧ ∀ p ∈ e.pending, p.Valid input e := by
  have hwork : e.WorkValid input → e.StackValid input ∧ ∀ p ∈ e.pending, p.Valid input e :=
    fun h => ⟨h.toStackValid, h.pending⟩
  cases ph with
  | begin l => exact ⟨h.2.stack, by simp [h.2.pending]⟩
  | queue l nodes => exact hwork h.1.toWorkValid
  | reduce l => exact hwork (Labours.toValid h).toWorkValid
  | settle l ds => exact hwork (Judges.toWorkValid h)
  | shift l label xs => exact hwork (Moves.toWorkValid h)
  | stop => exact hwork (Judges.toWorkValid h)

/-- A parse does not fail for an internal reason, unless there are too many tokens. -/
theorem not_internal (hr : input.Ready) (hlen : input.tokens.length < GraphStack.idLimit)
    (text : String) : (run input user).1 ≠ .error (.internal text) := by
  intro h
  rcases run_cases hr user with ⟨e, root, -, hrun⟩ | ⟨-, -, _, hrun, -⟩ | ⟨-, hlong, -⟩ |
    ⟨-, -, err, hfails, hrun⟩
  · rw [hrun, finish_eq] at h
    split at h <;> cases h
  · rw [hrun] at h
    cases h
  · exact Nat.not_lt.2 hlong hlen
  · rw [hrun] at h
    obtain rfl := Except.error.inj h
    generalize herr : ParseError.internal text = err at hfails
    cases hfails with
    | early hmay =>
      subst herr
      exact hmay
    | stuck | unaccepted | empty => cases herr

end Engine

namespace Parser

variable {g : Grammar} {lexer : LexerDescription} {c : CompiledGrammar}

/-- Nothing that a parse does fails for an internal reason: the automaton is made; the symbols that a
reduction leaves out have a fragment; in every state that a run comes to, the label of an edge stands
for the symbol of the transition between the states of its ends, and what is pending can be done. -/
theorem never_internal (hg : g.Built) : (∃ a, Automaton.ofGrammar g = .ok a) ∧
    (CompiledGrammar.ofGrammar g lexer = .ok c →
      (∀ q l rule alt n, .reduce rule alt n ∈ (c.automaton.state q).actions l → 0 < n →
        n < (g.alternative rule alt).length → ∃ part, c.epsilon.tail? rule alt n = some part) ∧
      ∀ (config : ParserConfig) (user : List (Disambiguator σ)) (tokens : TokenStream) (s : σ),
        tokens.ensureEof.length < GraphStack.idLimit →
        (∀ text, (parseTokens ⟨c, config, user⟩ tokens s).1 ≠ .error (.internal text)) ∧
        ∀ start ph e, Engine.Reaches ⟨c, config, user, tokens.ensureEof⟩ s start ph e →
          (∀ u, ∀ edge ∈ (e.stack.node u).edges, ∃ x,
            (c.automaton.state (e.stack.node edge.target).state).transition? x =
              some (e.stack.node u).state ∧
            e.nodes.Stands c.matcher tokens.ensureEof x (e.stack.node edge.target).level
              (e.stack.node u).level edge.label) ∧
          ∀ p ∈ e.pending, p.Safe ⟨c, config, user, tokens.ensureEof⟩ e) := by
  refine ⟨Automaton.exists_ofGrammar hg.wellFormed, fun hc => ⟨?_, fun config user tokens s hlen => ?_⟩⟩
  · obtain ⟨rfl, -⟩ := CompiledGrammar.parts_of_ofGrammar hc
    have hr := CompiledGrammar.ready hg hc .standard ([] : List (Disambiguator σ)) ⟨#[], none⟩
    intro q l rule alt n ha hpos hlt
    obtain ⟨hi, hq⟩ := hr.automaton.item_of_reduce q l rule alt n ha
    obtain ⟨-, -, hnull⟩ := hr.automaton.rest_of_reduce q l rule alt n ha
    have halt := (Item.mem_allItems_iff.1 (hr.automaton.isLR0.mem_allItems q hq _ hi)).1
    exact hr.exists_tail halt hpos hlt hnull
  · have hr := CompiledGrammar.ready hg hc config user tokens.ensureEof
    refine ⟨Engine.not_internal hr hlen, fun start ph e h => ?_⟩
    obtain ⟨hstack, hpending⟩ := (h.between hr).valid
    exact ⟨fun u edge he => (hstack.labelled u edge he).2, fun p hp => hstack.safe hr (hpending p hp)⟩

theorem never_internal_items : ∃ c, CompiledGrammar.ofGrammar .list .empty = .ok c ∧
    (TokenStream.items 2).ensureEof.length < GraphStack.idLimit ∧
    ∀ text, (parseTokens ⟨c, .standard, ([] : List (Disambiguator Unit))⟩ (.items 2) ()).1 ≠
      .error (.internal text) := by
  obtain ⟨c, hc, -⟩ := CompiledGrammar.exists_list
  have hlen : (TokenStream.items 2).ensureEof.length < GraphStack.idLimit := by decide
  exact ⟨c, hc, hlen, (((never_internal Grammar.list_built).2 hc).2 .standard [] (.items 2) () hlen).1⟩

/-- A parse ends: no run of the machine goes on forever. At every level all that is pending is done, and
the limit on the work of a level does not come into it; so the levels are run as the machine runs them,
and end where it stops, or fail where it fails. -/
theorem terminates (hg : g.Built) (hc : CompiledGrammar.ofGrammar g lexer = .ok c)
    (config : ParserConfig) (user : List (Disambiguator σ)) (tokens : TokenStream) (s : σ)
    (start : StackId) (input : ParseInput σ) (hinput : input = ⟨c, config, user, tokens.ensureEof⟩) :
    (∀ ph e, Engine.Reaches input s start ph e →
      Acc (fun y x => Engine.Step input start x y) (ph, e)) ∧
    (∀ l e, Engine.Reaches input s start (.reduce l) e → Ends (Engine.reduceAll input)
      (fun _ e' => Engine.Steps input start (.reduce l, e) (.reduce l, e') ∧ e'.pending = [])
      (Engine.StepsFail input start (.reduce l, e)) e) ∧
    ∀ e, Engine.Reaches input s start (.begin 0) e →
      Ends (Engine.runLevels input start input.tokens.length 0)
        (fun _ e' => Engine.Steps input start (.begin 0, e) (.stop, e'))
        (Engine.StepsFail input start (.begin 0, e)) e := by
  subst hinput
  have hr := CompiledGrammar.ready hg hc config user tokens.ensureEof
  exact ⟨fun ph e h => Engine.Between.acc hr (x := (ph, e)) (h.between hr),
    fun l e h => Engine.Steps.reduceAll hr (x := (_, e)) h .refl,
    fun e h => Engine.Steps.runLevels hr (x := (_, e)) h _ .refl (Nat.zero_add _)⟩

/-- All levels of a list of three items are done. -/
theorem terminates_items : ∃ c start e e', CompiledGrammar.ofGrammar .list .empty = .ok c ∧
    Engine.Reaches ⟨c, plainConfig, ([] : List (Disambiguator Unit)), .items 3⟩ () start (.begin 0) e ∧
    Acc (fun y x => Engine.Step ⟨c, plainConfig, [], .items 3⟩ start x y) (.begin 0, e) ∧
    Engine.runLevels ⟨c, plainConfig, [], .items 3⟩ start 4 0 e = .ok () e' ∧
    Engine.Steps ⟨c, plainConfig, [], .items 3⟩ start (.begin 0, e) (.stop, e') := by
  obtain ⟨c, f, -, -, -, hc, -, hf, -⟩ := exists_parse_items (n := 3) (by decide) (by decide)
  obtain ⟨ht, -, hlength⟩ := TokenStream.items_endsOnce 3
  rw [parseTokens, ht.ensureEof_eq] at hf
  obtain ⟨start, isNew, e, e', hstart, hrun⟩ := Engine.exists_runLevels ht (by rw [hlength]; decide) hf
  obtain ⟨hacc, -, hlevels⟩ := terminates Grammar.list_built hc plainConfig [] (.items 3) () start _
    (by rw [ht.ensureEof_eq])
  have hsteps := hlevels e (.start hstart)
  rw [Ends, hrun] at hsteps
  have hfour : Engine.runLevels _ start (TokenStream.items 3).length 0 e = .ok () e' := hrun
  rw [hlength] at hfour
  exact ⟨c, start, e, e', hc, .start hstart, hacc _ _ (.start hstart), hfour, hsteps⟩

end Parser

end ParseForest
