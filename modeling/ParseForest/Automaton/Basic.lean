import ParseForest.Automaton.Reductions

/-!
# The automaton

The states of a grammar with all their actions. Conflicts are kept: in one state and before one
lookahead there may be any number of actions, and the parser follows all of them.
-/

namespace ParseForest

/-- What to do in a state before a lookahead. -/
inductive Action
  | shift (target : StateId)
  /-- Reduce the first `length` symbols of an alternative -/
  | reduce (rule : RuleId) (alt length : Nat)
  | accept
deriving DecidableEq

/-- The actions of a state before a lookahead: the shift, then the reductions in their order, then
acceptance. -/
def State.actions (s : State) (l : Lookahead) : List Action :=
  let shift := match l with
    | .terminal t => (s.shift? t).toList.map Action.shift
    | .finish => []
  let reductions := s.reductions.filterMap fun r =>
    if r.lookahead.lists l then some (Action.reduce r.rule r.alt r.length) else none
  shift ++ reductions ++ (if s.accepting && l = .finish then [.accept] else [])

/-- The automaton of a grammar. -/
structure Automaton where
  states : Array State
deriving DecidableEq

namespace Automaton

/-- Builds the automaton of a grammar. -/
def ofGrammar (g : Grammar) : Except GrammarError Automaton := do
  .ok ⟨← withReductions g (canonicalCollection g)⟩

variable (a : Automaton)

/-- The state of a number. -/
def state (id : StateId) : State := a.states.getD id default

/-- The state before any input. -/
def start : StateId := 0

/-- Where a rule leads. -/
def goto? (id : StateId) (rule : RuleId) : Option StateId := (a.state id).goto? rule

/-- Where a terminal leads. -/
def shift? (id : StateId) (t : TerminalId) : Option StateId := (a.state id).shift? t

/-- The lookaheads over a number of terminals. -/
def lookaheads (terminals : Nat) : List Lookahead :=
  (List.range terminals).map Lookahead.terminal ++ [.finish]

/-- Number of pairs of a state and a lookahead with more than one action. -/
def conflicts (terminals : Nat) : Nat :=
  (a.states.toList.flatMap fun s =>
    (lookaheads terminals).filter fun l => 1 < (s.actions l).length).length

/-- The listing of all states. -/
def describe (g : Grammar) : String :=
  "\n".intercalate (a.states.toList.zipIdx.map fun (s, id) => s.describe g id)

end Automaton

end ParseForest
