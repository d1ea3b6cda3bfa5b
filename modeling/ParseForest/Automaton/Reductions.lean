import ParseForest.Automaton.Collection
import ParseForest.Automaton.Propagation
import ParseForest.Grammar.Error
import Std.Data.HashMap

/-!
# Reductions and their lookaheads

Lookaheads are computed as DeRemer and Pennello do, by two propagations along relations between transitions.
What may follow a rule depends on the state it was begun in, so it is computed per rule transition
`(p, A)`, state `p` with rule `A` after a dot. Number zero is the virtual transition `(0, #S)`,
which the end follows.

* The terminals that can be shifted after the transition follow it directly.
* `(p, A)` reads `(q, C)` when `p` leads to `q` on `A` and `C` is nullable: what follows a nullable
  rule after `A` follows `A`.
* `(q, B)` includes `(p, A)` when `A ::= β B γ` with `γ` nullable and `p` leads to `q` over `β`:
  what follows `A` follows `B` at its end.

An item `A ::= α • β` with `β` nullable is reduced in a state `q` before everything that follows
some `(p, A)` such that `p` leads to `q` over `α`.
-/

namespace ParseForest

/-- The rule transitions of an automaton, numbered. -/
structure RuleTransitions where
  list : Array (StateId × RuleId)
  index : Std.HashMap (StateId × RuleId) Nat

namespace RuleTransitions

/-- Appends a transition; the last of equal ones has the number. -/
def push (t : RuleTransitions) (p : StateId) (rule : RuleId) : RuleTransitions :=
  ⟨t.list.push (p, rule), t.index.insert (p, rule) t.list.size⟩

/-- The transitions of all the states, after the virtual one. -/
def ofStates (g : Grammar) (states : Array State) : RuleTransitions :=
  states.toList.zipIdx.foldl
    (fun t (state, p) => state.gotos.foldl (fun t (rule, _) => t.push p rule) t)
    ⟨#[(0, g.start)], (∅ : Std.HashMap (StateId × RuleId) Nat).insert (0, g.start) 0⟩

/-- The number of a transition. -/
def find? (t : RuleTransitions) (p : StateId) (rule : RuleId) : Option Nat := t.index[(p, rule)]?

end RuleTransitions

/-- The state that a rule transition leads to, if it is not the virtual one. -/
def targetState? (states : Array State) (t : Nat) (p : StateId) (rule : RuleId) : Option StateId :=
  if t = 0 then none else (states.getD p default).goto? rule

/-- What directly follows transition number `t`. -/
def directFollow (terminals : Nat) (states : Array State) (t : Nat) (p : StateId) (rule : RuleId) :
    LookaheadSet :=
  if t = 0 then (LookaheadSet.empty terminals).insert .finish
  else
    match targetState? states t p rule with
    | none => .empty terminals
    | some q =>
      (states.getD q default).shifts.foldl (fun s (a, _) => s.insert (.terminal a)) (.empty terminals)

/-- The transitions that transition number `t` reads. -/
def readsOf (g : Grammar) (states : Array State) (transitions : RuleTransitions) (t : Nat)
    (p : StateId) (rule : RuleId) : List Nat :=
  match targetState? states t p rule with
  | none => []
  | some q =>
    (states.getD q default).gotos.filterMap fun (next, _) =>
      if g.isNullable next then transitions.find? q next else none

/-- The relations that the alternatives of the rules induce: whom each transition includes, and from
which transitions each item is reduced. -/
structure Walks where
  includes : Array (List Nat)
  lookback : Std.HashMap (StateId × Item) (List Nat)

/-- Notes that `item` is reduced in state `q` from transition `t`. -/
def Walks.addLookback (w : Walks) (q : StateId) (item : Item) (t : Nat) : Walks :=
  { w with lookback := w.lookback.alter (q, item) fun ts => some (t :: ts.getD []) }

/-- Notes that transition `i` includes transition `t`. -/
def Walks.addInclude (w : Walks) (i t : Nat) : Walks :=
  { w with includes := w.includes.modify i (t :: ·) }

/-- Walks over the symbols of an alternative of the rule of transition `t`, from the one at `dot`
on, in state `q`. -/
def walkSymbols (g : Grammar) (states : Array State) (transitions : RuleTransitions) (t : Nat)
    (rule : RuleId) (alt nullableFrom : Nat) :
    Nat → StateId → List Symbol → Walks → Except GrammarError Walks
  | dot, q, [], w => .ok (w.addLookback q ⟨rule, alt, dot⟩ t)
  | dot, q, symbol :: rest, w =>
    let w := if nullableFrom ≤ dot then w.addLookback q ⟨rule, alt, dot⟩ t else w
    let inner := if nullableFrom ≤ dot + 1 then symbol.rule?.bind (transitions.find? q) else none
    let w := match inner with
      | some i => w.addInclude i t
      | none => w
    match (states.getD q default).transition? symbol with
    | some q => walkSymbols g states transitions t rule alt nullableFrom (dot + 1) q rest w
    | none => .error (.internal ("automaton has no transition on " ++ g.symbolName symbol
        ++ " from state " ++ toString q))

/-- Walks over the alternatives of the rules of all transitions. -/
def walkAll (g : Grammar) (states : Array State) (transitions : RuleTransitions) :
    Except GrammarError Walks :=
  transitions.list.toList.zipIdx.foldlM
    (fun w ((p, rule), t) =>
      (g.rule rule).alternatives.toList.zipIdx.foldlM
        (fun w (a, alt) =>
          walkSymbols g states transitions t rule alt a.nullableFrom 0 p a.symbols w)
        w)
    ⟨Array.replicate transitions.list.size [], ∅⟩

/-- What follows each transition. -/
def followSets (g : Grammar) (states : Array State) (transitions : RuleTransitions)
    (includes : Array (List Nat)) : Array LookaheadSet :=
  let direct := transitions.list.mapIdx fun t (p, rule) =>
    directFollow g.terminals.size states t p rule
  let reads := transitions.list.mapIdx fun t (p, rule) => readsOf g states transitions t p rule
  propagate includes (propagate reads direct)

/-- The reduction of an item, if anything may follow it. -/
def reductionOf? (g : Grammar) (follow : Array LookaheadSet) (sources : List Nat) (item : Item) :
    Option Reduction :=
  let lookahead := sources.foldl (fun s t => s.union (follow.getD t default))
    (LookaheadSet.empty g.terminals.size)
  if lookahead.isEmpty then none else some ⟨item.rule, item.alt, item.dot, lookahead⟩

/-- A state with its reductions, ordered by item; the completed item of the rule that accepts makes
it accepting instead. -/
def finishState (g : Grammar) (follow : Array LookaheadSet)
    (lookback : Std.HashMap (StateId × Item) (List Nat)) (id : StateId) (s : State) : State :=
  let reduced := (s.items.mergeSort Item.le).filterMap fun item =>
    (lookback[(id, item)]?).map (item, ·)
  let accepts (item : Item) : Bool := item.rule == g.start && item.isComplete g
  { s with
    reductions := (reduced.filter (!accepts ·.1)).filterMap fun (item, sources) =>
      reductionOf? g follow sources item
    accepting := reduced.any (accepts ·.1) }

/-- The states with their reductions. -/
def withReductions (g : Grammar) (states : Array State) : Except GrammarError (Array State) := do
  let transitions := RuleTransitions.ofStates g states
  let walks ← walkAll g states transitions
  let follow := followSets g states transitions walks.includes
  .ok (states.mapIdx fun id s => finishState g follow walks.lookback id s)

end ParseForest
