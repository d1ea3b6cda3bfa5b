import ParseForest.Automaton.State
import ParseForest.Reachable

/-!
# The canonical collection

The states of the automaton without their reductions: the start state, and for every state and
symbol the state of the items that have the symbol after the dot, moved over it. States with equal
kernels are one. They are numbered in the order in which they are found, the symbols of a state in
increasing order.
-/

namespace ParseForest

/-- The pending items, and after them the items with the dot at the start of the rules that stand
after a dot; `done` marks the rules whose items have been added. `kernel` holds items that are not
to be added again. -/
def closeItems (g : Grammar) (kernel : List Item) (pending : List Item) (done : Array Bool) :
    List Item :=
  match pending with
  | [] => []
  | item :: rest =>
    match item.nextRule? g with
    | none => item :: closeItems g kernel rest done
    | some rule =>
      if h : rule < done.size then
        if hd : done[rule] then item :: closeItems g kernel rest done
        else
          let fresh := (Item.initial g rule).filter (!kernel.contains ·)
          item :: closeItems g kernel (rest ++ fresh) (done.set rule true)
      else item :: closeItems g kernel rest done
termination_by (done.count false, pending.length)
decreasing_by
  · exact Prod.Lex.right _ (by simp)
  · exact Prod.Lex.right _ (by simp)
  · exact Prod.Lex.left _ _ (count_false_set_lt h (by simpa using hd))
  · exact Prod.Lex.right _ (by simp)

/-- The kernel and the items that it entails. -/
def closure (g : Grammar) (kernel : List Item) : List Item :=
  closeItems g kernel kernel (Array.replicate g.rules.size false)

/-- The state of a kernel, without transitions and reductions. -/
def State.ofKernel (g : Grammar) (kernel : List Item) : State :=
  ⟨kernel, closure g kernel, [], [], [], false⟩

/-- The symbols after a dot among the items, each once and in increasing order. -/
def nextSymbols (g : Grammar) (items : List Item) : List Symbol :=
  ((items.filterMap (Item.next? g)).mergeSort Symbol.le).eraseDups

/-- The kernel that a symbol leads to. -/
def successorKernel (g : Grammar) (items : List Item) (symbol : Symbol) : List Item :=
  ((items.filter fun i => i.next? g == some symbol).map Item.advance).mergeSort Item.le

/-- The state of a kernel, which is added if there is none. -/
def internState (g : Grammar) (kernel : List Item) (states : Array State) :
    StateId × Array State :=
  match states.findIdx? (·.kernel == kernel) with
  | some id => (id, states)
  | none => (states.size, states.push (.ofKernel g kernel))

/-- The transitions on the given symbols from a state with the given items. -/
def successors (g : Grammar) (items : List Item) :
    List Symbol → Array State → List (Symbol × StateId) × Array State
  | [], states => ([], states)
  | symbol :: symbols, states =>
    let (target, states) := internState g (successorKernel g items symbol) states
    let (transitions, states) := successors g items symbols states
    ((symbol, target) :: transitions, states)

/-- The transitions of a list that are on terminals. -/
def shiftsOf (transitions : List (Symbol × StateId)) : List (TerminalId × StateId) :=
  transitions.filterMap fun (s, target) => s.terminal?.map (·, target)

/-- The transitions of a list that are on rules. -/
def gotosOf (transitions : List (Symbol × StateId)) : List (RuleId × StateId) :=
  transitions.filterMap fun (s, target) => s.rule?.map (·, target)

/-- Fills in the transitions of the state `id`. -/
def expandState (g : Grammar) (id : StateId) (states : Array State) : Array State :=
  let items := (states.getD id default).items
  let (transitions, states) := successors g items (nextSymbols g items) states
  states.modify id fun s => { s with shifts := shiftsOf transitions, gotos := gotosOf transitions }

/-- Fills in the transitions of the states from `id` on, until there is none left or the fuel is
used up. -/
def expandStates (g : Grammar) : Nat → StateId → Array State → Array State
  | 0, _, states => states
  | fuel + 1, id, states =>
    if id < states.size then expandStates g fuel (id + 1) (expandState g id states) else states

/-- The items of a grammar: every alternative with the dot at every place. -/
def allItems (g : Grammar) : List Item :=
  (List.range g.rules.size).flatMap fun rule =>
    (Item.initial g rule).flatMap fun i =>
      (List.range ((g.alternative rule i.alt).length + 1)).map fun dot => { i with dot }

/-- The states of a grammar, without reductions. A kernel is a set of items, so there are no more of
them than sets of items. -/
def canonicalCollection (g : Grammar) : Array State :=
  expandStates g (1 <<< (allItems g).length + 1) 0 #[.ofKernel g [⟨g.start, 0, 0⟩]]

end ParseForest
