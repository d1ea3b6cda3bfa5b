import ParseForest.Automaton.Item
import ParseForest.Automaton.Lookahead

/-!
# States

A state holds the items that may be under way at one point of the input, where each symbol leads,
and which alternatives may be reduced.
-/

namespace ParseForest

/-- The value of a key among entries in increasing order of their keys, found by halving. -/
def searchKey {β : Type} (entries : List (Nat × β)) (key : Nat) : Option β :=
  match h : entries.drop (entries.length / 2) with
  | [] => none
  | (middle, value) :: above =>
    if key = middle then some value
    else if key < middle then searchKey (entries.take (entries.length / 2)) key
    else searchKey above key
termination_by entries.length
decreasing_by
  all_goals
    have hlength := congrArg List.length h
    rw [List.length_drop, List.length_cons] at hlength
  · rw [List.length_take]
    omega
  · omega

/-- Number of a state in its automaton. -/
abbrev StateId := Nat

/-- Reduce the first `length` symbols of an alternative before one of the lookaheads. The symbols
after them, if any, are nullable and derive nothing. -/
structure Reduction where
  rule : RuleId
  alt : Nat
  length : Nat
  lookahead : LookaheadSet
deriving DecidableEq

/-- One state. -/
structure State where
  /-- The sorted items that make the state; no two states have the same -/
  kernel : List Item
  /-- The kernel, then the items with the dot at the start that it entails -/
  items : List Item
  /-- By terminal, in increasing order -/
  shifts : List (TerminalId × StateId)
  /-- By rule, in increasing order -/
  gotos : List (RuleId × StateId)
  reductions : List Reduction
  /-- Holds the completed item of the rule that accepts -/
  accepting : Bool
deriving DecidableEq

namespace State

instance : Inhabited State := ⟨⟨[], [], [], [], [], false⟩⟩

variable (s : State)

/-- Where a terminal leads. -/
def shift? (t : TerminalId) : Option StateId := searchKey s.shifts t

/-- Where a rule leads. -/
def goto? (r : RuleId) : Option StateId := searchKey s.gotos r

/-- Where a symbol leads. -/
def transition? : Symbol → Option StateId
  | .rule r => s.goto? r
  | .terminal t => s.shift? t

/-- The lookaheads with an action, in order. -/
def expected : List Lookahead :=
  let all := s.shifts.map (fun (t, _) => Lookahead.terminal t)
    ++ s.reductions.flatMap (·.lookahead.members)
    ++ (if s.accepting then [.finish] else [])
  (all.mergeSort Lookahead.le).eraseDups

/-- The lookahead as the listing of a state shows it. -/
def displayLookahead (g : Grammar) : Lookahead → String
  | .terminal t => (g.terminal t).display
  | .finish => "$"

/-- The listing of a state: its items, those outside the kernel after `+`, and what it does. -/
def describe (g : Grammar) (id : StateId) : String :=
  "state " ++ toString id ++ "\n"
    ++ String.join (s.items.map fun i =>
        "  " ++ (if s.kernel.contains i then "" else "+") ++ i.display g ++ "\n")
    ++ String.join (s.shifts.map fun (t, target) =>
        "  shift " ++ (g.terminal t).display ++ " -> " ++ toString target ++ "\n")
    ++ String.join (s.gotos.map fun (r, target) =>
        "  goto <" ++ (g.rule r).name ++ "> -> " ++ toString target ++ "\n")
    ++ String.join (s.reductions.map fun r =>
        "  reduce " ++ g.displayAlternative r.rule r.alt (some r.length) ++ " ["
          ++ " ".intercalate (r.lookahead.members.map (displayLookahead g)) ++ "]\n")
    ++ (if s.accepting then "  accept\n" else "")

end State

end ParseForest
