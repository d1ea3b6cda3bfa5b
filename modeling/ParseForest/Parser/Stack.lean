import ParseForest.Automaton.State
import ParseForest.Forest.Node
import ParseForest.Parser.Error

/-!
# The graph-structured stack

All stacks of a generalised parser in one graph: a node per input position and state, with edges
back to what lies below it. An edge carries the forest node of the symbol that was recognised
between its ends. Stacks that come to the same state at the same position share a node.
-/

namespace ParseForest

/-- Number of a stack node. -/
abbrev StackId := Nat

/-- An edge: the node below, and the forest node recognised in between. -/
structure StackEdge where
  target : StackId
  label : NodeId
deriving DecidableEq

/-- A node of the stack. -/
structure StackNode where
  state : StateId
  level : Nat
  edges : Array StackEdge

instance : Inhabited StackNode := ⟨⟨0, 0, #[]⟩⟩

/-- The stack. -/
structure GraphStack where
  nodes : Array StackNode
  /-- The nodes of each level, in the order in which they were made -/
  levels : Array (Array StackId)
  edgeCount : Nat
  limit : Nat

namespace GraphStack

/-- The stack without nodes, for a number of levels. -/
def empty (levels limit : Nat) : GraphStack := ⟨#[], Array.replicate levels #[], 0, limit⟩

/-- There are no more node numbers than this. -/
def idLimit : Nat := 0x100000000

variable (s : GraphStack)

/-- The node of a number. -/
def node (id : StackId) : StackNode := s.nodes.getD id default

/-- The nodes of a level. -/
def level (l : Nat) : Array StackId := s.levels.getD l #[]

/-- The node of a state at a level. -/
def find? (l : Nat) (state : StateId) : Option StackId :=
  (s.level l).find? fun id => (s.node id).state == state

/-- Makes the node of a state at a level. -/
def add (l : Nat) (state : StateId) : StackId × GraphStack :=
  (s.nodes.size, { s with
    nodes := s.nodes.push ⟨state, l, #[]⟩
    levels := s.levels.modify l (·.push s.nodes.size) })

/-- The node of a state at a level, which is made if there is none and there is room; and whether it
was made. -/
def intern (l : Nat) (state : StateId) : Except ParseError (StackId × Bool × GraphStack) :=
  match s.find? l state with
  | some id => .ok (id, false, s)
  | none =>
    if s.limit ≤ s.nodes.size ∨ idLimit ≤ s.nodes.size then .error (.stackLimit s.limit)
    else
      let (id, s) := s.add l state
      .ok (id, true, s)

/-- Whether there is an edge. -/
def hasEdge (source : StackId) (e : StackEdge) : Bool := (s.node source).edges.contains e

/-- Adds an edge. -/
def addEdge (source : StackId) (e : StackEdge) : GraphStack :=
  { s with
    nodes := s.nodes.modify source fun n => { n with edges := n.edges.push e }
    edgeCount := s.edgeCount + 1 }

end GraphStack

end ParseForest
