import ParseForest.Grammar.Symbol
import ParseForest.Reachable

/-!
# Forest nodes

A shared packed parse forest is an arena of nodes that refer to each other by number. A symbol node
says that a rule was recognised over a span; each of its packed children is one way of deriving it.
Intermediate nodes hold the tail of a right-hand side, in as many ways as they have packed children,
so that a packed node has at most two children while the forest is built. Terminal and epsilon nodes
are the leaves, and a nulled node stands in for a tail of symbols that derived nothing.
-/

namespace ParseForest

/-- Number of a node in its arena. -/
abbrev NodeId := Nat

/-- Number of the node of the empty string, the first of every arena. -/
def epsilonId : NodeId := 0

/-- What a node is. -/
inductive NodeKind
  /-- The rule, recognised over the span of the node -/
  | symbol (rule : RuleId)
  /-- One derivation of its owner by an alternative -/
  | packed (rule : RuleId) (alt : Nat)
  /-- The symbols of an alternative from `dot` on -/
  | intermediate (rule : RuleId) (alt dot : Nat)
  /-- The token of a number -/
  | terminal (token : Nat)
  /-- The empty string -/
  | epsilon
  /-- The symbols of an alternative from `dot` on, which derive nothing -/
  | nulled (rule : RuleId) (alt dot : Nat)
deriving DecidableEq, Hashable

/-- The tokens from `left` up to but not including `right`. -/
structure Span where
  left : Nat
  right : Nat
deriving DecidableEq, Hashable

/-- Number of tokens. -/
def Span.width (s : Span) : Nat := s.right - s.left

/-- A node. The fragments that derive nothing are shared between all places and have no span. -/
structure Node where
  kind : NodeKind
  span : Option Span
  children : Array NodeId
  /-- Filled in when parents are linked -/
  parents : Array NodeId
deriving DecidableEq

/-- The nodes of a forest. -/
abbrev Arena := Array Node

namespace Node

/-- A node without children. -/
def ofKind (kind : NodeKind) (span : Option Span) : Node := ⟨kind, span, #[], #[]⟩

instance : Inhabited Node := ⟨.ofKind .epsilon none⟩

variable (n : Node)

/-- True of symbol and intermediate nodes, whose children are alternatives. -/
def isChoice : Bool :=
  match n.kind with
  | .symbol _ => true
  | .intermediate _ _ _ => true
  | _ => false

/-- True of packed nodes. -/
def isPacked : Bool :=
  match n.kind with
  | .packed _ _ => true
  | _ => false

/-- True of symbol nodes. -/
def isSymbol : Bool :=
  match n.kind with
  | .symbol _ => true
  | _ => false

/-- The rule that the node is about. -/
def rule? : Option RuleId :=
  match n.kind with
  | .symbol rule => some rule
  | .packed rule _ => some rule
  | .intermediate rule _ _ => some rule
  | .nulled rule _ _ => some rule
  | .terminal _ => none
  | .epsilon => none

/-- Number of tokens covered. -/
def width : Nat := (n.span.map Span.width).getD 0

end Node

namespace Arena

variable (nodes : Arena)

/-- The node of a number. -/
def node (id : NodeId) : Node := nodes.getD id default

/-- The children of a node. -/
def childrenOf (id : NodeId) : List NodeId := (node nodes id).children.toList

/-- For each node, whether it can be reached from the root. -/
def live (root : NodeId) : Array Bool := reachableFrom nodes.size (childrenOf nodes) root

/-- Replaces the children of a node. -/
def setChildren (id : NodeId) (children : Array NodeId) : Arena :=
  nodes.modify id fun n => { n with children }

/-- Appends a child to a node. -/
def addChild (id child : NodeId) : Arena :=
  nodes.modify id fun n => { n with children := n.children.push child }

end Arena

end ParseForest
