import ParseForest.Forest.Pass.Pipeline
import ParseForest.Forest.Tree
import ParseForest.Parser.Error

/-!
# Forests

The result of a parse: an arena with a root, the tokens it spans, and its grammar.
-/

namespace ParseForest

/-- What was counted during a parse. -/
structure ParseStats where
  stackNodes : Nat
  stackEdges : Nat
  forestNodes : Nat
  reductions : Nat
  /-- Candidates that were turned down -/
  rejected : Nat
deriving DecidableEq

/-- All derivations of an input. -/
structure Forest where
  nodes : Arena
  root : NodeId
  tokens : TokenStream
  grammar : Grammar
  stats : ParseStats

namespace Forest

variable (f : Forest)

/-- The node of a number. -/
def node (id : NodeId) : Node := Arena.node f.nodes id

/-- For each node, whether it can be reached from the root. -/
def live : Array Bool := Arena.live f.nodes f.root

/-- Number of nodes that can be reached from the root. -/
def liveCount : Nat := f.live.count true

/-- The nodes that can be reached from the root, with their numbers. -/
def liveNodes : List (Node × NodeId) := Pass.liveNodes f.nodes f.root

/-- True when some node that can be reached has more than one derivation. -/
def isAmbiguous : Bool := f.liveNodes.any fun (n, _) => n.isChoice && 1 < n.children.size

/-! ## Trees -/

/-- The number of trees per node. -/
def treeIndex : TreeIndex := .ofArena f.nodes f.root

/-- Number of trees, up to the limit. -/
def treeCount : Nat := f.treeIndex.count f.root

/-- Tree number `i` under an index of the forest. -/
def treeUnder (index : TreeIndex) (i : Nat) : Option Tree :=
  index.treeFrom f.nodes f.grammar f.tokens (f.nodes.size + 1) f.root i

/-- Tree number `i`. -/
def treeAt? (i : Nat) : Option Tree :=
  let index := f.treeIndex
  if i < index.count f.root then f.treeUnder index i else none

/-- The first `n` trees. -/
def firstTrees (n : Nat) : List Tree :=
  let index := f.treeIndex
  (List.range (min n (index.count f.root))).filterMap (f.treeUnder index)

/-- All trees. -/
def trees : List Tree := f.firstTrees f.treeCount

/-! ## Passes -/

/-- Runs passes one after another. Answers the forest as they leave it, and whether it changed; it
is an error if the root loses its last derivation. -/
def transform (passes : List Pass) : Forest × Except ParseError Bool :=
  let (nodes, log) := Pass.runAll passes f.grammar f.root f.nodes
  let f := { f with nodes }
  if (f.node f.root).isChoice && (f.node f.root).children.isEmpty then (f, .error .emptyForest)
  else (f, .ok (log.any Prod.snd))

/-! ## Listings -/

/-- What a node is, in the listing of the forest. -/
def label (n : Node) : String :=
  match n.kind with
  | .symbol rule => "<" ++ (f.grammar.rule rule).name ++ ">"
  | .packed rule alt => "packed " ++ f.grammar.displayAlternative rule alt none
  | .intermediate rule alt dot => "intermediate " ++ f.grammar.displayAlternative rule alt (some dot)
  | .terminal token => ((f.tokens.get? token).map Token.describe).getD "?"
  | .epsilon => "ε"
  | .nulled rule alt dot => "nulled " ++ f.grammar.displayAlternative rule alt (some dot)

/-- The line of a node in the listing of the forest. -/
def describeNode (n : Node) (id : NodeId) : String :=
  let span := match n.span with
    | some s => " [" ++ toString s.left ++ ", " ++ toString s.right ++ ")"
    | none => ""
  toString id ++ ": " ++ f.label n ++ span ++ " -> ["
    ++ ", ".intercalate (n.children.toList.map toString) ++ "]\n"

/-- The nodes that can be reached from the root, one per line. -/
def describe : String := String.join (f.liveNodes.map fun (n, id) => f.describeNode n id)

/-- Label and shape of a node in the graph of the forest. -/
def dotLook (n : Node) : String × String :=
  let span := match n.span with
    | some s => " [" ++ toString s.left ++ "," ++ toString s.right ++ ")"
    | none => ""
  match n.kind with
  | .symbol rule => ((f.grammar.rule rule).name ++ span, "ellipse")
  | .packed _ _ => ("", "point")
  | .intermediate rule alt dot => (f.grammar.displayAlternative rule alt (some dot) ++ span, "box")
  | .nulled rule alt dot => (f.grammar.displayAlternative rule alt (some dot), "box")
  | .terminal token => (((f.tokens.get? token).map Token.text).getD "?", "plaintext")
  | .epsilon => ("ε", "plaintext")

/-- The lines of a node in the graph of the forest. -/
def dotNode (n : Node) (id : NodeId) : String :=
  let (label, shape) := f.dotLook n
  "  n" ++ toString id ++ " [label=" ++ Quoted.encode label ++ ", shape=" ++ shape ++ "];\n"
    ++ String.join (n.children.toList.map fun c =>
        "  n" ++ toString id ++ " -> n" ++ toString c ++ ";\n")

/-- The graph of the nodes that can be reached from the root, in DOT format. -/
def toDot : String :=
  "digraph Forest \x7b\n  ordering=out;\n"
    ++ String.join (f.liveNodes.map fun (n, id) => f.dotNode n id) ++ "\x7d\n"

end Forest

end ParseForest
