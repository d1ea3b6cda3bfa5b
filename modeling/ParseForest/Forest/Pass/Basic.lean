import ParseForest.Forest.Node
import ParseForest.Grammar.Basic

/-!
# Passes

A pass reworks a finished forest: it takes alternatives away or rearranges nodes. It says whether
it changed anything.
-/

namespace ParseForest

/-- A change of a forest with the given grammar and root. -/
structure Pass where
  name : String
  run : Grammar → NodeId → Arena → Arena × Bool

namespace Pass

/-- Replaces the children of nodes; there is a change if any replacement is given. -/
def applyEdits (nodes : Arena) (edits : List (NodeId × Array NodeId)) : Arena × Bool :=
  (edits.foldl (fun nodes (id, children) => Arena.setChildren nodes id children) nodes,
    !edits.isEmpty)

/-- The nodes that can be reached, with their numbers. -/
def liveNodes (nodes : Arena) (root : NodeId) : List (Node × NodeId) :=
  let live := Arena.live nodes root
  nodes.toList.zipIdx.filter fun (_, id) => live.getD id false

end Pass

end ParseForest
