import ParseForest.Forest.Pass.Basic

/-!
# Parents

Links every node to the nodes that have it as a child and can be reached from the root, each once
and in the order of their numbers.
-/

namespace ParseForest

namespace Pass

/-- Notes a parent of a node, unless it is noted. -/
def addParent (parent : NodeId) (nodes : Arena) (child : NodeId) : Arena :=
  nodes.modify child fun n =>
    if n.parents.contains parent then n else { n with parents := n.parents.push parent }

/-- Forgets all parents. -/
def clearParents (nodes : Arena) : Arena := nodes.map fun n => { n with parents := #[] }

/-- Links every node to its parents. -/
def linkAll (root : NodeId) (nodes : Arena) : Arena :=
  (liveNodes nodes root).foldl
    (fun linked (n, id) => n.children.foldl (addParent id) linked) (clearParents nodes)

/-- Fills in parents; nothing else changes. -/
def linkParents : Pass where
  name := "link-parents"
  run _ root nodes := (linkAll root nodes, false)

end Pass

end ParseForest
