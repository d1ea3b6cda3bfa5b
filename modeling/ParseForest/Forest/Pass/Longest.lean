import ParseForest.Disambiguation.Greedy
import ParseForest.Forest.Pass.Basic

/-!
# Longest lists

Of the alternatives of a node, those are taken away of which the first right-hand side is beaten by
the first right-hand side of another alternative, one that is greedier.
-/

namespace ParseForest

namespace Pass

/-- The first right-hand side of a packed node. -/
def firstSequence? (nodes : Arena) (packed : NodeId) : Option Sequence :=
  (Arena.sequences nodes 1 packed).head?

/-- Whether some other alternative beats the one at place `j`. -/
def isBeaten (g : Grammar) (nodes : Arena) (firsts : List (Option Sequence)) (j : Nat)
    (mine : Option Sequence) : Bool :=
  match mine with
  | none => false
  | some mine =>
    firsts.zipIdx.any fun (theirs, i) =>
      i != j && theirs.any fun theirs => Arena.greedier g nodes theirs mine

/-- The alternatives of a node that are beaten by none; all of them if each is beaten. -/
def unbeaten (g : Grammar) (nodes : Arena) (children : List NodeId) : List NodeId :=
  let firsts := children.map (firstSequence? nodes)
  let marked := (children.zip firsts).zipIdx.map fun ((p, first), j) =>
    (p, isBeaten g nodes firsts j first)
  if marked.all Prod.snd then children else (marked.filter (!·.2)).map Prod.fst

/-- The choices that lose alternatives, with those that are left to them. -/
def longestEdits (g : Grammar) (root : NodeId) (nodes : Arena) : List (NodeId × Array NodeId) :=
  (liveNodes nodes root).filterMap fun (n, id) =>
    if n.isChoice && 2 ≤ n.children.size then
      let keep := unbeaten g nodes n.children.toList
      if keep.length = n.children.size then none else some (id, keep.toArray)
    else none

/-- Keeps only the alternatives that take the longest match of a nullable list or optional rule. -/
def preferLongestList : Pass where
  name := "prefer-longest-list"
  run g root nodes := applyEdits nodes (longestEdits g root nodes)

end Pass

end ParseForest
