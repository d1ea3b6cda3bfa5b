import ParseForest.Forest.Pass.Collapse
import ParseForest.Forest.Pass.Equivalent
import ParseForest.Forest.Pass.Longest
import ParseForest.Forest.Pass.Parents
import ParseForest.Forest.Pass.Precedence
import ParseForest.Forest.Pass.Prune

/-!
# The passes after a parse
-/

namespace ParseForest

namespace Pass

/-- The passes after a parse that is ambiguous or turned candidates down. -/
def standard (precedence greedy : Bool) : List Pass :=
  [pruneDead] ++ (if precedence then [resolvePrecedence, pruneDead] else []) ++ [dedupeEquivalent]
    ++ (if greedy then [preferLongestList] else []) ++ [pruneDead, collapse, linkParents]

/-- The passes after any other parse. -/
def structural : List Pass := [collapse, linkParents]

/-- Runs passes one after another, and notes of each whether it changed anything. -/
def runAll (passes : List Pass) (g : Grammar) (root : NodeId) (nodes : Arena) :
    Arena × List (String × Bool) :=
  passes.foldl
    (fun (nodes, log) pass =>
      let (nodes, changed) := pass.run g root nodes
      (nodes, log ++ [(pass.name, changed)]))
    (nodes, [])

end Pass

end ParseForest
