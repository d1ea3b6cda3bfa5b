import ParseForest.Disambiguation.Candidate
import ParseForest.Forest.Pass.Basic

/-!
# Precedence, once more

When a forest is finished, every operand has all its derivations, so precedence can be checked
again. Symbol nodes are visited from narrow to wide: an operand is narrower than the alternative it
stands in, so it has lost all it will lose when the alternative is judged.
-/

namespace ParseForest

namespace Pass

/-- Whether a packed node is headed by an operator. -/
def isOperatorNode (g : Grammar) (nodes : Arena) (packed : NodeId) : Bool :=
  match (Arena.node nodes packed).kind with
  | .packed rule alt => (g.alternative rule alt).operator.isSome
  | _ => false

/-- Whether a symbol node of a rule keeps an alternative. -/
def keepsAlternative (g : Grammar) (nodes : Arena) (rule : RuleId) (packed : NodeId) : Bool :=
  match (Arena.node nodes packed).kind with
  | .packed _ alt =>
    !isOperatorNode g nodes packed
      || Arena.precedenceAllows g nodes (fun _ => true) (g.alternative rule alt)
          (Arena.sequences nodes sequenceCap packed)
  | _ => true

/-- Takes away the alternatives of one symbol node that precedence forbids. -/
def resolveNode (g : Grammar) (nodes : Arena) (id : NodeId) : Arena :=
  match (Arena.node nodes id).kind with
  | .symbol rule =>
    Arena.setChildren nodes id ((Arena.node nodes id).children.filter (keepsAlternative g nodes rule))
  | _ => nodes

/-- The symbol nodes that own an operator alternative, from narrow to wide. -/
def resolveOrder (g : Grammar) (root : NodeId) (nodes : Arena) : List NodeId :=
  let owners := (liveNodes nodes root).filter fun (n, _) =>
    n.isSymbol && n.children.any (isOperatorNode g nodes)
  (owners.mergeSort fun (a, _) (b, _) => a.width ≤ b.width).map Prod.snd

/-- Takes away the alternatives of the nodes, one node after another. -/
def resolveAll (g : Grammar) : List NodeId → Arena → Bool → Arena × Bool
  | [], nodes, changed => (nodes, changed)
  | id :: ids, nodes, changed =>
    let before := (Arena.node nodes id).children.size
    let nodes := resolveNode g nodes id
    resolveAll g ids nodes (changed || (Arena.node nodes id).children.size != before)

/-- Takes away the alternatives that precedence forbids. -/
def resolvePrecedence : Pass where
  name := "resolve-precedence"
  run g root nodes := resolveAll g (resolveOrder g root nodes) nodes false

end Pass

end ParseForest
