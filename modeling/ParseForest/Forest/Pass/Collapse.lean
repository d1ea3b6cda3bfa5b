import ParseForest.Forest.Pass.Basic

/-!
# Collapsing

Where there is no choice, a packed node should have one child per symbol. So intermediate nodes with
a single alternative, and nulled nodes, are replaced by what they contain in the packed nodes that
use them. A packed node that is left without children gets the empty string.
-/

namespace ParseForest

namespace Pass

/-- The node whose children take the place of a child. -/
def splice? (nodes : Arena) (child : NodeId) : Option NodeId :=
  let n := Arena.node nodes child
  match n.kind with
  | .intermediate _ _ _ =>
    match n.children.toList with
    | [only] => some only
    | _ => none
  | .nulled _ _ _ => some child
  | _ => none

/-- What takes the place of a child, as deep as the fuel goes. -/
def spliced (nodes : Arena) : Nat → NodeId → List NodeId
  | 0, child => [child]
  | fuel + 1, child =>
    match splice? nodes child with
    | some inner => (Arena.childrenOf nodes inner).flatMap (spliced nodes fuel)
    | none => [child]

/-- The children of a packed node with everything spliced in. -/
def flatChildren (nodes : Arena) (id : NodeId) : Array NodeId :=
  match (Arena.childrenOf nodes id).flatMap (spliced nodes (nodes.size + 1)) with
  | [] => #[epsilonId]
  | flat => flat.toArray

/-- Whether something is to be spliced into a node. -/
def needsSplice (nodes : Arena) (id : NodeId) : Bool :=
  (Arena.node nodes id).isPacked
    && (Arena.node nodes id).children.any fun c => (splice? nodes c).isSome

/-- Collapses packed nodes one after another, so that a later one finds the earlier
ones collapsed. -/
def collapseAll : List NodeId → Arena → Bool → Arena × Bool
  | [], nodes, changed => (nodes, changed)
  | id :: ids, nodes, changed =>
    if needsSplice nodes id then
      collapseAll ids (Arena.setChildren nodes id (flatChildren nodes id)) true
    else collapseAll ids nodes changed

/-- Splices nodes without choice into the packed nodes that use them. -/
def collapse : Pass where
  name := "collapse"
  run _ root nodes := collapseAll ((liveNodes nodes root).map Prod.snd) nodes false

end Pass

end ParseForest
