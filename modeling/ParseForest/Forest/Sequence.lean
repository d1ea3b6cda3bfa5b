import ParseForest.Forest.Node

/-!
# Flattened right-hand sides

A packed node stands for a set of right-hand sides, each with one node per symbol: an intermediate
node among its children contributes the right-hand sides of each of its alternatives, a nulled node
its fragments. The number of right-hand sides is bounded by a cap; of more than that, the first ones
are kept.
-/

namespace ParseForest

/-- A flattened right-hand side, one node per symbol. -/
abbrev Sequence := List NodeId

/-- At most `room` of the sequences `front ++ back`: those of the first back with every front come
first. -/
def joinUpTo (room : Nat) (fronts : List Sequence) : List Sequence → List Sequence
  | [] => []
  | back :: backs =>
    if room = 0 then []
    else
      let joined := (fronts.take room).map (· ++ back)
      joined ++ joinUpTo (room - joined.length) fronts backs

/-- At most `room` of the sequences that continue `fronts` by an alternative, `expand` giving the
sequences of each. -/
def continueUpTo (expand : NodeId → List Sequence) (room : Nat) (fronts : List Sequence) :
    List NodeId → List Sequence
  | [] => []
  | packed :: rest =>
    if room = 0 then []
    else
      let joined := joinUpTo room fronts (expand packed)
      joined ++ continueUpTo expand (room - joined.length) fronts rest

namespace Arena

variable (nodes : Arena)

/-- Continues sequences by a child of a packed node. -/
def extend (expand : NodeId → List Sequence) (cap : Nat) (fronts : List Sequence) (child : NodeId) :
    List Sequence :=
  match (node nodes child).kind with
  | .intermediate _ _ _ => continueUpTo expand cap fronts (childrenOf nodes child)
  | .nulled _ _ _ => fronts.map (· ++ childrenOf nodes child)
  | .epsilon => fronts
  | _ => fronts.map (· ++ [child])

/-- The sequences of a list of children, as deep as the fuel goes. -/
def expandChildren (cap : Nat) : Nat → List NodeId → List Sequence
  | 0, _ => []
  | fuel + 1, children =>
    children.foldl (extend nodes (fun packed => expandChildren cap fuel (childrenOf nodes packed)) cap)
      [[]]

/-- The first `cap` sequences of a list of children. Intermediate nodes are nested less deep than
there are nodes. -/
def sequencesOf (cap : Nat) (children : List NodeId) : List Sequence :=
  expandChildren nodes cap (nodes.size + 1) children

/-- The first `cap` sequences of a packed node. -/
def sequences (cap : Nat) (packed : NodeId) : List Sequence :=
  sequencesOf nodes cap (childrenOf nodes packed)

end Arena

end ParseForest
