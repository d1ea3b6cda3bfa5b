import ParseForest.Forest.Pass.Basic
import Std.Data.HashMap
import Std.Data.HashSet

/-!
# Equivalent alternatives

Binarisation may leave one derivation under two packed nodes that differ only in the intermediate
nodes they share with others. Such nodes are told by their shape: symbol nodes and leaves count by
identity, nulled nodes by what they contain, intermediate nodes by the set of their alternatives.
Equal shapes get equal numbers.
-/

namespace ParseForest

/-- A child as far as shape goes. -/
inductive ShapePart
  | node (id : NodeId)
  | shape (number : Nat)
deriving DecidableEq, Hashable

/-- A shape. -/
structure Shape where
  kind : NodeKind
  span : Option Span
  parts : List ShapePart
deriving DecidableEq, Hashable

/-- The numbers given to shapes so far, and the shapes of nodes that are known. -/
structure ShapeTable where
  numbers : Std.HashMap Shape Nat
  known : Array (Option Nat)

namespace ShapeTable

/-- No shape is known of any of `n` nodes. -/
def empty (n : Nat) : ShapeTable := ⟨∅, Array.replicate n none⟩

/-- The number of a shape, which is given one if it has none; `id` is the node it is the
shape of. -/
def intern (s : Shape) (id : NodeId) (t : ShapeTable) : Nat × ShapeTable :=
  match t.numbers[s]? with
  | some n => (n, { t with known := t.known.setIfInBounds id (some n) })
  | none =>
    let n := t.numbers.size
    (n, ⟨t.numbers.insert s n, t.known.setIfInBounds id (some n)⟩)

/-- The results of a function on the items of a list, which passes on the table. -/
def mapList {α β : Type} (f : α → ShapeTable → β × ShapeTable) :
    List α → ShapeTable → List β × ShapeTable
  | [], t => ([], t)
  | a :: as, t =>
    let (b, t) := f a t
    let (bs, t) := mapList f as t
    (b :: bs, t)

/-- A child of a node as far as shape goes, given the numbers of shapes. -/
def part (nodes : Arena) (shapeOf : NodeId → ShapeTable → Nat × ShapeTable) (id : NodeId)
    (t : ShapeTable) : ShapePart × ShapeTable :=
  match (Arena.node nodes id).kind with
  | .intermediate _ _ _ | .nulled _ _ _ =>
    let (n, t) := shapeOf id t
    (.shape n, t)
  | _ => (.node id, t)

/-- The number of the shape of a node, as deep as the fuel goes. -/
def shapeOf (nodes : Arena) : Nat → NodeId → ShapeTable → Nat × ShapeTable
  | 0, _, t => (0, t)
  | fuel + 1, id, t =>
    match t.known.getD id none with
    | some n => (n, t)
    | none =>
      let n := Arena.node nodes id
      let (parts, t) := match n.kind with
        | .intermediate _ _ _ =>
          let (numbers, t) := mapList (shapeOf nodes fuel) n.children.toList t
          (((numbers.mergeSort (· ≤ ·)).eraseDups).map ShapePart.shape, t)
        | _ => mapList (part nodes (shapeOf nodes fuel)) n.children.toList t
      intern ⟨n.kind, n.span, parts⟩ id t

end ShapeTable

namespace Pass

/-- The first of each group of alternatives of one shape. `seen` holds the shapes before them. -/
def distinctShapes (nodes : Arena) :
    List NodeId → List Nat → ShapeTable → List NodeId × ShapeTable
  | [], _, t => ([], t)
  | id :: ids, seen, t =>
    let (n, t) := ShapeTable.shapeOf nodes (nodes.size + 1) id t
    let (rest, t) := distinctShapes nodes ids (n :: seen) t
    (if seen.contains n then rest else id :: rest, t)

/-- The choices that have equivalent alternatives, with the alternatives that are left to them. -/
def dedupeEdits (nodes : Arena) :
    List (Node × NodeId) → ShapeTable → List (NodeId × Array NodeId)
  | [], _ => []
  | (n, id) :: rest, t =>
    if n.isChoice && 2 ≤ n.children.size then
      let (keep, t) := distinctShapes nodes n.children.toList [] t
      if keep.length = n.children.size then dedupeEdits nodes rest t
      else (id, keep.toArray) :: dedupeEdits nodes rest t
    else dedupeEdits nodes rest t

/-- Takes away alternatives that derive the same as an earlier one of the same node. -/
def dedupeEquivalent : Pass where
  name := "dedupe-equivalent"
  run _ root nodes :=
    applyEdits nodes (dedupeEdits nodes (liveNodes nodes root) (.empty nodes.size))

end Pass

end ParseForest
