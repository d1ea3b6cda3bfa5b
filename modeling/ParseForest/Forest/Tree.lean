import ParseForest.Forest.Node
import ParseForest.Grammar.Basic
import ParseForest.Json.Basic
import ParseForest.Token.Stream

/-!
# Parse trees

A parse tree is one derivation read out of a forest. The trees of a node are numbered: the number
picks an alternative at a choice, and within a packed node it is a number in mixed radix with a
digit per child, the first child being the lowest. A packed node over which a walk from the root
comes back to a node it is still in closes a cycle; it is left out, so that the number of trees is
finite.
-/

namespace ParseForest

/-- A parse tree. A rule that derived the empty string has no children. -/
inductive Tree
  | rule (name : String) (id : RuleId) (alternative : Nat) (children : List Tree)
  | token (token : Token)

namespace Tree

mutual

/-- The texts of the tokens, in order. -/
def words : Tree → List String
  | .token t => [t.text]
  | .rule _ _ _ children => wordsOfAll children

/-- The texts of the tokens of several trees. -/
def wordsOfAll : List Tree → List String
  | [] => []
  | t :: ts => t.words ++ wordsOfAll ts

end

/-- The texts of the tokens with blanks between them. -/
def text (t : Tree) : String := " ".intercalate t.words

mutual

/-- The tree in parentheses, its tokens as quoted texts. -/
def toSexpr : Tree → String
  | .token t => Quoted.encode t.text
  | .rule name _ _ children => "(" ++ name ++ sexprTail children

/-- The children in parentheses notation, each after a blank, and the closing parenthesis. -/
def sexprTail : List Tree → String
  | [] => ")"
  | t :: ts => " " ++ t.toSexpr ++ sexprTail ts

end

/-- A position in JSON. -/
def positionJson (p : Position) : Json :=
  .object [("absolute", .nat p.absolute), ("column", .nat p.column.toNat), ("length", .nat p.length),
    ("line", .nat p.line.toNat)]

mutual

/-- The tree in JSON, the members of every object in alphabetical order. -/
def toJson : Tree → Json
  | .token t =>
    .object [("children", .array []), ("label", .object [("Token", .object [
      ("class", .string t.className), ("position", positionJson t.position),
      ("text", .string t.text)])])]
  | .rule name id alternative children =>
    .object [("children", .array (toJsonAll children)), ("label", .object [("Rule", .object [
      ("alternative", .nat alternative), ("name", .string name), ("rule", .nat id)])])]

/-- Several trees in JSON. -/
def toJsonAll : List Tree → List Json
  | [] => []
  | t :: ts => t.toJson :: toJsonAll ts

end

end Tree

/-! ## Counting -/

/-- Tree counts stop at this number. -/
def countLimit : Nat := 0xffffffffffffffff

/-- A count, at most the limit. -/
def capped (n : Nat) : Nat := min n countLimit

/-- How far the survey of a node has come. -/
inductive Mark
  | fresh
  | entered
  | finished
deriving DecidableEq

/-- The number of trees per node, and which packed nodes are left out because they close a cycle. -/
structure TreeIndex where
  marks : Array Mark
  counts : Array Nat
  cyclic : Array Bool

namespace TreeIndex

/-- Nothing is known of any of `n` nodes. -/
def empty (n : Nat) : TreeIndex :=
  ⟨Array.replicate n .fresh, Array.replicate n 0, Array.replicate n false⟩

variable (index : TreeIndex)

/-- Number of trees of a node. -/
def count (id : NodeId) : Nat := index.counts.getD id 0

/-- Whether a packed node is left out. -/
def isCyclic (id : NodeId) : Bool := index.cyclic.getD id false

/-- The product of counts, at most the limit. -/
def cappedProduct (counts : List Nat) : Nat := counts.foldl (fun acc n => capped (acc * n)) 1

/-- The sum of counts, at most the limit. -/
def cappedSum (counts : List Nat) : Nat := counts.foldl (fun acc n => capped (acc + n)) 0

/-- The number of trees of a node whose children have been counted. -/
def countOf (nodes : Arena) (id : NodeId) : Nat :=
  let n := Arena.node nodes id
  let children := n.children.toList
  match n.kind with
  | .symbol _ => cappedSum ((children.filter (!index.isCyclic ·)).map index.count)
  | .intermediate _ _ _ => cappedSum ((children.filter (!index.isCyclic ·)).map index.count)
  | .packed _ _ => if index.isCyclic id then 0 else cappedProduct (children.map index.count)
  | .nulled _ _ _ => cappedProduct (children.map index.count)
  | .terminal _ => 1
  | .epsilon => 1

/-- Notes that the survey enters a node. -/
def enter (id : NodeId) : TreeIndex :=
  { index with marks := index.marks.setIfInBounds id .entered }

/-- Notes that the children of a node have been surveyed, and counts it. -/
def leave (nodes : Arena) (id : NodeId) : TreeIndex :=
  let n := index.countOf nodes id
  { index with
    marks := index.marks.setIfInBounds id .finished, counts := index.counts.setIfInBounds id n }

/-- Leaves out the innermost packed node of a path, if there is one. -/
def leaveOut (innermost : Option NodeId) : TreeIndex :=
  match innermost with
  | none => index
  | some packed => { index with cyclic := index.cyclic.setIfInBounds packed true }

/-- Surveys a node and what can be reached from it, depth first. `innermost` is the last packed node
on the path from the root. -/
def survey (nodes : Arena) : Nat → Option NodeId → NodeId → TreeIndex → TreeIndex
  | 0, _, _, index => index
  | fuel + 1, innermost, id, index =>
    let innermost := if (Arena.node nodes id).isPacked then some id else innermost
    let index := (Arena.childrenOf nodes id).foldl
      (fun index child =>
        match index.marks.getD child .finished with
        | .fresh => survey nodes fuel innermost child index
        | .entered => index.leaveOut innermost
        | .finished => index)
      (index.enter id)
    index.leave nodes id

/-- Surveys what can be reached from the root. A path holds each node at most once. -/
def ofArena (nodes : Arena) (root : NodeId) : TreeIndex :=
  survey nodes (nodes.size + 1) none root (empty nodes.size)

/-! ## Reading trees -/

/-- The alternative that tree number `i` of a choice falls into, and its number there. -/
def chooseAmong (i : Nat) : List NodeId → Option (NodeId × Nat)
  | [] => none
  | packed :: rest =>
    if index.isCyclic packed then chooseAmong i rest
    else if i < index.count packed then some (packed, i)
    else chooseAmong (i - index.count packed) rest

/-- The alternative of a choice that tree number `i` falls into. -/
def choose (nodes : Arena) (id : NodeId) (i : Nat) : Option (NodeId × Nat) :=
  index.chooseAmong i (Arena.childrenOf nodes id)

/-- Cuts tree number `i` of a list of children into a number per child. -/
def digits (i : Nat) : List NodeId → List (NodeId × Nat)
  | [] => []
  | child :: rest =>
    let radix := max (index.count child) 1
    (child, i % radix) :: digits (i / radix) rest

/-- The symbols of tree number `i` of a packed node, each with its own number, as deep as the fuel
goes. -/
def elements (nodes : Arena) : Nat → NodeId → Nat → Option (List (NodeId × Nat))
  | 0, _, _ => none
  | fuel + 1, packed, i => do
    let parts ← (index.digits i (Arena.childrenOf nodes packed)).mapM fun (child, own) =>
      match (Arena.node nodes child).kind with
      | .intermediate _ _ _ => do
        let (inner, i) ← index.choose nodes child own
        elements nodes fuel inner i
      | .nulled _ _ _ => elements nodes fuel child own
      | .epsilon => some []
      | _ => some [(child, own)]
    some parts.flatten

/-- Tree number `i` of a node, as deep as the fuel goes. -/
def treeFrom (nodes : Arena) (g : Grammar) (tokens : TokenStream) : Nat → NodeId → Nat → Option Tree
  | 0, _, _ => none
  | fuel + 1, id, i =>
    match (Arena.node nodes id).kind with
    | .terminal token => (tokens.get? token).map Tree.token
    | .symbol rule => do
      let (packed, inner) ← index.choose nodes id i
      match (Arena.node nodes packed).kind with
      | .packed _ alt =>
        let elements ← index.elements nodes (nodes.size + 1) packed inner
        let children ← elements.mapM fun (id, i) => treeFrom nodes g tokens fuel id i
        some (.rule (g.rule rule).name rule alt children)
      | _ => none
    | _ => none

end TreeIndex

end ParseForest
