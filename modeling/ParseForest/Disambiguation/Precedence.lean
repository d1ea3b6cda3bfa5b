import ParseForest.Forest.Sequence
import ParseForest.Grammar.Basic

/-!
# Operator precedence

An alternative headed by an operator has operands directly before and after the operator. It is
turned down when in each of its right-hand sides an operand is itself an operator expression that
binds looser, or equally on the side that the associativity forbids. Only an operand that is open
towards the operator can be regrouped, so no other one conflicts; and it conflicts only if all its
derivations do.
-/

namespace ParseForest

/-- The sides of an operator. -/
inductive Side
  | left
  | right
deriving DecidableEq

namespace Operator

/-- Whether there is an operand before the operator. -/
def hasLeft (op : Operator) : Bool := 0 < op.index

/-- Whether there is an operand after the operator, in an alternative of the given length. -/
def hasRight (op : Operator) (length : Nat) : Bool := op.index + 1 < length

/-- Whether an operator expression of the given length is open towards an operator of which it is
the operand on the given side. -/
def faces (op : Operator) (length : Nat) : Side → Bool
  | .left => op.hasRight length
  | .right => op.hasLeft

/-- Whether equal precedence is forbidden on a side. -/
def forbidsEqual (op : Operator) (side : Side) : Bool :=
  match side, op.associativity with
  | _, .none => true
  | .left, .right => true
  | .right, .left => true
  | _, _ => false

/-- Whether an operand headed by `inner` binds too loosely on a side of `outer`. -/
def tooLoose (outer inner : Operator) (side : Side) : Bool :=
  inner.precedence < outer.precedence
    || (inner.precedence == outer.precedence && outer.forbidsEqual side)

end Operator

namespace Arena

variable (g : Grammar) (nodes : Arena)

/-- The alternatives that the packed children of a node use. -/
def packedAlternatives (id : NodeId) : List Nat :=
  (childrenOf nodes id).filterMap fun packed =>
    match (node nodes packed).kind with
    | .packed _ alt => some alt
    | _ => none

/-- Whether an operand headed by this alternative conflicts with an operator. -/
def alternativeConflicts (outer : Operator) (side : Side) (a : Alternative) : Bool :=
  match a.operator with
  | none => false
  | some inner => inner.faces a.length side && outer.tooLoose inner side

/-- Whether an operand conflicts with an operator: it is a symbol node with derivations, all of
which do. -/
def operandConflicts (outer : Operator) (side : Side) (operand : NodeId) : Bool :=
  match (node nodes operand).kind with
  | .symbol rule =>
    let alternatives := packedAlternatives nodes operand
    !alternatives.isEmpty
      && alternatives.all fun alt => alternativeConflicts outer side (g.alternative rule alt)
  | _ => false

/-- The operands of an operator in a right-hand side, with their sides. -/
def operands (op : Operator) (length : Nat) (s : Sequence) : List (Side × NodeId) :=
  (if op.hasLeft then (s[op.index - 1]?).toList.map (Side.left, ·) else [])
    ++ (if op.hasRight length then (s[op.index + 1]?).toList.map (Side.right, ·) else [])

/-- True when the alternative is headed by an operator of which some operand is not `settled`. -/
def operandPending (settled : NodeId → Bool) (a : Alternative) (sequences : List Sequence) : Bool :=
  match a.operator with
  | none => false
  | some op => sequences.any fun s => (operands op a.length s).any fun (_, id) => !settled id

/-- The precedence check of an alternative with the given right-hand sides. Operands that are not
`settled` do not count. -/
def precedenceAllows (settled : NodeId → Bool) (a : Alternative) (sequences : List Sequence) : Bool :=
  match a.operator with
  | none => true
  | some op =>
    sequences.isEmpty || sequences.any fun s =>
      (operands op a.length s).all fun (side, id) =>
        !(settled id && operandConflicts g nodes op side id)

end Arena

end ParseForest
