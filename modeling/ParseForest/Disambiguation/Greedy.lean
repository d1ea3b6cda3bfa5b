import ParseForest.Forest.Sequence
import ParseForest.Grammar.Basic

/-!
# Greedy repetition

Of two right-hand sides, the one is greedier whose node is wider at the first place where they
differ, provided that the nodes there are of the same nullable list or optional rule.
-/

namespace ParseForest

namespace Arena

variable (g : Grammar) (nodes : Arena)

/-- Whether the first node takes a longer match of the same nullable repetition than the second. -/
def wider (x y : NodeId) : Bool :=
  match (node nodes x).kind, (node nodes y).kind with
  | .symbol rx, .symbol ry =>
    rx == ry && (g.rule rx).kind.isRepetition && (g.rule rx).nullable
      && (node nodes y).width < (node nodes x).width
  | _, _ => false

/-- Whether the first right-hand side is greedier than the second. -/
def greedier : Sequence → Sequence → Bool
  | x :: xs, y :: ys => if x = y then greedier xs ys else wider g nodes x y
  | _, _ => false

/-- Whether none of the existing alternatives is greedier than a candidate. Of each, the first
right-hand side counts. -/
def greedyAllows (candidate : List Sequence) (existing : List NodeId) : Bool :=
  match candidate with
  | [] => true
  | mine :: _ =>
    existing.all fun packed =>
      match sequences nodes 1 packed with
      | [] => true
      | theirs :: _ => !greedier g nodes theirs mine

end Arena

end ParseForest
