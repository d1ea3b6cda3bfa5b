/-!
# Reachability

The nodes that can be reached in a directed graph on the numbers below `n`, by a walk that keeps the
nodes still to be visited on a list.
-/

namespace ParseForest

theorem count_false_set_lt {marks : Array Bool} {i : Nat} (h : i < marks.size)
    (hm : marks[i] = false) : (marks.set i true).count false < marks.count false := by
  have pos : 0 < marks.count false := Array.count_pos_iff.2 (hm ▸ Array.getElem_mem h)
  rw [Array.count_set, hm]
  change marks.count false - 1 + 0 < marks.count false
  omega

/-- Marks what can be reached from the pending nodes over unmarked ones. Each step marks a node or
shortens the list. -/
def visitAll (next : Nat → List Nat) (pending : List Nat) (seen : Array Bool) : Array Bool :=
  match pending with
  | [] => seen
  | i :: rest =>
    if h : i < seen.size then
      if hs : seen[i] then visitAll next rest seen
      else visitAll next (next i ++ rest) (seen.set i true)
    else visitAll next rest seen
termination_by (seen.count false, pending.length)
decreasing_by
  · exact Prod.Lex.right _ (by simp)
  · exact Prod.Lex.left _ _ (count_false_set_lt h (by simpa using hs))
  · exact Prod.Lex.right _ (by simp)

/-- For each of `n` nodes, whether it can be reached from `start`. -/
def reachableFrom (n : Nat) (next : Nat → List Nat) (start : Nat) : Array Bool :=
  visitAll next [start] (Array.replicate n false)

end ParseForest
