import ParseForest.Automaton.Lookahead

/-!
# Propagation of lookahead sets

The `digraph` traversal of DeRemer and Pennello. It finds the least sets that contain the given ones
and grow along a relation: the set of a node contains the sets of all nodes that it is related to.
One traversal in depth is enough, which keeps the calls under way on a list. Nodes that lead to each
other stay on a stack until the lowest of them is left, and then they all get its set.
-/

namespace ParseForest

/-- How far a node has come. -/
inductive Progress
  | fresh
  /-- On the stack; it leads to the node at height `low` -/
  | active (low : Nat)
  | done
deriving DecidableEq

/-- An active node leads wherever another active one leads that it leads to. -/
def Progress.lower : Progress → Progress → Progress
  | active a, active b => active (min a b)
  | p, _ => p

/-- A call: its node, the height of the stack with the node on top, and the neighbours that have not
been looked at. -/
structure Frame where
  node : Nat
  height : Nat
  rest : List Nat

/-- The state of a traversal. Stack and calls have the latest first. -/
structure Traversal where
  sets : Array LookaheadSet
  progress : Array Progress
  stack : List Nat
  calls : List Frame

namespace Traversal

/-- How far a node has come; what is no node is done. -/
def state (t : Traversal) (x : Nat) : Progress := t.progress.getD x .done

/-- Puts a node on the stack and calls it. -/
def enter (relation : Array (List Nat)) (x : Nat) (t : Traversal) : Traversal :=
  { t with
    progress := t.progress.setIfInBounds x (.active (t.stack.length + 1))
    stack := x :: t.stack
    calls := ⟨x, t.stack.length + 1, relation.getD x []⟩ :: t.calls }

/-- Adds to a node what a neighbour has and where it leads. -/
def absorb (x y : Nat) (t : Traversal) : Traversal :=
  { t with
    progress := t.progress.setIfInBounds x ((t.state x).lower (t.state y))
    sets := if x = y then t.sets
      else t.sets.setIfInBounds x ((t.sets.getD x default).union (t.sets.getD y default)) }

/-- Takes the nodes of the stack down to `x` from it; they are done and have the set of `x`. -/
def popTo (x : Nat) : (stack : List Nat) → Traversal → Traversal
  | [], t => t
  | top :: stack, t =>
    let t := { t with stack, progress := t.progress.setIfInBounds top .done }
    if top = x then t
    else popTo x stack { t with sets := t.sets.setIfInBounds top (t.sets.getD x default) }

/-- Ends the call of `x`, which had the given height. -/
def leave (x height : Nat) (t : Traversal) : Traversal :=
  if t.state x = .active height then t.popTo x t.stack else t

/-- Looks at the next neighbour in the latest call, or ends the call if there is none. -/
def step (relation : Array (List Nat)) (t : Traversal) : Traversal :=
  match t.calls with
  | [] => t
  | ⟨x, height, y :: rest⟩ :: calls =>
    let t := { t with calls := ⟨x, height, rest⟩ :: calls }
    if t.state y = .fresh then t.enter relation y else t.absorb x y
  | ⟨x, height, []⟩ :: calls =>
    let t := { t with calls }.leave x height
    match calls with
    | [] => t
    | caller :: _ => t.absorb caller.node x

/-! ## Termination -/

/-- Number of neighbours and of ends of calls that are ahead. -/
def work : List Frame → Nat
  | [] => 0
  | f :: calls => f.rest.length + 1 + work calls

/-- Number of nodes that have not been entered. -/
def freshCount (t : Traversal) : Nat := t.progress.count .fresh

theorem count_fresh_set {progress : Array Progress} {x : Nat} (p : Progress)
    (hx : progress.getD x .done = .fresh) :
    (progress.setIfInBounds x p).count .fresh + 1 =
      progress.count .fresh + if p = .fresh then 1 else 0 := by
  have hlt : x < progress.size := by
    refine Decidable.byContradiction fun h => ?_
    rw [Array.getD, dif_neg h] at hx
    cases hx
  have hget : progress[x] = .fresh := by rwa [Array.getD, dif_pos hlt] at hx
  have hpos : 0 < progress.count .fresh := Array.count_pos_iff.2 (hget ▸ Array.getElem_mem hlt)
  rw [Array.setIfInBounds, dif_pos hlt, Array.count_set, hget]
  change progress.count .fresh - 1 + (if (p == .fresh) = true then 1 else 0) + 1 = _
  simp only [beq_iff_eq]
  omega

theorem count_fresh_set_le {progress : Array Progress} {x : Nat} {p : Progress}
    (h : p = .fresh → progress.getD x .done = .fresh) :
    (progress.setIfInBounds x p).count .fresh ≤ progress.count .fresh := by
  by_cases hp : p = .fresh
  · have hcount := count_fresh_set p (h hp)
    rw [if_pos hp] at hcount
    omega
  · have hne : ¬(p == .fresh) = true := by rwa [beq_iff_eq]
    by_cases hx : x < progress.size
    · rw [Array.setIfInBounds, dif_pos hx, Array.count_set, if_neg hne]
      exact Nat.sub_le _ _
    · exact Nat.le_of_eq (by rw [Array.setIfInBounds, dif_neg hx])

theorem freshCount_enter {relation : Array (List Nat)} {t : Traversal} {x : Nat}
    (h : t.state x = .fresh) : (t.enter relation x).freshCount < t.freshCount := by
  have hcount := count_fresh_set (.active (t.stack.length + 1)) h
  rw [if_neg nofun] at hcount
  exact Nat.lt_of_succ_le (Nat.le_of_eq hcount)

theorem freshCount_absorb (t : Traversal) (x y : Nat) :
    (t.absorb x y).freshCount ≤ t.freshCount := by
  refine count_fresh_set_le fun h => ?_
  change t.state x = .fresh
  revert h
  cases t.state x <;> cases t.state y <;> simp [Progress.lower]

theorem freshCount_popTo (x : Nat) (stack : List Nat) (t : Traversal) :
    (popTo x stack t).freshCount ≤ t.freshCount ∧ (popTo x stack t).calls = t.calls := by
  induction stack generalizing t with
  | nil => exact ⟨Nat.le_refl _, rfl⟩
  | cons top stack ih =>
    have hset : (t.progress.setIfInBounds top .done).count .fresh ≤ t.progress.count .fresh :=
      count_fresh_set_le fun h => nomatch h
    simp only [popTo]
    split
    · exact ⟨hset, rfl⟩
    · obtain ⟨hcount, hcalls⟩ := ih { t with
        stack
        progress := t.progress.setIfInBounds top .done
        sets := t.sets.setIfInBounds top (t.sets.getD x default) }
      exact ⟨Nat.le_trans hcount hset, hcalls⟩

theorem freshCount_leave (x height : Nat) (t : Traversal) :
    (t.leave x height).freshCount ≤ t.freshCount ∧ (t.leave x height).calls = t.calls := by
  unfold leave
  split
  · exact freshCount_popTo x t.stack t
  · exact ⟨Nat.le_refl _, rfl⟩

/-- A step enters a node, or leaves the fresh ones alone and has less ahead of it. -/
theorem step_lt (relation : Array (List Nat)) {t : Traversal} (h : t.calls ≠ []) :
    (t.step relation).freshCount < t.freshCount ∨
      (t.step relation).freshCount ≤ t.freshCount ∧ work (t.step relation).calls < work t.calls := by
  obtain ⟨sets, progress, stack, calls⟩ := t
  match calls with
  | [] => exact absurd rfl h
  | ⟨x, height, y :: rest⟩ :: calls =>
    simp only [step]
    split
    · rename_i hy
      exact .inl (freshCount_enter hy)
    · exact .inr ⟨freshCount_absorb _ x y, by simp [work, absorb]⟩
  | ⟨x, height, []⟩ :: calls =>
    obtain ⟨hcount, hcalls⟩ := freshCount_leave x height ⟨sets, progress, stack, calls⟩
    refine .inr ?_
    match calls with
    | [] =>
      simp only [step]
      exact ⟨hcount, by simp [work, hcalls]⟩
    | caller :: calls =>
      simp only [step]
      refine ⟨Nat.le_trans (freshCount_absorb _ _ _) hcount, ?_⟩
      simp [work, absorb, hcalls]

/-- Takes steps until no call is under way. -/
def run (relation : Array (List Nat)) (t : Traversal) : Traversal :=
  if t.calls = [] then t else run relation (t.step relation)
termination_by (t.freshCount, work t.calls)
decreasing_by
  rename_i h
  rcases step_lt relation h with hlt | ⟨hle, hlt⟩
  · exact Prod.Lex.left _ _ hlt
  · rcases Nat.lt_or_eq_of_le hle with hlt' | heq
    · exact Prod.Lex.left _ _ hlt'
    · rw [heq]
      exact Prod.Lex.right _ hlt

/-- Enters a node, unless that has been done, and goes on until it is left. -/
def visit (relation : Array (List Nat)) (t : Traversal) (x : Nat) : Traversal :=
  if t.state x = .fresh then run relation (t.enter relation x) else t

end Traversal

/-- The least sets above the given ones that grow along the relation: one traversal from each node. -/
def propagate (relation : Array (List Nat)) (sets : Array LookaheadSet) : Array LookaheadSet :=
  ((List.range relation.size).foldl (Traversal.visit relation)
    ⟨sets, Array.replicate relation.size .fresh, [], []⟩).sets

end ParseForest
