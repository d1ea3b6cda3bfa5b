import ParseForest.Forest.Pass.Basic

/-!
# Pruning

A packed node is dead when one of its children is a choice without live alternatives. Pruning takes
dead packed nodes from the choices that own them.

Each choice keeps count of the alternatives that are left to it. A choice that has none left kills the
packed nodes that use it, and these are taken off the counts of their owners.
-/

namespace ParseForest

namespace Pass

/-- What pruning notes of the nodes that can be reached: the packed nodes that use a choice, the choices
that own a packed node, how many alternatives a choice has, and the choices that have none, the latest
first. -/
structure Ledger where
  users : Array (Array NodeId)
  owners : Array (Array NodeId)
  remaining : Array Nat
  dying : List NodeId

namespace Ledger

/-- Nothing is noted of any of `n` nodes. -/
def blank (n : Nat) : Ledger := ⟨.replicate n #[], .replicate n #[], .replicate n 0, []⟩

/-- The packed nodes that use choices, after the packed node `id` has been noted. A child that stands
twice in it is noted once. -/
def noteUser (nodes : Arena) (users : Array (Array NodeId)) (id child : NodeId) : Array (Array NodeId) :=
  if (Arena.node nodes child).isChoice && (users.getD child #[]).back? != some id then
    users.modify child (·.push id)
  else users

/-- Notes a node. -/
def note (nodes : Arena) (l : Ledger) (n : Node × NodeId) : Ledger :=
  if n.1.isChoice then
    { l with
      owners := n.1.children.foldl (fun owners p => owners.modify p (·.push n.2)) l.owners
      remaining := l.remaining.setIfInBounds n.2 n.1.children.size
      dying := if n.1.children.isEmpty then n.2 :: l.dying else l.dying }
  else if n.1.isPacked then
    { l with users := n.1.children.foldl (fun users child => noteUser nodes users n.2 child) l.users }
  else l

/-- What is noted of the nodes that can be reached. -/
def ofNodes (nodes : Arena) (root : NodeId) : Ledger :=
  (liveNodes nodes root).foldl (note nodes) (blank nodes.size)

end Ledger

/-- The dead packed nodes that are known, how many alternatives are left to each choice, and the choices
that have none left but have not killed their users yet, the latest first. -/
structure Cascade where
  dead : Array Bool
  remaining : Array Nat
  dying : List NodeId

namespace Cascade

/-- An owner loses an alternative. -/
def release (s : Cascade) (owner : NodeId) : Cascade :=
  let left := s.remaining.getD owner 0 - 1
  { s with
    remaining := s.remaining.setIfInBounds owner left
    dying := if left = 0 then owner :: s.dying else s.dying }

/-- A packed node dies, unless it is dead already. -/
def kill (owners : Array (Array NodeId)) (s : Cascade) (p : NodeId) : Cascade :=
  if s.dead[p]? = some false then
    (owners.getD p #[]).foldl release { s with dead := s.dead.setIfInBounds p true }
  else s

theorem dead_foldl_release (os : List NodeId) (s : Cascade) : (os.foldl release s).dead = s.dead := by
  induction os generalizing s with
  | nil => rfl
  | cons o os ih => exact ih _

theorem count_false_kill_lt (owners : Array (Array NodeId)) (s : Cascade) (p : NodeId) :
    kill owners s p = s ∨ (kill owners s p).dead.count false < s.dead.count false := by
  rw [kill]
  split
  · rename_i hp
    obtain ⟨hlt, hp⟩ := Array.getElem?_eq_some_iff.1 hp
    rw [← Array.foldl_toList, dead_foldl_release, Array.setIfInBounds_def, dif_pos hlt]
    exact .inr (count_false_set_lt hlt hp)
  · exact .inl rfl

theorem count_false_foldl_kill_lt (owners : Array (Array NodeId)) (ps : List NodeId) (s : Cascade) :
    ps.foldl (kill owners) s = s ∨ (ps.foldl (kill owners) s).dead.count false < s.dead.count false := by
  induction ps generalizing s with
  | nil => exact .inl rfl
  | cons p ps ih =>
    rw [List.foldl_cons]
    rcases ih (kill owners s p) with he | hlt
    · rw [he]
      exact count_false_kill_lt owners s p
    · refine .inr (Nat.lt_of_lt_of_le hlt ?_)
      rcases count_false_kill_lt owners s p with he | hlt'
      · exact Nat.le_of_eq (by rw [he])
      · exact Nat.le_of_lt hlt'

/-- The dead packed nodes, after the choices that have no alternatives left have killed their users. Each
step kills a packed node or leaves fewer choices to deal with. -/
def run (users owners : Array (Array NodeId)) (s : Cascade) : Array Bool :=
  match _h : s.dying with
  | [] => s.dead
  | c :: dying => run users owners ((users.getD c #[]).foldl (kill owners) { s with dying })
termination_by (s.dead.count false, s.dying.length)
decreasing_by
  rw [← Array.foldl_toList]
  rcases count_false_foldl_kill_lt owners (users.getD c #[]).toList { s with dying } with he | hlt
  · rw [he]
    exact Prod.Lex.right _ (by simp [_h])
  · exact Prod.Lex.left _ _ hlt

end Cascade

/-- The dead packed nodes. -/
def deadNodes (nodes : Arena) (root : NodeId) : Array Bool :=
  let l := Ledger.ofNodes nodes root
  Cascade.run l.users l.owners ⟨.replicate nodes.size false, l.remaining, l.dying⟩

/-- The choices that own dead packed nodes, with the alternatives that are left to them. -/
def pruneEdits (nodes : Arena) (root : NodeId) : List (NodeId × Array NodeId) :=
  let dead := deadNodes nodes root
  (liveNodes nodes root).filterMap fun (n, id) =>
    if n.isChoice && n.children.any (fun p => dead.getD p false) then
      some (id, n.children.filter fun p => !dead.getD p false)
    else none

/-- Takes away alternatives that refer to a choice without alternatives, and whatever dies with
them. -/
def pruneDead : Pass where
  name := "prune-dead"
  run _ root nodes := applyEdits nodes (pruneEdits nodes root)

end Pass

end ParseForest
