import ParseForest.Proofs.Forest.Passes
import ParseForest.Proofs.Grammar.Nullable

/-!
# What pruning kills

A packed node is dead if one of its children is a choice of which all alternatives are dead
(`Pass.isDead`). The walk over dying choices marks the least set of packed nodes for which this is so
(`Pass.deadNodes_eq`).

While the walk goes on, the count of a choice is that of its alternatives that are not known to be dead,
and a choice of which all alternatives are known to be dead either waits to kill its users or has killed
them (`Pass.Cascade.Keeps`).
-/

namespace ParseForest

/-! ## Reachability -/

/-- What is marked when a walk ends is closed, and holds what was pending. -/
theorem visitAll_closed (next : Nat → List Nat) (pending : List Nat) (seen : Array Bool)
    (h : ∀ i, seen.getD i false = true → ∀ j ∈ next i, j < seen.size →
      seen.getD j false = true ∨ j ∈ pending) :
    (∀ i ∈ pending, i < seen.size → (visitAll next pending seen).getD i false = true) ∧
    (∀ i, seen.getD i false = true → (visitAll next pending seen).getD i false = true) ∧
    ∀ i, (visitAll next pending seen).getD i false = true → ∀ j ∈ next i, j < seen.size →
      (visitAll next pending seen).getD j false = true := by
  fun_induction visitAll next pending seen with
  | case1 seen =>
    refine ⟨by simp, fun _ hi => hi, fun i hi j hj hlt => ?_⟩
    exact (h i hi j hj hlt).resolve_right (by simp)
  | case2 seen i rest hi hs ih =>
    have hmark : seen.getD i false = true := by simpa [Array.getD, hi] using hs
    obtain ⟨hp, hkeep, hclosed⟩ := ih fun k hk j hj hlt => by
      rcases h k hk j hj hlt with hm | hm
      · exact .inl hm
      · rcases List.mem_cons.1 hm with rfl | hm
        · exact .inl hmark
        · exact .inr hm
    refine ⟨fun k hk hlt => ?_, hkeep, hclosed⟩
    rcases List.mem_cons.1 hk with rfl | hk
    · exact hkeep k hmark
    · exact hp k hk hlt
  | case3 seen i rest hi hs ih =>
    have hset : ∀ k, (seen.set i true hi).getD k false = true ↔ k = i ∨ seen.getD k false = true := by
      intro k
      by_cases hk : i = k
      · subst hk
        simp [Array.getD, hi]
      · simp [Array.getD_eq_getD_getElem?, hk, Ne.symm hk]
    simp only [Array.size_set] at ih
    obtain ⟨hp, hkeep, hclosed⟩ := ih fun k hk j hj hlt => by
      rcases (hset k).1 hk with rfl | hk
      · exact .inr (List.mem_append_left _ hj)
      · rcases h k hk j hj hlt with hm | hm
        · exact .inl ((hset j).2 (.inr hm))
        · rcases List.mem_cons.1 hm with rfl | hm
          · exact .inl ((hset j).2 (.inl rfl))
          · exact .inr (List.mem_append_right _ hm)
    refine ⟨fun k hk hlt => ?_, fun k hk => hkeep k ((hset k).2 (.inr hk)), hclosed⟩
    rcases List.mem_cons.1 hk with rfl | hk
    · exact hkeep k ((hset k).2 (.inl rfl))
    · exact hp k (List.mem_append_right _ hk) hlt
  | case4 seen i rest hi ih =>
    obtain ⟨hp, hkeep, hclosed⟩ := ih fun k hk j hj hlt => by
      rcases h k hk j hj hlt with hm | hm
      · exact .inl hm
      · rcases List.mem_cons.1 hm with rfl | hm
        · exact absurd hlt hi
        · exact .inr hm
    refine ⟨fun k hk hlt => ?_, hkeep, hclosed⟩
    rcases List.mem_cons.1 hk with rfl | hk
    · exact absurd hlt hi
    · exact hp k hk hlt

namespace Arena

variable {nodes : Arena} {root : NodeId}

private theorem live_closed : (root < nodes.size → (live nodes root).getD root false = true) ∧
    ∀ id, (live nodes root).getD id false = true → ∀ c ∈ childrenOf nodes id, c < nodes.size →
      (live nodes root).getD c false = true := by
  obtain ⟨hp, -, hclosed⟩ := visitAll_closed (childrenOf nodes) [root]
    (Array.replicate nodes.size false) fun i hi => by
      simp [Array.getD_eq_getD_getElem?, Array.getElem?_replicate] at hi
      split at hi <;> simp at hi
  simp only [Array.size_replicate] at hp hclosed
  exact ⟨hp root (.head _), hclosed⟩

/-- The root can be reached. -/
theorem live_root (h : root < nodes.size) : (live nodes root).getD root false = true := live_closed.1 h

/-- What can be reached passes it on to its children. -/
theorem live_child {id c : NodeId} (h : (live nodes root).getD id false = true)
    (hc : c ∈ childrenOf nodes id) (hlt : c < nodes.size) :
    (live nodes root).getD c false = true := live_closed.2 id h c hc hlt

end Arena

namespace Pass

open Arena

variable {nodes : Arena} {root : NodeId}

theorem nodup_liveNodes : ((liveNodes nodes root).map Prod.snd).Nodup := by
  rw [liveNodes, Array.zipIdx_toList nodes default]
  have hsub := List.filter_sublist (p := fun x : Node × NodeId => (live nodes root).getD x.2 false)
    (l := (List.range nodes.size).map fun i => (nodes.getD i default, i))
  refine (hsub.map Prod.snd).nodup ?_
  rw [List.map_map]
  exact (List.nodup_range (n := nodes.size)).map fun _ _ h => h

/-- Whether a packed node is dead, given dead packed nodes. -/
def isDead (nodes : Arena) (live dead : Array Bool) (id : NodeId) : Bool :=
  let n := node nodes id
  live.getD id false && n.isPacked && n.children.any fun child =>
    (node nodes child).isChoice && (node nodes child).children.all fun p => dead.getD p false

/-- What is dead stays dead when more is. -/
theorem isDead_mono {live dead dead' : Array Bool} {id : NodeId}
    (h : ∀ p, dead.getD p false = true → dead'.getD p false = true) (hd : isDead nodes live dead id = true) :
    isDead nodes live dead' id = true := by
  simp only [isDead, Bool.and_eq_true, Array.any_eq_true', Array.all_eq_true_iff_forall_mem] at hd ⊢
  obtain ⟨hp, child, hc, hchoice, hall⟩ := hd
  exact ⟨hp, child, hc, hchoice, fun p hp => h p (hall p hp)⟩

/-! ## What is noted of the nodes that can be reached -/

namespace Ledger

theorem getD_modify_push (rows : Array (Array NodeId)) {i j : NodeId} (hi : i < rows.size) (id : NodeId) :
    (rows.modify j (·.push id)).getD i #[] =
      if j = i then (rows.getD i #[]).push id else rows.getD i #[] := by
  simp only [Array.getD_eq_getD_getElem?, Array.getElem?_modify]
  split
  · rename_i h
    subst h
    simp [hi]
  · rfl

theorem size_noteUser (nodes : Arena) (users : Array (Array NodeId)) (id child : NodeId) :
    (noteUser nodes users id child).size = users.size := by
  rw [noteUser]
  split
  · exact Array.size_modify ..
  · rfl

/-- A packed node is noted for the choices among its children. -/
theorem mem_noteUser_iff {users : Array (Array NodeId)} {id child c p : NodeId} (hc : c < users.size) :
    p ∈ (noteUser nodes users id child).getD c #[] ↔ p ∈ users.getD c #[] ∨
      (p = id ∧ c = child ∧ (node nodes c).isChoice = true) := by
  by_cases h : ((node nodes child).isChoice && (users.getD child #[]).back? != some id) = true
  · obtain ⟨hchoice, -⟩ := Bool.and_eq_true_iff.1 h
    rw [noteUser, if_pos h, getD_modify_push users hc]
    by_cases he : child = c
    · subst he
      simp [hchoice]
    · simp [he, Ne.symm he]
  · rw [noteUser, if_neg h]
    refine ⟨.inl, ?_⟩
    rintro (hp | ⟨rfl, rfl, hchoice⟩)
    · exact hp
    · -- it has been noted last
      simp only [hchoice, Bool.true_and, bne_iff_ne, ne_eq, not_not] at h
      exact Array.mem_of_back? h

theorem mem_foldl_noteUser_iff (children : List NodeId) {users : Array (Array NodeId)} {id c p : NodeId}
    (hc : c < users.size) :
    p ∈ (children.foldl (fun users child => noteUser nodes users id child) users).getD c #[] ↔
      p ∈ users.getD c #[] ∨ (p = id ∧ c ∈ children ∧ (node nodes c).isChoice = true) := by
  induction children generalizing users with
  | nil => simp
  | cons child children ih =>
    rw [List.foldl_cons, ih (by rwa [size_noteUser]), mem_noteUser_iff hc, List.mem_cons]
    tauto

theorem size_foldl_noteUser (children : List NodeId) (users : Array (Array NodeId)) (id : NodeId) :
    (children.foldl (fun users child => noteUser nodes users id child) users).size = users.size :=
  List.foldlRecOn (motive := fun (current : Array (Array NodeId)) => current.size = users.size) children _ rfl
    fun _ h _ _ => (size_noteUser ..).trans h

/-- A choice is noted for each place that a packed node has among its children. -/
theorem count_foldl_modify (children : List NodeId) {owners : Array (Array NodeId)} {id p o : NodeId}
    (hp : p < owners.size) :
    ((children.foldl (fun owners p => owners.modify p (·.push id)) owners).getD p #[]).count o =
      (owners.getD p #[]).count o + if o = id then children.count p else 0 := by
  induction children generalizing owners with
  | nil => simp
  | cons q children ih =>
    rw [List.foldl_cons, ih (by rwa [Array.size_modify]), getD_modify_push owners hp, List.count_cons]
    by_cases hq : q = p
    · rw [if_pos hq, Array.count_push, beq_iff_eq.2 hq, if_pos rfl]
      by_cases ho : o = id
      · rw [ho, beq_self_eq_true, if_pos rfl, if_pos rfl, if_pos rfl]
        omega
      · rw [if_neg ho, if_neg ho, if_neg (by simpa using Ne.symm ho)]
    · rw [if_neg hq, beq_eq_false_iff_ne.2 hq, if_neg Bool.false_ne_true, Nat.add_zero]

theorem size_foldl_modify (children : List NodeId) (owners : Array (Array NodeId)) (id : NodeId) :
    (children.foldl (fun owners p => owners.modify p (·.push id)) owners).size = owners.size :=
  List.foldlRecOn (motive := fun (current : Array (Array NodeId)) => current.size = owners.size) children _ rfl
    fun _ h _ _ => Array.size_modify.trans h

/-- These nodes have been noted, and no others. -/
structure Notes (nodes : Arena) (seen : List NodeId) (l : Ledger) : Prop where
  users_size : l.users.size = nodes.size
  owners_size : l.owners.size = nodes.size
  remaining_size : l.remaining.size = nodes.size
  users : ∀ c < nodes.size, ∀ p, p ∈ l.users.getD c #[] ↔
    p ∈ seen ∧ (node nodes p).isPacked = true ∧ c ∈ childrenOf nodes p ∧ (node nodes c).isChoice = true
  owners : ∀ p < nodes.size, ∀ o, (l.owners.getD p #[]).count o =
    if o ∈ seen ∧ (node nodes o).isChoice = true then (childrenOf nodes o).count p else 0
  remaining : ∀ o ∈ seen, (node nodes o).isChoice = true →
    l.remaining.getD o 0 = (childrenOf nodes o).length
  dying : ∀ o, o ∈ l.dying ↔
    o ∈ seen ∧ (node nodes o).isChoice = true ∧ childrenOf nodes o = []

theorem notes_blank (nodes : Arena) : Notes nodes [] (blank nodes.size) := by
  refine ⟨by simp [blank], by simp [blank], by simp [blank], fun c hc p => ?_, fun p hp o => ?_,
    fun o ho => (by cases ho), by simp [blank]⟩
  · simp [blank, Array.getD_eq_getD_getElem?, hc]
  · simp [blank, Array.getD_eq_getD_getElem?, hp]

section

variable {seen : List NodeId} {l : Ledger} {id : NodeId} (h : Notes nodes seen l)
include h

/-- A choice is noted with its alternatives. -/
theorem Notes.choice (hid : id < nodes.size) (hnew : id ∉ seen) (hc : (node nodes id).isChoice = true) :
    Notes nodes (id :: seen) (l.note nodes (node nodes id, id)) := by
  have hnot := Node.not_isPacked_of_isChoice hc
  rw [Ledger.note, if_pos hc, ← Array.foldl_toList]
  refine ⟨h.users_size, (size_foldl_modify ..).trans h.owners_size,
    Array.size_setIfInBounds.trans h.remaining_size, fun c hlt p => ?users, fun p hlt o => ?owners,
    fun o ho hco => ?remaining, fun o => ?dying⟩ <;> dsimp only
  case users =>
    rw [h.users c hlt, List.mem_cons]
    refine and_congr_left fun hp => ⟨.inr, fun hmem => hmem.resolve_left ?_⟩
    rintro rfl
    cases hnot.symm.trans hp.1
  case owners =>
    rw [count_foldl_modify _ (h.owners_size ▸ hlt), h.owners p hlt]
    by_cases ho : o = id
    · subst ho
      simp [hnew, hc, childrenOf]
    · simp [ho]
  case remaining =>
    rw [Array.getD_eq_getD_getElem?, Array.getElem?_setIfInBounds]
    by_cases he : id = o
    · subst he
      simp [h.remaining_size, hid, childrenOf]
    · rw [if_neg he, ← Array.getD_eq_getD_getElem?]
      exact h.remaining o ((List.mem_cons.1 ho).resolve_left (Ne.symm he)) hco
  case dying =>
    have hempty : (node nodes id).children.isEmpty = true ↔ childrenOf nodes id = [] := by
      rw [childrenOf, Array.isEmpty_iff, Array.toList_eq_nil_iff]
    by_cases ho : o = id
    · subst ho
      have hnone : o ∉ l.dying := fun hmem => hnew ((h.dying o).1 hmem).1
      by_cases he : childrenOf nodes o = []
      · simp [hempty.2 he, he, hc]
      · simp [mt hempty.1 he, he, hnone]
    · split <;> simp [ho, h.dying o]

/-- A packed node is noted for the choices that it uses. -/
theorem Notes.packed (hpacked : (node nodes id).isPacked = true) :
    Notes nodes (id :: seen) (l.note nodes (node nodes id, id)) := by
  have hnot : ¬ (node nodes id).isChoice = true := fun hc => by
    cases (Node.not_isPacked_of_isChoice hc).symm.trans hpacked
  rw [Ledger.note, if_neg hnot, if_pos hpacked, ← Array.foldl_toList]
  refine ⟨(size_foldl_noteUser ..).trans h.users_size, h.owners_size, h.remaining_size,
    fun c hlt p => ?users, fun p hlt o => ?owners, fun o ho hco => ?remaining, fun o => ?dying⟩ <;>
    dsimp only
  case users =>
    rw [mem_foldl_noteUser_iff _ (h.users_size ▸ hlt), h.users c hlt, List.mem_cons]
    by_cases hp : p = id
    · subst hp
      simp only [true_and, hpacked, true_or]
      exact or_iff_right_of_imp And.right
    · simp [hp]
  case owners =>
    rw [h.owners p hlt]
    by_cases ho : o = id
    · subst ho
      simp [hnot]
    · simp [ho]
  case remaining =>
    refine h.remaining o ((List.mem_cons.1 ho).resolve_left ?_) hco
    rintro rfl
    exact hnot hco
  case dying =>
    rw [h.dying o, List.mem_cons]
    refine and_congr_left fun ho => ⟨.inr, fun hmem => hmem.resolve_left ?_⟩
    rintro rfl
    exact hnot ho.1

/-- Nothing is noted of other nodes. -/
theorem Notes.other (hc : ¬ (node nodes id).isChoice = true) (hp : ¬ (node nodes id).isPacked = true) :
    Notes nodes (id :: seen) (l.note nodes (node nodes id, id)) := by
  rw [Ledger.note, if_neg hc, if_neg hp]
  have hne : ∀ {o}, o ∈ id :: seen → o ≠ id → o ∈ seen := fun ho hne => (List.mem_cons.1 ho).resolve_left hne
  refine ⟨h.users_size, h.owners_size, h.remaining_size, fun c hlt p => ?users, fun p hlt o => ?owners,
    fun o ho hco => ?remaining, fun o => ?dying⟩
  case users =>
    rw [h.users c hlt]
    refine and_congr_left fun hpp => ⟨.tail _, fun hmem => hne hmem ?_⟩
    rintro rfl
    exact hp hpp.1
  case owners =>
    rw [h.owners p hlt]
    by_cases ho : o = id
    · subst ho
      simp [hc]
    · simp [ho]
  case remaining =>
    refine h.remaining o (hne ho ?_) hco
    rintro rfl
    exact hc hco
  case dying =>
    rw [h.dying o]
    refine and_congr_left fun ho => ⟨.tail _, fun hmem => hne hmem ?_⟩
    rintro rfl
    exact hc ho.1

end

/-- One node after the other is noted. -/
theorem Notes.foldl {seen : List NodeId} {l : Ledger} (h : Notes nodes seen l) {xs : List (Node × NodeId)}
    (hxs : ∀ x ∈ xs, x.2 < nodes.size ∧ x.1 = node nodes x.2) (hnodup : (xs.map Prod.snd).Nodup)
    (hnew : ∀ x ∈ xs, x.2 ∉ seen) :
    Notes nodes ((xs.map Prod.snd).reverse ++ seen) (xs.foldl (note nodes) l) := by
  induction xs generalizing seen l with
  | nil => exact h
  | cons x xs ih =>
    obtain ⟨n, id⟩ := x
    obtain ⟨hid, hn⟩ : id < nodes.size ∧ n = node nodes id := hxs _ (.head _)
    subst hn
    obtain ⟨hfresh, hnodup⟩ := List.nodup_cons.1 hnodup
    have hnote : Notes nodes (id :: seen) (l.note nodes (node nodes id, id)) := by
      by_cases hc : (node nodes id).isChoice = true
      · exact h.choice hid (hnew _ (.head _)) hc
      · by_cases hp : (node nodes id).isPacked = true
        · exact h.packed hp
        · exact h.other hc hp
    have hrest := ih hnote (fun x hx => hxs x (.tail _ hx)) hnodup fun x hx hmem => by
      rcases List.mem_cons.1 hmem with he | hmem
      · exact hfresh (List.mem_map.2 ⟨x, hx, he⟩)
      · exact hnew x (.tail _ hx) hmem
    rwa [List.map_cons, List.reverse_cons, List.append_assoc, List.singleton_append]

/-- All nodes that can be reached are noted. -/
theorem exists_notes_ofNodes (nodes : Arena) (root : NodeId) : ∃ seen, Notes nodes seen (ofNodes nodes root) ∧
    ∀ id, id ∈ seen ↔ id < nodes.size ∧ (live nodes root).getD id false = true := by
  refine ⟨_, (notes_blank nodes).foldl (fun x hx => ?_) nodup_liveNodes (by simp), fun id => ?_⟩
  · obtain ⟨hlt, hn, -⟩ := mem_liveNodes_iff.1 hx
    exact ⟨hlt, hn⟩
  · rw [List.append_nil, List.mem_reverse, List.mem_map]
    constructor
    · rintro ⟨⟨n, i⟩, hx, rfl⟩
      obtain ⟨hlt, -, hlive⟩ := mem_liveNodes_iff.1 hx
      exact ⟨hlt, hlive⟩
    · rintro ⟨hlt, hlive⟩
      exact ⟨(node nodes id, id), mem_liveNodes_iff.2 ⟨hlt, rfl, hlive⟩, rfl⟩

end Ledger

/-! ## The walk over dying choices -/

namespace Cascade

theorem getD_remaining_release (s : Cascade) {o o' : NodeId} (h : o' < s.remaining.size) :
    (release s o').remaining.getD o 0 = s.remaining.getD o 0 - if o' = o then 1 else 0 := by
  rw [release, Array.getD_eq_getD_getElem?, Array.getElem?_setIfInBounds]
  by_cases he : o' = o
  · subst he
    simp [h]
  · simp [he]

theorem mem_dying_release_iff (s : Cascade) (o o' : NodeId) :
    o ∈ (release s o').dying ↔ o ∈ s.dying ∨ (o' = o ∧ s.remaining.getD o 0 ≤ 1) := by
  rw [release]
  dsimp only
  split
  · rename_i h
    rw [List.mem_cons, or_comm]
    refine or_congr_right ⟨?_, fun he => he.1.symm⟩
    rintro rfl
    exact ⟨rfl, Nat.le_of_sub_eq_zero h⟩
  · rename_i h
    refine ⟨.inl, fun hmem => hmem.resolve_right ?_⟩
    rintro ⟨rfl, hle⟩
    exact h (Nat.sub_eq_zero_of_le hle)

/-- Owners lose an alternative for each place they have in the list. Those that have none left then are
dying. -/
theorem foldl_release (os : List NodeId) {s : Cascade} (hos : ∀ o ∈ os, o < s.remaining.size) (o : NodeId) :
    (os.foldl release s).remaining.size = s.remaining.size ∧
      (os.foldl release s).remaining.getD o 0 = s.remaining.getD o 0 - os.count o ∧
      (o ∈ (os.foldl release s).dying ↔
        o ∈ s.dying ∨ (0 < os.count o ∧ s.remaining.getD o 0 ≤ os.count o)) := by
  induction os generalizing s with
  | nil => simp
  | cons o' os ih =>
    have hlt := hos o' (.head _)
    have hsize : (release s o').remaining.size = s.remaining.size := Array.size_setIfInBounds
    obtain ⟨hsize', hremaining, hdying⟩ := ih (s := release s o') fun o ho => hsize ▸ hos o (.tail _ ho)
    rw [List.foldl_cons, hsize', hremaining, hdying, mem_dying_release_iff, getD_remaining_release s hlt,
      List.count_cons]
    simp only [beq_iff_eq]
    refine ⟨hsize, ?_, ?_⟩
    · omega
    · by_cases he : o' = o
      · simp only [he, true_and, if_true, or_assoc]
        exact or_congr_right (by omega)
      · simp [he]

/-- The choices and packed nodes that can be reached. -/
structure Among (nodes : Arena) (root : NodeId) (users owners : Array (Array NodeId)) : Prop where
  users : ∀ c < nodes.size, ∀ p, p ∈ users.getD c #[] ↔ (live nodes root).getD p false = true ∧
    (node nodes p).isPacked = true ∧ c ∈ childrenOf nodes p ∧ (node nodes c).isChoice = true
  owners : ∀ p < nodes.size, ∀ o, (owners.getD p #[]).count o =
    if (live nodes root).getD o false = true ∧ (node nodes o).isChoice = true then
      (childrenOf nodes o).count p else 0

/-- All alternatives of a choice are known to be dead. -/
def Spent (nodes : Arena) (dead : Array Bool) (c : NodeId) : Prop :=
  ∀ p ∈ childrenOf nodes c, dead.getD p false = true

/-- What the walk keeps. What is known to be dead has to be. The count of a choice is that of its
alternatives that are not known to be dead. If there are none left, it is dying, or its users are known to be
dead, or it is the one that is killing its users (`current`). -/
structure Keeps (nodes : Arena) (root : NodeId) (least : Array Bool) (current : Option NodeId) (s : Cascade) :
    Prop where
  dead_size : s.dead.size = nodes.size
  remaining_size : s.remaining.size = nodes.size
  sound : ∀ p, s.dead.getD p false = true → least.getD p false = true
  remaining : ∀ c, (live nodes root).getD c false = true → (node nodes c).isChoice = true →
    s.remaining.getD c 0 = (childrenOf nodes c).countP fun p => !s.dead.getD p false
  dying : ∀ c ∈ s.dying, (node nodes c).isChoice = true ∧ Spent nodes s.dead c
  spent : ∀ c, (live nodes root).getD c false = true → (node nodes c).isChoice = true →
    Spent nodes s.dead c → c ∈ s.dying ∨ some c = current ∨
      ∀ p, (live nodes root).getD p false = true → (node nodes p).isPacked = true →
        c ∈ childrenOf nodes p → s.dead.getD p false = true

theorem countP_not_dead {dead dead' : Array Bool} {p : NodeId} (hp : dead.getD p false = false)
    (hset : ∀ q, dead'.getD q false = true ↔ q = p ∨ dead.getD q false = true) (cs : List NodeId) :
    (cs.countP fun q => !dead.getD q false) = (cs.countP fun q => !dead'.getD q false) + cs.count p := by
  induction cs with
  | nil => rfl
  | cons c cs ih =>
    have hc := hset c
    rw [List.countP_cons, List.countP_cons, List.count_cons, ih]
    by_cases he : c = p
    · subst he
      simp [hp, hc.2 (.inl rfl)]
      omega
    · have heq : dead'.getD c false = dead.getD c false := by
        rw [Bool.eq_iff_iff, hc, or_iff_right he]
      simp [heq, he]
      omega

/-- What changes when a packed node dies: it is dead, its owners have lost it, and those that have lost their
last alternative with it are dying. -/
structure Kills (nodes : Arena) (root : NodeId) (s : Cascade) (p : NodeId) (s' : Cascade) : Prop where
  dead_size : s'.dead.size = s.dead.size
  remaining_size : s'.remaining.size = s.remaining.size
  dead : ∀ q, s'.dead.getD q false = true ↔ q = p ∨ s.dead.getD q false = true
  remaining : ∀ o, (live nodes root).getD o false = true → (node nodes o).isChoice = true →
    s'.remaining.getD o 0 = s.remaining.getD o 0 - (childrenOf nodes o).count p
  dying : ∀ o, o ∈ s'.dying ↔ o ∈ s.dying ∨ ((live nodes root).getD o false = true ∧
    (node nodes o).isChoice = true ∧ p ∈ childrenOf nodes o ∧
    s.remaining.getD o 0 ≤ (childrenOf nodes o).count p)

section

variable {users owners : Array (Array NodeId)} {least : Array Bool} {current : Option NodeId}
  {s s' : Cascade} {p : NodeId}

theorem kills_kill (ha : Among nodes root users owners) (hp : (node nodes p).isPacked = true)
    (hsize : s.remaining.size = nodes.size) (halive : s.dead[p]? = some false) :
    Kills nodes root s p (kill owners s p) := by
  obtain ⟨hlt, -⟩ := Array.getElem?_eq_some_iff.1 halive
  have howners := ha.owners p (lt_size_of_isPacked hp)
  have hrelease := foldl_release (owners.getD p #[]).toList
    (s := { s with dead := s.dead.setIfInBounds p true }) fun o ho => by
      have hpos := Array.count_pos_iff.2 (Array.mem_toList_iff.1 ho)
      rw [howners o] at hpos
      by_contra hnot
      rw [if_neg fun hco => hnot (hsize ▸ lt_size_of_isChoice hco.2)] at hpos
      exact Nat.lt_irrefl 0 hpos
  simp only [Array.count_toList, howners] at hrelease
  rw [kill, if_pos halive, ← Array.foldl_toList]
  refine ⟨?deadSize, (hrelease 0).1, fun q => ?dead, fun o hlo hco => ?remaining, fun o => ?dying⟩
  case deadSize => rw [dead_foldl_release, Array.size_setIfInBounds]
  case dead =>
    rw [dead_foldl_release, Array.getD_eq_getD_getElem?, Array.getElem?_setIfInBounds]
    by_cases he : p = q
    · simp [he, he ▸ hlt]
    · simp [he, Ne.symm he]
  case remaining => rw [(hrelease o).2.1, if_pos ⟨hlo, hco⟩]
  case dying =>
    rw [(hrelease o).2.2]
    refine or_congr_right ?_
    by_cases hco : (live nodes root).getD o false = true ∧ (node nodes o).isChoice = true
    · rw [if_pos hco, List.count_pos_iff, ← and_assoc, and_iff_right hco]
    · rw [if_neg hco]
      exact iff_of_false (fun h => Nat.lt_irrefl 0 h.1) fun h => hco ⟨h.1, h.2.1⟩

/-- The death of a packed node that has to be dead keeps what the walk keeps. -/
theorem Keeps.kills (h : Keeps nodes root least current s) (hk : Kills nodes root s p s')
    (halive : s.dead.getD p false = false) (hp : least.getD p false = true) :
    Keeps nodes root least current s' := by
  have hcount := countP_not_dead halive hk.dead
  have hmono : ∀ {c}, Spent nodes s.dead c → Spent nodes s'.dead c := fun hc q hq =>
    (hk.dead q).2 (.inr (hc q hq))
  refine ⟨hk.dead_size.trans h.dead_size, hk.remaining_size.trans h.remaining_size, fun q hq => ?sound,
    fun o hlo hco => ?remaining, fun o ho => ?dying, fun o hlo hco hall => ?spent⟩
  case sound =>
    rcases (hk.dead q).1 hq with rfl | hq
    · exact hp
    · exact h.sound q hq
  case remaining => rw [hk.remaining o hlo hco, h.remaining o hlo hco, hcount, Nat.add_sub_cancel]
  case dying =>
    rcases (hk.dying o).1 ho with ho | ⟨hlo, hco, -, hle⟩
    · obtain ⟨hco, hall⟩ := h.dying o ho
      exact ⟨hco, hmono hall⟩
    · rw [h.remaining o hlo hco, hcount] at hle
      have hnone := List.countP_eq_zero.1 (Nat.le_zero.1 (Nat.le_of_add_le_add_right
        (hle.trans_eq (Nat.zero_add _).symm)))
      exact ⟨hco, fun q hq => by simpa using hnone q hq⟩
  case spent =>
    by_cases hold : Spent nodes s.dead o
    · rcases h.spent o hlo hco hold with ho | ho | ho
      · exact .inl ((hk.dying o).2 (.inl ho))
      · exact .inr (.inl ho)
      · exact .inr (.inr fun q hlq hq hmem => (hk.dead q).2 (.inr (ho q hlq hq hmem)))
    · -- it has lost its last alternative
      have hmem : p ∈ childrenOf nodes o := by
        by_contra hmem
        refine hold fun q hq => ((hk.dead q).1 (hall q hq)).resolve_left ?_
        rintro rfl
        exact hmem hq
      refine .inl ((hk.dying o).2 (.inr ⟨hlo, hco, hmem, ?_⟩))
      rw [h.remaining o hlo hco, hcount, List.countP_eq_zero.2 fun q hq => by simp [hall q hq], Nat.zero_add]

end

section

variable {users owners : Array (Array NodeId)} {least : Array Bool} {current : Option NodeId} {s : Cascade}
  (ha : Among nodes root users owners)
  (hleast : ∀ p, isDead nodes (live nodes root) least p = true → least.getD p false = true)
include ha hleast

/-- A packed node that uses a choice without live alternatives is killed. -/
theorem Keeps.kill (h : Keeps nodes root least current s) {p c : NodeId}
    (hlive : (live nodes root).getD p false = true) (hp : (node nodes p).isPacked = true)
    (hc : c ∈ childrenOf nodes p) (hchoice : (node nodes c).isChoice = true) (hspent : Spent nodes s.dead c) :
    Keeps nodes root least current (kill owners s p) ∧
      ∀ q, (kill owners s p).dead.getD q false = true ↔ q = p ∨ s.dead.getD q false = true := by
  by_cases halive : s.dead[p]? = some false
  · have hkills := kills_kill ha hp h.remaining_size halive
    have hdead : isDead nodes (live nodes root) least p = true := by
      simp only [isDead, Bool.and_eq_true]
      refine ⟨⟨hlive, hp⟩, Array.any_eq_true'.2 ⟨c, Array.mem_toList_iff.1 hc, Bool.and_eq_true_iff.2
        ⟨hchoice, Array.all_eq_true_iff_forall_mem.2 fun r hr => ?_⟩⟩⟩
      exact h.sound r (hspent r (Array.mem_toList_iff.2 hr))
    refine ⟨h.kills hkills ?_ (hleast p hdead), hkills.dead⟩
    rw [Array.getD_eq_getD_getElem?, halive]
    rfl
  · have hlt : p < s.dead.size := h.dead_size ▸ lt_size_of_isPacked hp
    have hdead : s.dead.getD p false = true := by
      rw [Array.getElem?_eq_getElem hlt, Option.some.injEq, Bool.not_eq_false] at halive
      rw [Array.getD_eq_getD_getElem?, Array.getElem?_eq_getElem hlt, halive]
      rfl
    rw [Cascade.kill, if_neg halive]
    refine ⟨h, fun q => ⟨.inr, fun hq => hq.elim ?_ id⟩⟩
    rintro rfl
    exact hdead

/-- All users of a choice without live alternatives are killed. -/
theorem Keeps.foldl_kill {c : NodeId} (hchoice : (node nodes c).isChoice = true) (ps : List NodeId)
    (hps : ∀ p ∈ ps, (live nodes root).getD p false = true ∧ (node nodes p).isPacked = true ∧
      c ∈ childrenOf nodes p)
    (h : Keeps nodes root least current s) (hspent : Spent nodes s.dead c) :
    Keeps nodes root least current (ps.foldl (Cascade.kill owners) s) ∧
      ∀ q, (ps.foldl (Cascade.kill owners) s).dead.getD q false = true ↔ q ∈ ps ∨ s.dead.getD q false = true := by
  induction ps generalizing s with
  | nil => simpa using h
  | cons p ps ih =>
    obtain ⟨hlive, hp, hc⟩ := hps p (.head _)
    obtain ⟨hkeeps, hdead⟩ := h.kill ha hleast hlive hp hc hchoice hspent
    obtain ⟨hkeeps', hdead'⟩ := ih (fun q hq => hps q (.tail _ hq)) hkeeps
      fun q hq => (hdead q).2 (.inr (hspent q hq))
    refine ⟨hkeeps', fun q => ?_⟩
    rw [List.foldl_cons, hdead' q, hdead q, List.mem_cons, or_left_comm, or_assoc]

/-- When the walk ends, a packed node that uses a choice of which all alternatives are dead is dead. -/
theorem Keeps.run (h : Keeps nodes root least none s) :
    (Cascade.run users owners s).size = nodes.size ∧
    (∀ p, (Cascade.run users owners s).getD p false = true → least.getD p false = true) ∧
    ∀ p, isDead nodes (live nodes root) (Cascade.run users owners s) p = true →
      (Cascade.run users owners s).getD p false = true := by
  fun_induction Cascade.run users owners s with
  | case1 s hdying =>
    refine ⟨h.dead_size, h.sound, fun p hp => ?_⟩
    simp only [isDead, Bool.and_eq_true] at hp
    obtain ⟨⟨hlive, hpacked⟩, hany⟩ := hp
    obtain ⟨c, hc, hall⟩ := Array.any_eq_true'.1 hany
    obtain ⟨hchoice, hall⟩ := Bool.and_eq_true_iff.1 hall
    have hmem := Array.mem_toList_iff.2 hc
    have hspent : Spent nodes s.dead c := fun q hq =>
      Array.all_eq_true_iff_forall_mem.1 hall q (Array.mem_toList_iff.1 hq)
    rcases h.spent c (live_child hlive hmem (lt_size_of_isChoice hchoice)) hchoice hspent with hd | hd | hd
    · rw [hdying] at hd
      cases hd
    · cases hd
    · exact hd p hlive hpacked hmem
  | case2 s c dying hdying ih =>
    obtain ⟨hchoice, hspent⟩ := h.dying c (hdying ▸ .head _)
    -- the choice is dealt with
    have hpop : Keeps nodes root least (some c) { s with dying } :=
      ⟨h.dead_size, h.remaining_size, h.sound, h.remaining, fun o ho => h.dying o (hdying ▸ .tail _ ho),
        fun o hlo hco hall => by
          rcases h.spent o hlo hco hall with ho | ho | ho
          · rcases List.mem_cons.1 (hdying ▸ ho) with rfl | ho
            · exact .inr (.inl rfl)
            · exact .inl ho
          · cases ho
          · exact .inr (.inr ho)⟩
    have husers := ha.users c (lt_size_of_isChoice hchoice)
    obtain ⟨hkeeps, hdead⟩ := hpop.foldl_kill ha hleast hchoice (users.getD c #[]).toList
      (fun p hp => by
        obtain ⟨hlive, hpacked, hc, -⟩ := (husers p).1 (Array.mem_toList_iff.1 hp)
        exact ⟨hlive, hpacked, hc⟩) hspent
    rw [Array.foldl_toList] at hkeeps hdead
    refine ih ⟨hkeeps.dead_size, hkeeps.remaining_size, hkeeps.sound, hkeeps.remaining, hkeeps.dying,
      fun o hlo hco hall => ?_⟩
    rcases hkeeps.spent o hlo hco hall with ho | ho | ho
    · exact .inl ho
    · obtain rfl := Option.some.inj ho
      refine .inr (.inr fun p hlive hpacked hc => (hdead p).2 (.inl ?_))
      exact Array.mem_toList_iff.2 ((husers p).2 ⟨hlive, hpacked, hc, hchoice⟩)
    · exact .inr (.inr ho)

end

end Cascade

/-- The walk marks the least set of packed nodes that contains those that use a choice of which it contains
all alternatives. -/
theorem deadNodes_eq : deadNodes nodes root = leastMarks nodes.size (isDead nodes (live nodes root)) := by
  obtain ⟨seen, hnotes, hseen⟩ := Ledger.exists_notes_ofNodes nodes root
  have hlive : ∀ {id}, id < nodes.size → (id ∈ seen ↔ (live nodes root).getD id false = true) :=
    fun hlt => (hseen _).trans (and_iff_right hlt)
  have hchoice : ∀ {id}, (id ∈ seen ∧ (node nodes id).isChoice = true) ↔
      ((live nodes root).getD id false = true ∧ (node nodes id).isChoice = true) :=
    and_congr_left fun hc => hlive (lt_size_of_isChoice hc)
  have hleast : ∀ p, isDead nodes (live nodes root)
      (leastMarks nodes.size (isDead nodes (live nodes root))) p = true →
      (leastMarks nodes.size (isDead nodes (live nodes root))).getD p false = true := fun p hp => by
    have hpacked := hp
    simp only [isDead, Bool.and_eq_true] at hpacked
    exact leastMarks_closed (lt_size_of_isPacked hpacked.1.2) hp
  have hamong : Cascade.Among nodes root (Ledger.ofNodes nodes root).users
      (Ledger.ofNodes nodes root).owners := by
    refine ⟨fun c hc p => (hnotes.users c hc p).trans ?_, fun p hp o => ?_⟩
    · rw [and_left_comm, and_left_comm (a := (live nodes root).getD p false = true)]
      exact and_congr_right fun hp => and_congr_left fun _ => hlive (lt_size_of_isPacked hp)
    · rw [hnotes.owners p hp o]
      simp only [hchoice]
  have hnone : ∀ p, (Array.replicate nodes.size false).getD p false = false := fun p => by
    rw [Array.getD_eq_getD_getElem?, Array.getElem?_replicate]
    split <;> rfl
  -- at first nothing is known to be dead
  have hkeeps : Cascade.Keeps nodes root (leastMarks nodes.size (isDead nodes (live nodes root))) none
      ⟨.replicate nodes.size false, (Ledger.ofNodes nodes root).remaining,
        (Ledger.ofNodes nodes root).dying⟩ := by
    refine ⟨Array.size_replicate, hnotes.remaining_size, fun p hp => ?_, fun c hlc hc => ?_, fun c hc => ?_,
      fun c hlc hc hall => .inl ?_⟩
    · cases (hnone p).symm.trans hp
    · simp only [hnone, Bool.not_false, List.countP_true]
      exact hnotes.remaining c (hchoice.2 ⟨hlc, hc⟩).1 hc
    · obtain ⟨-, hc, hnil⟩ := (hnotes.dying c).1 hc
      refine ⟨hc, fun q hq => ?_⟩
      rw [hnil] at hq
      cases hq
    · refine (hnotes.dying c).2 ⟨(hchoice.2 ⟨hlc, hc⟩).1, hc, ?_⟩
      exact List.eq_nil_iff_forall_not_mem.2 fun q hq => by cases (hnone q).symm.trans (hall q hq)
  obtain ⟨hsize, hsound, hclosed⟩ := hkeeps.run hamong hleast
  have hcomplete : ∀ p, (leastMarks nodes.size (isDead nodes (live nodes root))).getD p false = true →
      (deadNodes nodes root).getD p false = true := fun p =>
    leastMarks_induction fun dead p hdead hp => hclosed p (isDead_mono hdead hp)
  refine Array.ext (hsize.trans (size_leastMarks ..).symm) fun i hi hi' => ?_
  have heq : (deadNodes nodes root).getD i false =
      (leastMarks nodes.size (isDead nodes (live nodes root))).getD i false :=
    Bool.eq_iff_iff.2 ⟨hsound i, hcomplete i⟩
  rwa [Array.getD_eq_getD_getElem?, Array.getElem?_eq_getElem hi, Array.getD_eq_getD_getElem?,
    Array.getElem?_eq_getElem hi'] at heq

end Pass

end ParseForest
