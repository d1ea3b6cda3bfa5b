import ParseForest.Proofs.Forest.Linking
import ParseForest.Proofs.Forest.Numbering

/-!
# Equivalent alternatives

Of the alternatives of a choice that can be reached, deduplication leaves the first of each shape
(`Pass.Deduplicates`). What is left of the alternatives is of the same shapes as before
(`Pass.Deduplicates.sameShape`), so a second run finds nothing to take away
(`Pass.dedupeEquivalent_idempotent`); and it finds nothing in an arena in which shapes tell nodes apart
(`Pass.dedupeEquivalent_eq`).
-/

namespace ParseForest

/-! ## The first of each group -/

section

variable {α β : Type} [DecidableEq β] (f : α → β)

/-- The first of those elements for which a function has the same value, unless the value is one of those
that have been seen. -/
def firstsBy : List α → List β → List α
  | [], _ => []
  | a :: as, seen => if f a ∈ seen then firstsBy as (f a :: seen) else a :: firstsBy as (f a :: seen)

theorem firstsBy_sublist (as : List α) (seen : List β) : (firstsBy f as seen).Sublist as := by
  induction as generalizing seen with
  | nil => exact .slnil
  | cons a as ih =>
    rw [firstsBy]
    split
    · exact (ih _).cons _
    · exact (ih _).cons_cons _

/-- What is left out has been seen, or comes after one that is left in. -/
theorem mem_firstsBy_or {as before after : List α} {seen : List β} {a : α} (h : as = before ++ a :: after) :
    a ∈ firstsBy f as seen ∨ f a ∈ seen ∨ ∃ b ∈ before, b ∈ firstsBy f as seen ∧ f b = f a := by
  induction before generalizing as seen with
  | nil =>
    rw [h, List.nil_append, firstsBy]
    split
    · exact .inr (.inl ‹_›)
    · exact .inl (.head _)
  | cons x before ih =>
    obtain rfl := h
    have hrest := @ih (before ++ a :: after) (f x :: seen) rfl
    rw [List.cons_append, firstsBy]
    split
    · rename_i hx
      rcases hrest with h | h | ⟨b, hb, h⟩
      · exact .inl h
      · exact .inr (.inl ((List.mem_cons.1 h).elim (fun he => he ▸ hx) id))
      · exact .inr (.inr ⟨b, .tail _ hb, h⟩)
    · rcases hrest with h | h | ⟨b, hb, h, he⟩
      · exact .inl (.tail _ h)
      · rcases List.mem_cons.1 h with he | h
        · exact .inr (.inr ⟨x, .head _, .head _, he.symm⟩)
        · exact .inr (.inl h)
      · exact .inr (.inr ⟨b, .tail _ hb, .tail _ h, he⟩)

/-- What is left in has not been seen. -/
theorem not_mem_seen_of_mem_firstsBy {as : List α} {seen : List β} {a : α} (h : a ∈ firstsBy f as seen) :
    f a ∉ seen := by
  induction as generalizing seen with
  | nil => cases h
  | cons x as ih =>
    rw [firstsBy] at h
    split at h
    · exact fun hmem => ih h (.tail _ hmem)
    · rename_i hx
      rcases List.mem_cons.1 h with rfl | h
      · exact hx
      · exact fun hmem => ih h (.tail _ hmem)

theorem pairwise_firstsBy (as : List α) (seen : List β) :
    (firstsBy f as seen).Pairwise fun a b => f a ≠ f b := by
  induction as generalizing seen with
  | nil => exact .nil
  | cons a as ih =>
    rw [firstsBy]
    split
    · exact ih _
    · refine .cons (fun b hb he => ?_) (ih _)
      exact not_mem_seen_of_mem_firstsBy f hb (he ▸ .head _)

/-- If all values are different, nothing is left out. -/
theorem firstsBy_eq_self {as : List α} {seen : List β} (h : as.Pairwise fun a b => f a ≠ f b)
    (hseen : ∀ a ∈ as, f a ∉ seen) : firstsBy f as seen = as := by
  induction as generalizing seen with
  | nil => rfl
  | cons a as ih =>
    obtain ⟨ha, has⟩ := List.pairwise_cons.1 h
    rw [firstsBy, if_neg (hseen a (.head _)), ih has fun b hb hmem => ?_]
    rcases List.mem_cons.1 hmem with he | hmem
    · exact ha b hb he.symm
    · exact hseen b (.tail _ hb) hmem

end

/-- The number of the shape of a node, if the table knows it. -/
def ShapeTable.number (t : ShapeTable) (id : NodeId) : Nat := (t.known.getD id none).getD 0

theorem ShapeTable.Knows.number_eq {t : ShapeTable} {id : NodeId} {n : Nat} (h : t.Knows id n) :
    t.number id = n := by rw [number, show t.known.getD id none = some n from h, Option.getD_some]

namespace Pass

open Arena

variable {nodes nodes' : Arena} {g : Grammar} {root id : NodeId} {t : ShapeTable}

/-! ## What the pass does -/

/-- The edit of a choice by the numbers of its alternatives, if there is one. -/
def dedupeEdit (number : NodeId → Nat) : Node × NodeId → Option (NodeId × Array NodeId)
  | (n, id) =>
    if n.isChoice && 2 ≤ n.children.size then
      if (firstsBy number n.children.toList []).length = n.children.size then none
      else some (id, (firstsBy number n.children.toList []).toArray)
    else none

section

variable {S : NodeId → Prop} {rank : NodeId → Nat} (hr : ShapeTable.ShapesRanked nodes S rank)
include hr

/-- The alternatives that are left are the first of those that have one number. -/
theorem distinctShapes_spec {ps : List NodeId} (hps : ∀ p ∈ ps, S p) (seen : List Nat)
    (hv : t.Valid nodes) :
    (distinctShapes nodes ps seen t).2.Valid nodes ∧ t.Grows (distinctShapes nodes ps seen t).2 ∧
      (∀ p ∈ ps, ∃ n, (distinctShapes nodes ps seen t).2.Knows p n) ∧
      ∀ t', (distinctShapes nodes ps seen t).2.Grows t' →
        (distinctShapes nodes ps seen t).1 = firstsBy t'.number ps seen := by
  induction ps generalizing seen t with
  | nil => exact ⟨hv, .refl t, fun p hp => absurd hp List.not_mem_nil, fun _ _ => rfl⟩
  | cons p ps ih =>
    obtain ⟨hv₁, hg₁, hn⟩ := ShapeTable.shapeOf_spec hr (nodes.size + 1)
      (Nat.lt_succ_of_le (hr.le_size p)) (hps p (.head _)) hv
    simp only [distinctShapes]
    generalize ShapeTable.shapeOf nodes (nodes.size + 1) p t = r at hv₁ hg₁ hn
    obtain ⟨n, t₁⟩ := r
    obtain ⟨hv₂, hg₂, hknown, heq⟩ := ih (fun q hq => hps q (.tail _ hq)) (n :: seen) hv₁
    refine ⟨hv₂, hg₁.trans hg₂, fun q hq => ?_, fun t' ht' => ?_⟩
    · rcases List.mem_cons.1 hq with rfl | hq
      · exact ⟨n, hg₂.known q n hn⟩
      · exact hknown q hq
    · have hnumber : t'.number p = n := (ht'.known p n (hg₂.known p n hn)).number_eq
      rw [firstsBy, hnumber, heq t' ht']
      simp only [List.contains_eq_mem, decide_eq_true_eq]

/-- The edits are made of the numbers of the table that is left in the end. -/
theorem dedupeEdits_spec {live : List (Node × NodeId)}
    (hlive : ∀ x ∈ live, x.1 = node nodes x.2 ∧ S x.2) (hv : t.Valid nodes) :
    ∃ t', t'.Valid nodes ∧ t.Grows t' ∧
      (∀ x ∈ live, x.1.isChoice = true → 2 ≤ x.1.children.size →
        ∀ p ∈ x.1.children.toList, ∃ n, t'.Knows p n) ∧
      dedupeEdits nodes live t = live.filterMap (dedupeEdit t'.number) := by
  induction live generalizing t with
  | nil => exact ⟨t, hv, .refl t, fun x hx => absurd hx List.not_mem_nil, rfl⟩
  | cons x live ih =>
    obtain ⟨n, id⟩ := x
    obtain ⟨rfl, hid⟩ : n = node nodes id ∧ S id := hlive _ (.head _)
    have ih := fun {t} => @ih t fun y hy => hlive y (.tail _ hy)
    rw [dedupeEdits]
    split
    · rename_i hc
      obtain ⟨hv₁, hg₁, hknown, heq⟩ := distinctShapes_spec hr (hr.closed id hid) [] hv
      rw [childrenOf] at hv₁ hg₁ hknown heq
      generalize distinctShapes nodes (node nodes id).children.toList [] t = r at hv₁ hg₁ hknown heq
      obtain ⟨keep, t₁⟩ := r
      obtain ⟨t', hv', hg', hknown', heq'⟩ := ih hv₁
      have hkeep : keep = firstsBy t'.number (node nodes id).children.toList [] := heq t' hg'
      refine ⟨t', hv', hg₁.trans hg', fun y hy hchoice hsize p hp => ?_, ?_⟩
      · rcases List.mem_cons.1 hy with rfl | hy
        · obtain ⟨k, hk⟩ := hknown p hp
          exact ⟨k, hg'.known p k hk⟩
        · exact hknown' y hy hchoice hsize p hp
      · rw [List.filterMap_cons, dedupeEdit, if_pos hc, ← hkeep, ← heq']
        dsimp only
        by_cases hlength : keep.length = (node nodes id).children.size
        · rw [if_pos hlength, if_pos hlength]
        · rw [if_neg hlength, if_neg hlength]
    · rename_i hc
      obtain ⟨t', hv', hg', hknown', heq'⟩ := ih hv
      refine ⟨t', hv', hg', fun y hy hchoice hsize => ?_, ?_⟩
      · rcases List.mem_cons.1 hy with rfl | hy
        · exact absurd (by rw [hchoice]; simpa using hsize) hc
        · exact hknown' y hy hchoice hsize
      · rw [List.filterMap_cons, dedupeEdit, if_neg hc, heq']

end

theorem dedupeEdit_fst {number : NodeId → Nat} {x : Node × NodeId} {y : NodeId × Array NodeId}
    (h : dedupeEdit number x = some y) : y.1 = x.2 := by
  rw [dedupeEdit] at h
  split at h
  · split at h
    · cases h
    · exact (congrArg Prod.fst (Option.some.inj h)).symm
  · cases h

/-- The edit of a choice leaves the first alternatives. -/
theorem children_dedupeEdit (number : NodeId → Nat) (id : NodeId) :
    ((dedupeEdit number (node nodes id, id)).map fun y => y.2.toList).getD (childrenOf nodes id) =
      if (node nodes id).isChoice = true then firstsBy number (childrenOf nodes id) []
      else childrenOf nodes id := by
  rw [dedupeEdit]
  by_cases hc : (node nodes id).isChoice = true
  · rw [if_pos hc, hc, Bool.true_and]
    split
    · split
      · -- nothing is left out
        rename_i hlength
        exact ((firstsBy_sublist number (childrenOf nodes id) []).eq_of_length hlength).symm
      · rfl
    · rename_i hsize
      refine (firstsBy_eq_self number ?_ fun _ _ => List.not_mem_nil).symm
      rcases hlist : childrenOf nodes id with _ | ⟨p, _ | ⟨q, ps⟩⟩
      · exact .nil
      · exact List.pairwise_singleton _ p
      · refine absurd (decide_eq_true ?_) hsize
        rw [← Array.length_toList, show (node nodes id).children.toList = p :: q :: ps from hlist]
        simp
  · rw [if_neg hc, if_neg (by simp [hc])]
    rfl

/-- Of the alternatives of the choices in question, the first of each shape are left. -/
structure Deduplicates (S : NodeId → Prop) (nodes nodes' : Arena) : Prop extends Trims nodes nodes' where
  other : ∀ id, ¬ ((node nodes id).isChoice = true ∧ S id) → childrenOf nodes' id = childrenOf nodes id
  earlier : ∀ id, S id → (node nodes id).isChoice = true → ∀ before p after,
    childrenOf nodes id = before ++ p :: after →
    p ∈ childrenOf nodes' id ∨ ∃ q ∈ before, q ∈ childrenOf nodes' id ∧ nodes.SameShape q p
  pairwise : ∀ id, S id → (node nodes id).isChoice = true →
    (childrenOf nodes' id).Pairwise fun p q => ¬ nodes.SameShape p q

section

variable {S : NodeId → Prop} {rank : NodeId → Nat} (hr : ShapeTable.ShapesRanked nodes S rank)
  (hS : ∀ id, S id ↔ id < nodes.size ∧ (live nodes root).getD id false = true)
include hr hS

/-- The numbers by which the pass goes. -/
theorem exists_numbers : ∃ number : NodeId → Nat,
    dedupeEdits nodes (liveNodes nodes root) (.empty nodes.size) =
      (liveNodes nodes root).filterMap (dedupeEdit number) ∧
    ∀ id, S id → (node nodes id).isChoice = true → 2 ≤ (childrenOf nodes id).length →
      ∀ p ∈ childrenOf nodes id, ∀ q ∈ childrenOf nodes id, number p = number q ↔ nodes.SameShape p q := by
  have hlive : ∀ x ∈ liveNodes nodes root, x.1 = node nodes x.2 ∧ S x.2 := by
    rintro ⟨n, id⟩ hx
    obtain ⟨hlt, hn, hmark⟩ := mem_liveNodes_iff.1 hx
    exact ⟨hn, (hS id).2 ⟨hlt, hmark⟩⟩
  obtain ⟨t, hv, -, hknown, heq⟩ := dedupeEdits_spec hr hlive (ShapeTable.valid_empty nodes)
  refine ⟨t.number, heq, fun id hid hc hsize p hp q hq => ?_⟩
  have hmem := mem_liveNodes_iff.2 ⟨((hS id).1 hid).1, rfl, ((hS id).1 hid).2⟩
  obtain ⟨n, hn⟩ := hknown _ hmem hc hsize p hp
  obtain ⟨m, hm⟩ := hknown _ hmem hc hsize q hq
  rw [hn.number_eq, hm.number_eq]
  constructor
  · rintro rfl
    exact ShapeTable.sameShape_of_knows hv hn hm
  · intro h
    exact ShapeTable.eq_of_sameShape hr hv (hr.closed id hid p hp) h hn hm

/-- Deduplication leaves the first alternative of each shape. -/
theorem deduplicates_dedupeEquivalent : Deduplicates S nodes (dedupeEquivalent.run g root nodes).1 := by
  obtain ⟨number, heq, hnumber⟩ := exists_numbers hr hS
  have hrun : (dedupeEquivalent.run g root nodes).1 =
      (applyEdits nodes ((liveNodes nodes root).filterMap (dedupeEdit number))).1 := by
    rw [← heq]
    rfl
  have hfirsts : ∀ id, S id → (node nodes id).isChoice = true →
      childrenOf (dedupeEquivalent.run g root nodes).1 id = firstsBy number (childrenOf nodes id) [] := by
    intro id hid hc
    rw [hrun, childrenOf_applyEdits_liveNodes (fun _ _ => dedupeEdit_fst),
      if_pos ((hS id).1 hid).symm, children_dedupeEdit, if_pos hc]
  refine ⟨trims_dedupeEquivalent g root nodes, fun id hid => ?_, fun id hid hc before p after h => ?_,
    fun id hid hc => ?_⟩
  · rw [hrun, childrenOf_applyEdits_liveNodes (fun _ _ => dedupeEdit_fst)]
    split
    · rename_i hlive
      rw [children_dedupeEdit, if_neg fun hc => hid ⟨hc, (hS id).2 hlive.symm⟩]
    · rfl
  · rw [hfirsts id hid hc]
    rcases @mem_firstsBy_or _ _ _ number _ _ _ [] _ h with hmem | hmem | ⟨q, hq, hmem, hsame⟩
    · exact .inl hmem
    · cases hmem
    · have hsize : 2 ≤ (childrenOf nodes id).length := by
        rw [h, List.length_append, List.length_cons]
        have := List.length_pos_of_mem hq
        omega
      exact .inr ⟨q, hq, hmem, (hnumber id hid hc hsize q ((firstsBy_sublist _ _ _).subset hmem) p
        (by rw [h]; simp)).1 hsame⟩
  · rw [hfirsts id hid hc]
    rcases Nat.lt_or_ge (childrenOf nodes id).length 2 with hfew | hsize
    · have hlength := (firstsBy_sublist number (childrenOf nodes id) []).length_le
      generalize firstsBy number (childrenOf nodes id) [] = ps at hlength
      rcases ps with _ | ⟨p, _ | ⟨q, ps⟩⟩
      · exact .nil
      · exact List.pairwise_singleton _ p
      · simp only [List.length_cons] at hlength
        omega
    · refine (pairwise_firstsBy number _ []).imp_of_mem fun hp hq hne hsame => hne ?_
      exact (hnumber id hid hc hsize _ ((firstsBy_sublist _ _ _).subset hp) _
        ((firstsBy_sublist _ _ _).subset hq)).2 hsame

/-- If no two alternatives of a choice are of one shape, there is nothing to take away. -/
theorem dedupeEquivalent_eq_self (h : ∀ id, S id → (node nodes id).isChoice = true →
      (childrenOf nodes id).Pairwise fun p q => ¬ nodes.SameShape p q) :
    dedupeEquivalent.run g root nodes = (nodes, false) := by
  obtain ⟨number, heq, hnumber⟩ := exists_numbers hr hS
  have hnil : (liveNodes nodes root).filterMap (dedupeEdit number) = [] := by
    refine List.filterMap_eq_nil_iff.2 ?_
    rintro ⟨n, id⟩ hx
    obtain ⟨hlt, rfl, hmark⟩ := mem_liveNodes_iff.1 hx
    have hid := (hS id).2 ⟨hlt, hmark⟩
    rw [dedupeEdit]
    split
    · rename_i hc
      obtain ⟨hc, hsize⟩ := Bool.and_eq_true_iff.1 hc
      have hsize : 2 ≤ (childrenOf nodes id).length := by simpa [childrenOf] using hsize
      have hself : firstsBy number (childrenOf nodes id) [] = childrenOf nodes id := by
        refine firstsBy_eq_self number ?_ fun _ _ => List.not_mem_nil
        exact (h id hid hc).imp_of_mem fun hp hq hne heq => hne ((hnumber id hid hc hsize _ hp _ hq).1 heq)
      rw [childrenOf] at hself
      rw [hself, Array.length_toList, if_pos rfl]
    · rfl
  change applyEdits nodes (dedupeEdits nodes (liveNodes nodes root) (.empty nodes.size)) = _
  rw [heq, hnil]
  rfl

end

/-- Where shapes tell nodes apart, no alternative is taken away. -/
theorem dedupeEquivalent_eq (hl : nodes.Layered) (hd : nodes.Distinct) (hend : nodes.ShapesEnd) :
    (dedupeEquivalent.run g root nodes).1 = nodes := by
  obtain ⟨rank, hle, hrank, -⟩ := exists_rank (n := nodes.size) (R := nodes.ShapeChild)
    (fun id c hc => hl.closed id c hc.1) hend
  have hr : ShapeTable.ShapesRanked nodes
      (fun id => id < nodes.size ∧ (live nodes root).getD id false = true) rank :=
    ⟨fun id hid c hc => ⟨hl.closed id c hc, live_child hid.2 hc (hl.closed id c hc)⟩, fun _ hid => hid.1,
      fun id _ => hrank id, hle⟩
  rw [dedupeEquivalent_eq_self hr (fun _ => Iff.rfl) fun id _ hc => ?_]
  refine ((hd.nodup id hc).of_map _).imp_of_mem fun hp hq hne hsame => hne ?_
  exact hd.eq_of_sameShape hl hc hp hq hsame

/-! ## Running the pass again -/

namespace Deduplicates

variable {S : NodeId → Prop} {rank : NodeId → Nat} (h : Deduplicates S nodes nodes')
include h

/-- An alternative has one of its shape among those that are left. -/
theorem exists_sameShape {p : NodeId} (hid : S id) (hc : (node nodes id).isChoice = true)
    (hp : p ∈ childrenOf nodes id) : ∃ q ∈ childrenOf nodes' id, nodes.SameShape q p := by
  obtain ⟨before, after, heq⟩ := List.append_of_mem hp
  rcases h.earlier id hid hc before p after heq with hp | ⟨q, -, hq, hsame⟩
  · exact ⟨p, hp, .refl nodes p⟩
  · exact ⟨q, hq, hsame⟩

/-- Alternatives and parts of right-hand sides that are of one shape were so before. -/
theorem sameShape (hl : nodes.Layered) (hclosed : ∀ id, S id → ∀ c ∈ childrenOf nodes id, S c)
    (hrank : ∀ id, S id → ∀ c ∈ childrenOf nodes id, rank c < rank id) {a b : NodeId}
    (hk : (node nodes a).isPacked = true ∨ nodes.IsPart a) (ha : S a) (hb : S b)
    (hab : nodes'.SameShape a b) : nodes.SameShape a b := by
  induction hi : rank a using Nat.strongRecOn generalizing a b with
  | ind i ih =>
    subst hi
    have ih := fun {c d} (hc : c ∈ childrenOf nodes a) (hk : (node nodes c).isPacked = true ∨ nodes.IsPart c)
      (hd : S d) (hcd : nodes'.SameShape c d) => ih _ (hrank a ha c hc) hk (hclosed a ha c hc) hd hcd rfl
    have hstep := hab.alike
    have hkind : (node nodes a).kind = (node nodes b).kind := by
      rw [← h.kind_eq, ← h.kind_eq, hstep.kind_eq]
    refine .intro ⟨hkind, ?_, fun hai => ?_, fun hai => ?_⟩
    · rw [← h.span_eq, ← h.span_eq, hstep.span_eq]
    · have hai' := h.toTrims.isIntermediate_iff.2 hai
      obtain ⟨A, alt, dot, hai⟩ := hai
      have hac : (node nodes a).isChoice = true := by rw [Node.isChoice, hai]
      have hbc : (node nodes b).isChoice = true := by rw [Node.isChoice, ← hkind, hai]
      -- what has been taken away is of the shape of what has been left
      refine ⟨fun p hp => ?_, fun q hq => ?_⟩
      · obtain ⟨p', hp', hpp⟩ := h.exists_sameShape ha hac hp
        obtain ⟨q, hq, hpq⟩ := (hstep.alternatives hai').1 p' hp'
        have hp' := h.mem_children hp'
        have hq := h.mem_children hq
        exact ⟨q, hq, hpp.symm.trans (ih hp' (.inl (hl.isPacked a hac p' hp')) (hclosed b hb q hq) hpq)⟩
      · obtain ⟨q', hq', hqq⟩ := h.exists_sameShape hb hbc hq
        obtain ⟨p, hp, hpq⟩ := (hstep.alternatives hai').2 q' hq'
        have hq' := h.mem_children hq'
        have hp := h.mem_children hp
        exact ⟨p, hp, (ih hp (.inl (hl.isPacked a hac p hp)) (hclosed b hb q' hq') hpq).trans hqq⟩
    · have hnot : ¬ (node nodes a).isChoice = true := by
        intro hc
        rcases hk with hk | hk | ⟨A, alt, dot, hk⟩
        · rw [Node.not_isPacked_of_isChoice hc] at hk
          cases hk
        · exact hai hk
        · rw [Node.isChoice, hk] at hc
          cases hc
      have hparts := hstep.parts fun hai' => hai (h.toTrims.isIntermediate_iff.1 hai')
      have hnot' : ¬ (node nodes b).isChoice = true := by rwa [Node.isChoice, ← hkind]
      rw [h.children_eq a hnot, h.children_eq b hnot'] at hparts
      refine forall₂_imp_of_mem hparts fun c hc d hd hcd => ?_
      rcases hcd with ⟨hpart, hcd⟩ | ⟨hpart, heq⟩
      · have hpart := h.toTrims.isPart_iff.1 hpart
        exact .inl ⟨hpart, ih hc (.inr hpart) (hclosed b hb d hd) hcd⟩
      · exact .inr ⟨fun hpart' => hpart (h.toTrims.isPart_iff.2 hpart'), heq⟩

end Deduplicates

end Pass

end ParseForest
