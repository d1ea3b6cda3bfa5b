import ParseForest.Proofs.Forest.Pruning
import ParseForest.Proofs.Basic

/-!
# Shapes

Nodes are of the same shape if they are of one kind over the same tokens and what they are made of is alike:
symbols and leaves count by identity, parts of right-hand sides by shape, and the alternatives of a part as a
set (`Arena.AlikeUpTo`, `Arena.SameShape`). The relation is the greatest of its kind, so a single step is
enough to see that two nodes are of the same shape (`Arena.SameShape.intro`).

In an arena in which parts of right-hand sides are told by what they are and what they span
(`Arena.Distinct`), no two alternatives of a choice are of the same shape (`Distinct.eq_of_sameShape`).
-/

namespace ParseForest

theorem forall₂_trans {α β γ : Type} {R : α → β → Prop} {S : β → γ → Prop} {T : α → γ → Prop}
    {as : List α} {bs : List β} {cs : List γ} (h : List.Forall₂ R as bs) (h' : List.Forall₂ S bs cs)
    (hT : ∀ a b c, R a b → S b c → T a c) : List.Forall₂ T as cs := by
  induction h generalizing cs with
  | nil =>
    cases h'
    exact .nil
  | cons hab _ ih =>
    obtain ⟨c, cs, hbc, hrest, rfl⟩ := List.forall₂_cons_left_iff.1 h'
    exact .cons (hT _ _ c hab hbc) (ih hrest)

theorem forall₂_imp_of_mem {α β : Type} {R T : α → β → Prop} {as : List α} {bs : List β}
    (h : List.Forall₂ R as bs) (hT : ∀ a ∈ as, ∀ b ∈ bs, R a b → T a b) : List.Forall₂ T as bs := by
  induction h with
  | nil => exact .nil
  | cons hab _ ih =>
    exact .cons (hT _ (.head _) _ (.head _) hab) (ih fun a ha b hb => hT a (.tail _ ha) b (.tail _ hb))

namespace Arena

/-- The node is an intermediate node: its shape is a set. -/
def IsIntermediate (nodes : Arena) (id : NodeId) : Prop :=
  ∃ A alt dot, (node nodes id).kind = .intermediate A alt dot

/-- The node is part of a right-hand side: it counts by its shape. -/
def IsPart (nodes : Arena) (id : NodeId) : Prop :=
  (∃ A alt dot, (node nodes id).kind = .intermediate A alt dot) ∨
    ∃ A alt dot, (node nodes id).kind = .nulled A alt dot

/-- Children that count as the same: parts of right-hand sides that are related, and otherwise only the node
itself. -/
def SamePart (nodes : Arena) (R : NodeId → NodeId → Prop) (c d : NodeId) : Prop :=
  (nodes.IsPart c ∧ R c d) ∨ (¬ nodes.IsPart c ∧ c = d)

/-- The nodes are of the same shape, if those that are related are. -/
structure AlikeUpTo (nodes : Arena) (R : NodeId → NodeId → Prop) (a b : NodeId) : Prop where
  kind_eq : (node nodes a).kind = (node nodes b).kind
  span_eq : (node nodes a).span = (node nodes b).span
  alternatives : nodes.IsIntermediate a → (∀ p ∈ childrenOf nodes a, ∃ q ∈ childrenOf nodes b, R p q) ∧
    ∀ q ∈ childrenOf nodes b, ∃ p ∈ childrenOf nodes a, R p q
  parts : ¬ nodes.IsIntermediate a →
    List.Forall₂ (nodes.SamePart R) (childrenOf nodes a) (childrenOf nodes b)

/-- The nodes are of the same shape. -/
def SameShape (nodes : Arena) (a b : NodeId) : Prop :=
  ∃ R : NodeId → NodeId → Prop, (∀ x y, R x y → nodes.AlikeUpTo R x y) ∧ R a b

variable {nodes : Arena} {R R' : NodeId → NodeId → Prop} {a b c d : NodeId}

theorem isIntermediate_congr (h : (node nodes a).kind = (node nodes b).kind) :
    nodes.IsIntermediate a ↔ nodes.IsIntermediate b := by rw [IsIntermediate, IsIntermediate, h]

theorem isPart_congr (h : (node nodes a).kind = (node nodes b).kind) :
    nodes.IsPart a ↔ nodes.IsPart b := by rw [IsPart, IsPart, h]

theorem AlikeUpTo.mono (h : nodes.AlikeUpTo R a b) (hR : ∀ x y, R x y → R' x y) :
    nodes.AlikeUpTo R' a b := by
  refine ⟨h.kind_eq, h.span_eq, fun ha => ⟨fun p hp => ?_, fun q hq => ?_⟩, fun ha => ?_⟩
  · obtain ⟨q, hq, hpq⟩ := (h.alternatives ha).1 p hp
    exact ⟨q, hq, hR p q hpq⟩
  · obtain ⟨p, hp, hpq⟩ := (h.alternatives ha).2 q hq
    exact ⟨p, hp, hR p q hpq⟩
  · exact (h.parts ha).imp fun c d hcd => hcd.imp_left fun hpart => ⟨hpart.1, hR c d hpart.2⟩

namespace SameShape

/-- What nodes of the same shape are made of is of the same shape. -/
theorem alike (h : nodes.SameShape a b) : nodes.AlikeUpTo nodes.SameShape a b := by
  obtain ⟨R, hR, hab⟩ := h
  exact (hR a b hab).mono fun x y hxy => ⟨R, hR, hxy⟩

/-- One step is enough: what is made of parts of the same shape is of the same shape. -/
theorem intro (h : nodes.AlikeUpTo nodes.SameShape a b) : nodes.SameShape a b :=
  ⟨nodes.AlikeUpTo nodes.SameShape, fun _ _ hxy => hxy.mono fun _ _ => alike, h⟩

theorem refl (nodes : Arena) (a : NodeId) : nodes.SameShape a a := by
  refine ⟨Eq, fun x y hxy => ?_, rfl⟩
  obtain rfl := hxy
  refine ⟨rfl, rfl, fun _ => ⟨fun p hp => ⟨p, hp, rfl⟩, fun q hq => ⟨q, hq, rfl⟩⟩, fun _ => ?_⟩
  exact List.forall₂_same.2 fun c _ => (Classical.em (nodes.IsPart c)).imp (⟨·, rfl⟩) (⟨·, rfl⟩)

theorem symm (h : nodes.SameShape a b) : nodes.SameShape b a := by
  refine ⟨fun x y => nodes.SameShape y x, fun x y hxy => ?_, h⟩
  have hstep := hxy.alike
  refine ⟨hstep.kind_eq.symm, hstep.span_eq.symm, fun hx => ?_, fun hx => ?_⟩
  · exact (hstep.alternatives ((isIntermediate_congr hstep.kind_eq).2 hx)).symm
  · have hparts := hstep.parts fun hy => hx ((isIntermediate_congr hstep.kind_eq).1 hy)
    refine .flip (hparts.imp fun c d hcd => ?_)
    rcases hcd with ⟨hpart, hcd⟩ | ⟨hpart, rfl⟩
    · exact .inl ⟨(isPart_congr hcd.alike.kind_eq).1 hpart, hcd⟩
    · exact .inr ⟨hpart, rfl⟩

theorem trans (h : nodes.SameShape a b) (h' : nodes.SameShape b c) : nodes.SameShape a c := by
  refine ⟨Relation.Comp nodes.SameShape nodes.SameShape, ?_, b, h, h'⟩
  rintro x z ⟨y, hxy, hyz⟩
  have hstep := hxy.alike
  have hstep' := hyz.alike
  refine ⟨hstep.kind_eq.trans hstep'.kind_eq, hstep.span_eq.trans hstep'.span_eq, fun hx => ?_, fun hx => ?_⟩
  · have hy := (isIntermediate_congr hstep.kind_eq).1 hx
    refine ⟨fun p hp => ?_, fun r hr => ?_⟩
    · obtain ⟨q, hq, hpq⟩ := (hstep.alternatives hx).1 p hp
      obtain ⟨r, hr, hqr⟩ := (hstep'.alternatives hy).1 q hq
      exact ⟨r, hr, q, hpq, hqr⟩
    · obtain ⟨q, hq, hqr⟩ := (hstep'.alternatives hy).2 r hr
      obtain ⟨p, hp, hpq⟩ := (hstep.alternatives hx).2 q hq
      exact ⟨p, hp, q, hpq, hqr⟩
  · have hy := fun hy => hx ((isIntermediate_congr hstep.kind_eq).2 hy)
    refine forall₂_trans (hstep.parts hx) (hstep'.parts hy) fun c d e hcd hde => ?_
    rcases hcd with ⟨hpart, hcd⟩ | ⟨hpart, rfl⟩
    · rcases hde with ⟨-, hde⟩ | ⟨hnot, rfl⟩
      · exact .inl ⟨hpart, d, hcd, hde⟩
      · exact absurd ((isPart_congr hcd.alike.kind_eq).1 hpart) hnot
    · exact .inr ⟨hpart, hde.elim (fun hde => absurd hde.1 hpart) And.right⟩

end SameShape

/-! ## Where shapes tell nodes apart -/

/-- In the alternatives of a choice, parts of right-hand sides are told by what they are and what they
span, and the alternatives are told by their children. -/
structure Distinct (nodes : Arena) : Prop where
  part : ∀ id, (node nodes id).isChoice = true → ∀ p ∈ childrenOf nodes id,
    ∀ p' ∈ childrenOf nodes id, ∀ c ∈ childrenOf nodes p, ∀ c' ∈ childrenOf nodes p',
    nodes.IsPart c → (node nodes c).kind = (node nodes c').kind →
    (node nodes c).span = (node nodes c').span → c = c'
  nodup : ∀ id, (node nodes id).isChoice = true →
    ((childrenOf nodes id).map fun p => ((node nodes p).kind, childrenOf nodes p)).Nodup

/-- A node whose shape is looked at for that of another. -/
def ShapeChild (nodes : Arena) (id c : NodeId) : Prop :=
  c ∈ childrenOf nodes id ∧
    ((∃ A alt dot, (node nodes id).kind = .intermediate A alt dot) ∨ nodes.IsPart c)

/-- No node is looked at for its own shape. -/
def ShapesEnd (nodes : Arena) : Prop := ∀ id, ¬ Relation.TransGen nodes.ShapeChild id id

/-- No two alternatives of a choice are of the same shape. -/
theorem Distinct.eq_of_sameShape (hd : nodes.Distinct) (hl : nodes.Layered) {id p q : NodeId}
    (hc : (node nodes id).isChoice = true) (hp : p ∈ childrenOf nodes id) (hq : q ∈ childrenOf nodes id)
    (h : nodes.SameShape p q) : p = q := by
  have hstep := h.alike
  have hparts := hstep.parts fun ⟨A, alt, dot, hk⟩ => by
    have hpacked := hl.isPacked id hc p hp
    rw [Node.isPacked, hk] at hpacked
    cases hpacked
  have hchildren : childrenOf nodes p = childrenOf nodes q := by
    have hpart := hd.part id hc p hp q hq
    refine List.forall₂_eq_eq_eq ▸ List.forall₂_iff_get.2 ⟨hparts.length_eq, fun i hi hi' => ?_⟩
    rcases hparts.get hi hi' with ⟨hcpart, hcd⟩ | ⟨-, heq⟩
    · exact hpart _ (List.get_mem _ _) _ (List.get_mem _ _) hcpart hcd.alike.kind_eq hcd.alike.span_eq
    · exact heq
  exact List.inj_on_of_nodup_map (hd.nodup id hc) hp hq (Prod.ext hstep.kind_eq hchildren)

section Trims

variable {nodes nodes' : Arena} (h : Trims nodes nodes')
include h

theorem Trims.isIntermediate_iff {id : NodeId} : nodes'.IsIntermediate id ↔ nodes.IsIntermediate id := by
  rw [IsIntermediate, IsIntermediate, h.kind_eq]

theorem Trims.isPart_iff {id : NodeId} : nodes'.IsPart id ↔ nodes.IsPart id := by
  rw [IsPart, IsPart, h.kind_eq]

theorem Trims.childrenOf_packed {id p : NodeId} (hl : nodes.Layered)
    (hc : (node nodes id).isChoice = true) (hp : p ∈ childrenOf nodes' id) :
    childrenOf nodes' p = childrenOf nodes p := by
  obtain ⟨A, alt, hk⟩ := Node.isPacked_iff.1 (hl.isPacked id hc p (h.mem_children hp))
  exact h.children_eq p (by rw [Node.isChoice, hk]; exact Bool.false_ne_true)

theorem Distinct.trims (hd : nodes.Distinct) (hl : nodes.Layered) : nodes'.Distinct := by
  have hchoice : ∀ {id}, (node nodes' id).isChoice = true → (node nodes id).isChoice = true :=
    fun hc => h.toSameHeads.isChoice_eq _ ▸ hc
  refine ⟨fun id hc p hp p' hp' c hcp c' hcp' hpart hk hs => ?_, fun id hc => ?_⟩
  · rw [h.childrenOf_packed hl (hchoice hc) hp] at hcp
    rw [h.childrenOf_packed hl (hchoice hc) hp'] at hcp'
    rw [h.kind_eq, h.kind_eq] at hk
    rw [h.span_eq, h.span_eq] at hs
    exact hd.part id (hchoice hc) p (h.mem_children hp) p' (h.mem_children hp') c hcp c' hcp'
      (h.isPart_iff.1 hpart) hk hs
  · have hmap : (childrenOf nodes' id).map (fun p => ((node nodes' p).kind, childrenOf nodes' p)) =
        (childrenOf nodes' id).map fun p => ((node nodes p).kind, childrenOf nodes p) :=
      List.map_congr_left fun p hp => by rw [h.kind_eq, h.childrenOf_packed hl (hchoice hc) hp]
    rw [hmap]
    exact ((h.sublist id).map _).nodup (hd.nodup id (hchoice hc))

theorem ShapesEnd.trims (hend : nodes.ShapesEnd) : nodes'.ShapesEnd := by
  refine fun id hcycle => hend id (Relation.TransGen.mono (fun a b hab => ?_) _ _ hcycle)
  obtain ⟨hb, hor⟩ := hab
  refine ⟨h.mem_children hb, ?_⟩
  rwa [h.kind_eq, h.isPart_iff] at hor

end Trims

end Arena

end ParseForest
