import ParseForest.Proofs.Forest.Shapes
import Mathlib.Data.List.Sort

/-!
# Numbers of shapes

The numbers that a table gives to nodes are those of their shapes: a node has a number only if what its
shape is made of has one (`ShapeTable.Describes`), and different shapes have different numbers
(`ShapeTable.Valid`). So nodes that have the same number are of the same shape
(`ShapeTable.sameShape_of_knows`), and where what a shape is made of is of lower rank, nodes of the same shape
have the same number (`ShapeTable.eq_of_sameShape`).
-/

namespace ParseForest

namespace ShapeTable

open Arena

section

variable (nodes : Arena) (t : ShapeTable)

/-- The table knows the number of the shape of a node. -/
def Knows (id : NodeId) (n : Nat) : Prop := t.known.getD id none = some n

/-- The part of a shape that a child makes. -/
def IsShapePart (c : NodeId) (part : ShapePart) : Prop :=
  (nodes.IsPart c ∧ ∃ n, part = .shape n ∧ t.Knows c n) ∨ (¬ nodes.IsPart c ∧ part = .node c)

/-- The shape is that of the node: its parts are the numbers of the alternatives in order, each once; or
there is one for each child. -/
structure Describes (id : NodeId) (s : Shape) : Prop where
  kind_eq : s.kind = (node nodes id).kind
  span_eq : s.span = (node nodes id).span
  alternatives : nodes.IsIntermediate id → ∃ ns, List.Forall₂ t.Knows (childrenOf nodes id) ns ∧
    s.parts = ((ns.mergeSort (· ≤ ·)).eraseDups).map .shape
  parts : ¬ nodes.IsIntermediate id →
    List.Forall₂ (t.IsShapePart nodes) (childrenOf nodes id) s.parts

/-- Different shapes have different numbers, and what is known of nodes is the number of their shape. -/
structure Valid : Prop where
  size_eq : t.known.size = nodes.size
  lt_size : ∀ (s : Shape) (n : Nat), t.numbers[s]? = some n → n < t.numbers.size
  inj : ∀ (s s' : Shape) (n : Nat), t.numbers[s]? = some n → t.numbers[s']? = some n → s = s'
  known : ∀ id n, t.Knows id n → ∃ s : Shape, t.numbers[s]? = some n ∧ t.Describes nodes id s

end

/-- The table has grown. -/
structure Grows (t t' : ShapeTable) : Prop where
  numbers : ∀ (s : Shape) (n : Nat), t.numbers[s]? = some n → t'.numbers[s]? = some n
  known : ∀ id n, t.Knows id n → t'.Knows id n

variable {nodes : Arena} {t t' t'' : ShapeTable} {a b id : NodeId} {n m : Nat} {s s' : Shape}

theorem Grows.refl (t : ShapeTable) : t.Grows t := ⟨fun _ _ h => h, fun _ _ h => h⟩

theorem Grows.trans (h : t.Grows t') (h' : t'.Grows t'') : t.Grows t'' :=
  ⟨fun s n hs => h'.numbers s n (h.numbers s n hs), fun id n hn => h'.known id n (h.known id n hn)⟩

theorem Knows.unique (h : t.Knows id n) (h' : t.Knows id m) : n = m := Option.some.inj (h.symm.trans h')

theorem IsShapePart.grows {c : NodeId} {part : ShapePart} (h : t.IsShapePart nodes c part)
    (hg : t.Grows t') : t'.IsShapePart nodes c part := by
  rcases h with ⟨hc, n, rfl, hn⟩ | h
  · exact .inl ⟨hc, n, rfl, hg.known c n hn⟩
  · exact .inr h

theorem IsShapePart.unique {c : NodeId} {part part' : ShapePart} (h : t.IsShapePart nodes c part)
    (h' : t.IsShapePart nodes c part') : part = part' := by
  rcases h with ⟨hc, n, rfl, hn⟩ | ⟨hc, rfl⟩ <;> rcases h' with ⟨hc', m, rfl, hm⟩ | ⟨hc', rfl⟩
  · rw [hn.unique hm]
  · exact absurd hc hc'
  · exact absurd hc' hc
  · rfl

theorem Describes.grows (h : t.Describes nodes id s) (hg : t.Grows t') : t'.Describes nodes id s := by
  refine ⟨h.kind_eq, h.span_eq, fun hid => ?_, fun hid => (h.parts hid).imp fun _ _ hc => hc.grows hg⟩
  obtain ⟨ns, hns, hparts⟩ := h.alternatives hid
  exact ⟨ns, hns.imp hg.known, hparts⟩

/-- A node has one shape. -/
theorem Describes.unique (h : t.Describes nodes id s) (h' : t.Describes nodes id s') : s = s' := by
  have hparts : s.parts = s'.parts := by
    by_cases hid : nodes.IsIntermediate id
    · obtain ⟨ns, hns, hparts⟩ := h.alternatives hid
      obtain ⟨ns', hns', hparts'⟩ := h'.alternatives hid
      have hunique : Relator.RightUnique t.Knows := fun _ _ _ => Knows.unique
      rw [hparts, hparts', hunique.forall₂ hns hns']
    · have hunique : Relator.RightUnique (t.IsShapePart nodes) := fun _ _ _ => IsShapePart.unique
      exact hunique.forall₂ (h.parts hid) (h'.parts hid)
  obtain ⟨kind, span, parts⟩ := s
  obtain ⟨kind', span', parts'⟩ := s'
  have hkind : kind = kind' := h.kind_eq.trans h'.kind_eq.symm
  have hspan : span = span' := h.span_eq.trans h'.span_eq.symm
  subst hkind hspan
  exact congrArg _ hparts

/-! ## Numbers and shapes -/

theorem exists_left_of_forall₂ {α β : Type} {R : α → β → Prop} {as : List α} {bs : List β}
    (h : List.Forall₂ R as bs) {b : β} (hb : b ∈ bs) : ∃ a ∈ as, R a b :=
  List.exists_right_of_forall₂ (R := flip R) (.flip h) hb

theorem mem_sortedNumbers_iff {ns : List Nat} :
    n ∈ (ns.mergeSort (· ≤ ·)).eraseDups ↔ n ∈ ns := by rw [List.mem_eraseDups, List.mem_mergeSort]

/-- The same numbers in order are the same list. -/
theorem sortedNumbers_congr {ns ms : List Nat} (h : ∀ n, n ∈ ns ↔ n ∈ ms) :
    (ns.mergeSort (· ≤ ·)).eraseDups = (ms.mergeSort (· ≤ ·)).eraseDups := by
  have hsorted : ∀ ns : List Nat, ((ns.mergeSort (· ≤ ·)).eraseDups).Pairwise (· ≤ ·) := by
    intro ns
    have hall := @List.pairwise_mergeSort Nat (fun a b => decide (a ≤ b))
      (fun a b c => by simpa using Nat.le_trans) (fun a b => by simpa using Nat.le_total a b) ns
    exact (hall.imp fun hle => by simpa using hle).sublist (List.eraseDups_sublist _)
  refine List.Perm.eq_of_pairwise' (hsorted ns) (hsorted ms) ?_
  rw [List.perm_ext_iff_of_nodup (List.nodup_eraseDups _) (List.nodup_eraseDups _)]
  intro n
  rw [mem_sortedNumbers_iff, mem_sortedNumbers_iff, h]

/-- Nodes that are described by one shape are alike, as far as those that share a number are. -/
theorem Describes.alike (h : t.Describes nodes a s) (h' : t.Describes nodes b s) :
    nodes.AlikeUpTo (fun x y => ∃ n, t.Knows x n ∧ t.Knows y n) a b := by
  have hkind := h.kind_eq.symm.trans h'.kind_eq
  refine ⟨hkind, h.span_eq.symm.trans h'.span_eq, fun ha => ?_, fun ha => ?_⟩
  · obtain ⟨ns, hns, hparts⟩ := h.alternatives ha
    obtain ⟨ms, hms, hparts'⟩ := h'.alternatives ((isIntermediate_congr hkind).1 ha)
    have hmem : ∀ n, n ∈ ns ↔ n ∈ ms := by
      have heq := List.map_injective_iff.2 (fun _ _ => ShapePart.shape.inj) (hparts.symm.trans hparts')
      intro n
      rw [← mem_sortedNumbers_iff, heq, mem_sortedNumbers_iff]
    refine ⟨fun p hp => ?_, fun q hq => ?_⟩
    · obtain ⟨n, hn, hpn⟩ := List.exists_right_of_forall₂ hns hp
      obtain ⟨q, hq, hqn⟩ := exists_left_of_forall₂ hms ((hmem n).1 hn)
      exact ⟨q, hq, n, hpn, hqn⟩
    · obtain ⟨n, hn, hqn⟩ := List.exists_right_of_forall₂ hms hq
      obtain ⟨p, hp, hpn⟩ := exists_left_of_forall₂ hns ((hmem n).2 hn)
      exact ⟨p, hp, n, hpn, hqn⟩
  · have hparts' := h'.parts fun hb => ha ((isIntermediate_congr hkind).2 hb)
    refine forall₂_trans (h.parts ha) hparts'.flip fun c part d hc hd => ?_
    rcases hc with ⟨hcpart, n, rfl, hcn⟩ | ⟨hcpart, rfl⟩
    · rcases hd with ⟨-, m, hm, hdm⟩ | ⟨-, hm⟩
      · obtain rfl := ShapePart.shape.inj hm
        exact .inl ⟨hcpart, n, hcn, hdm⟩
      · cases hm
    · rcases hd with ⟨-, m, hm, -⟩ | ⟨-, hm⟩
      · cases hm
      · exact .inr ⟨hcpart, ShapePart.node.inj hm⟩

/-- Nodes that share a number are of the same shape. -/
theorem sameShape_of_knows (hv : t.Valid nodes) (ha : t.Knows a n) (hb : t.Knows b n) :
    nodes.SameShape a b := by
  refine ⟨fun x y => ∃ n, t.Knows x n ∧ t.Knows y n, ?_, n, ha, hb⟩
  rintro x y ⟨n, hx, hy⟩
  obtain ⟨s, hs, hxs⟩ := hv.known x n hx
  obtain ⟨s', hs', hys⟩ := hv.known y n hy
  obtain rfl := hv.inj s s' n hs hs'
  exact hxs.alike hys

/-- What is looked at for shapes is of lower rank. -/
structure ShapesRanked (nodes : Arena) (S : NodeId → Prop) (rank : NodeId → Nat) : Prop where
  closed : ∀ id, S id → ∀ c ∈ childrenOf nodes id, S c
  lt_size : ∀ id, S id → id < nodes.size
  lt : ∀ id, S id → ∀ c, nodes.ShapeChild id c → rank c < rank id
  le_size : ∀ id, rank id ≤ nodes.size

section

variable {S : NodeId → Prop} {rank : NodeId → Nat} (hr : ShapesRanked nodes S rank)
include hr

/-- Nodes of the same shape have the same number. -/
theorem eq_of_sameShape (hv : t.Valid nodes) (ha : S a) (h : nodes.SameShape a b) (hn : t.Knows a n)
    (hm : t.Knows b m) : n = m := by
  induction hi : rank a using Nat.strongRecOn generalizing a b n m with
  | ind i ih =>
    subst hi
    have hchild : ∀ c d n m, nodes.ShapeChild a c → nodes.SameShape c d → t.Knows c n → t.Knows d m → n = m :=
      fun c d n m hc hcd hn hm => ih _ (hr.lt a ha c hc) (hr.closed a ha c hc.1) hcd hn hm rfl
    obtain ⟨s, hs, has⟩ := hv.known a n hn
    obtain ⟨s', hs', hbs⟩ := hv.known b m hm
    have hstep := h.alike
    have hkind := hstep.kind_eq
    -- the shape of the one node is that of the other
    have hsame : t.Describes nodes a s' := by
      refine ⟨hbs.kind_eq.trans hkind.symm, hbs.span_eq.trans hstep.span_eq.symm, fun hai => ?_, fun hai => ?_⟩
      · obtain ⟨ns, hns, -⟩ := has.alternatives hai
        obtain ⟨ms, hms, hparts⟩ := hbs.alternatives ((isIntermediate_congr hkind).1 hai)
        refine ⟨ns, hns, hparts.trans (congrArg _ (sortedNumbers_congr fun k => ⟨fun hk => ?_, fun hk => ?_⟩))⟩
        · obtain ⟨q, hq, hqk⟩ := exists_left_of_forall₂ hms hk
          obtain ⟨p, hp, hpq⟩ := (hstep.alternatives hai).2 q hq
          obtain ⟨l, hl, hpl⟩ := List.exists_right_of_forall₂ hns hp
          exact hchild p q l k ⟨hp, .inl hai⟩ hpq hpl hqk ▸ hl
        · obtain ⟨p, hp, hpk⟩ := exists_left_of_forall₂ hns hk
          obtain ⟨q, hq, hpq⟩ := (hstep.alternatives hai).1 p hp
          obtain ⟨l, hl, hql⟩ := List.exists_right_of_forall₂ hms hq
          exact hchild p q k l ⟨hp, .inl hai⟩ hpq hpk hql ▸ hl
      · have hparts := (List.forall₂_and_left _ _).2 ⟨fun c hc => hc, hstep.parts hai⟩
        have hparts' := hbs.parts fun hb => hai ((isIntermediate_congr hkind).2 hb)
        refine forall₂_trans hparts hparts' fun c d part hcd hd => ?_
        rcases hcd with ⟨hc, ⟨hcpart, hcd⟩ | ⟨-, rfl⟩⟩
        · obtain ⟨_, -, hck⟩ := List.exists_right_of_forall₂ (has.parts hai) hc
          rcases hck with ⟨-, k, -, hck⟩ | ⟨hnot, -⟩
          · rcases hd with ⟨-, l, rfl, hdl⟩ | ⟨hnot, -⟩
            · exact .inl ⟨hcpart, l, rfl, hchild c d k l ⟨hc, .inr hcpart⟩ hcd hck hdl ▸ hck⟩
            · exact absurd ((isPart_congr hcd.alike.kind_eq).1 hcpart) hnot
          · exact absurd hcpart hnot
        · exact hd
    obtain rfl := has.unique hsame
    exact Option.some.inj (hs.symm.trans hs')

end

/-! ## Making numbers -/

theorem valid_empty (nodes : Arena) : (ShapeTable.empty nodes.size).Valid nodes := by
  refine ⟨by simp [empty], by simp [empty], by simp [empty], fun id n h => ?_⟩
  simp only [Knows, empty, Array.getD_eq_getD_getElem?, Array.getElem?_replicate] at h
  split at h <;> cases h

/-- What is known when the number of the shape of a node is noted. -/
theorem Valid.note (hv : t.Valid nodes) (hid : id < nodes.size) (hd : t.Describes nodes id s)
    {numbers : Std.HashMap Shape Nat} (hn : numbers[s]? = some n)
    (hkeep : ∀ (s : Shape) (n : Nat), t.numbers[s]? = some n → numbers[s]? = some n)
    (hlt : ∀ (s : Shape) (n : Nat), numbers[s]? = some n → n < numbers.size)
    (hinj : ∀ (s s' : Shape) (n : Nat), numbers[s]? = some n → numbers[s']? = some n → s = s') :
    ShapeTable.Valid nodes ⟨numbers, t.known.setIfInBounds id (some n)⟩ ∧
      t.Grows ⟨numbers, t.known.setIfInBounds id (some n)⟩ ∧
      ShapeTable.Knows ⟨numbers, t.known.setIfInBounds id (some n)⟩ id n := by
  have hknown : ∀ i m, ShapeTable.Knows ⟨numbers, t.known.setIfInBounds id (some n)⟩ i m ↔
      if i = id then n = m else t.Knows i m := by
    intro i m
    rw [Knows, Array.getD_setIfInBounds]
    simp only [hv.size_eq, hid, and_true]
    split
    · exact Option.some_inj
    · rfl
  have hgrows : t.Grows ⟨numbers, t.known.setIfInBounds id (some n)⟩ := by
    refine ⟨hkeep, fun i m hm => (hknown i m).2 ?_⟩
    split
    · -- the node has been described before, by the same shape
      rename_i he
      subst he
      obtain ⟨s', hs', hd'⟩ := hv.known i m hm
      obtain rfl := hd.unique hd'
      exact Option.some.inj (hn.symm.trans (hkeep s m hs'))
    · exact hm
  refine ⟨⟨by simp [hv.size_eq], hlt, hinj, fun i m hm => ?_⟩, hgrows, (hknown id n).2 (by rw [if_pos rfl])⟩
  rw [hknown] at hm
  split at hm
  · rename_i he
    subst he hm
    exact ⟨s, hn, hd.grows hgrows⟩
  · obtain ⟨s', hs', hd'⟩ := hv.known i m hm
    exact ⟨s', hkeep s' m hs', hd'.grows hgrows⟩

/-- The shape of a node is given a number. -/
theorem Valid.intern (hv : t.Valid nodes) (hid : id < nodes.size) (hd : t.Describes nodes id s) :
    (t.intern s id).2.Valid nodes ∧ t.Grows (t.intern s id).2 ∧
      (t.intern s id).2.Knows id (t.intern s id).1 := by
  cases hn : t.numbers[s]? with
  | some n =>
    simp only [ShapeTable.intern, hn]
    exact hv.note hid hd hn (fun _ _ h => h) hv.lt_size hv.inj
  | none =>
    simp only [ShapeTable.intern, hn]
    have hnew : s ∉ t.numbers := by
      intro hmem
      rw [Std.HashMap.getElem?_eq_some_getElem hmem] at hn
      cases hn
    have hget : ∀ (s' : Shape) (n : Nat), (t.numbers.insert s t.numbers.size)[s']? = some n →
        (s' = s ∧ n = t.numbers.size) ∨ t.numbers[s']? = some n := by
      intro s' n h
      rw [Std.HashMap.getElem?_insert] at h
      split at h
      · rename_i he
        exact .inl ⟨(eq_of_beq he).symm, (Option.some.inj h).symm⟩
      · exact .inr h
    have hkeep : ∀ (s' : Shape) (n : Nat), t.numbers[s']? = some n →
        (t.numbers.insert s t.numbers.size)[s']? = some n := by
      intro s' n h
      rw [Std.HashMap.getElem?_insert, if_neg]
      · exact h
      · intro he
        rw [← eq_of_beq he, hn] at h
        cases h
    refine hv.note hid hd (by simp) hkeep (fun s' n h => ?_) fun s₁ s₂ n h₁ h₂ => ?_
    · rw [Std.HashMap.size_insert, if_neg hnew]
      rcases hget s' n h with ⟨-, rfl⟩ | h
      · exact Nat.lt_succ_self _
      · exact Nat.lt_succ_of_lt (hv.lt_size s' n h)
    · rcases hget s₁ n h₁ with ⟨rfl, hm₁⟩ | hold₁ <;> rcases hget s₂ n h₂ with ⟨rfl, hm₂⟩ | hold₂
      · rfl
      · have := hv.lt_size s₂ n hold₂
        omega
      · have := hv.lt_size s₁ n hold₁
        omega
      · exact hv.inj s₁ s₂ n hold₁ hold₂

/-- A function on the items of a list that keeps the table valid and answers something that stays
true. -/
theorem mapList_spec {α β : Type} {f : α → ShapeTable → β × ShapeTable}
    {Q : ShapeTable → α → β → Prop} (hQ : ∀ {t t' a b}, Q t a b → t.Grows t' → Q t' a b) (as : List α)
    (hf : ∀ a ∈ as, ∀ t : ShapeTable, t.Valid nodes →
      (f a t).2.Valid nodes ∧ t.Grows (f a t).2 ∧ Q (f a t).2 a (f a t).1) (hv : t.Valid nodes) :
    (mapList f as t).2.Valid nodes ∧ t.Grows (mapList f as t).2 ∧
      List.Forall₂ (Q (mapList f as t).2) as (mapList f as t).1 := by
  induction as generalizing t with
  | nil => exact ⟨hv, .refl t, .nil⟩
  | cons a as ih =>
    obtain ⟨hv₁, hg₁, hq⟩ := hf a (.head _) t hv
    obtain ⟨hv₂, hg₂, hqs⟩ := ih (fun b hb => hf b (.tail _ hb)) hv₁
    exact ⟨hv₂, hg₁.trans hg₂, .cons (hQ hq hg₂) hqs⟩

theorem part_of_isPart {shapeOf : NodeId → ShapeTable → Nat × ShapeTable} (h : nodes.IsPart id) :
    part nodes shapeOf id t = (.shape (shapeOf id t).1, (shapeOf id t).2) := by
  rcases h with ⟨A, alt, dot, hk⟩ | ⟨A, alt, dot, hk⟩ <;> simp only [part, hk]

theorem part_of_not_isPart {shapeOf : NodeId → ShapeTable → Nat × ShapeTable} (h : ¬ nodes.IsPart id) :
    part nodes shapeOf id t = (.node id, t) := by
  simp only [part]
  split
  · rename_i hk
    exact absurd (.inl ⟨_, _, _, hk⟩) h
  · rename_i hk
    exact absurd (.inr ⟨_, _, _, hk⟩) h
  · rfl

/-- With fuel above its rank, a node is given the number of its shape. -/
theorem shapeOf_spec {S : NodeId → Prop} {rank : NodeId → Nat} (hr : ShapesRanked nodes S rank)
    (fuel : Nat) (hfuel : rank id < fuel) (hid : S id) (hv : t.Valid nodes) :
    (shapeOf nodes fuel id t).2.Valid nodes ∧ t.Grows (shapeOf nodes fuel id t).2 ∧
      (shapeOf nodes fuel id t).2.Knows id (shapeOf nodes fuel id t).1 := by
  induction fuel generalizing id t with
  | zero => exact absurd hfuel (Nat.not_lt_zero _)
  | succ fuel ih =>
    have hlt := hr.lt_size id hid
    have hchild : ∀ c, nodes.ShapeChild id c → ∀ t : ShapeTable, t.Valid nodes →
        (shapeOf nodes fuel c t).2.Valid nodes ∧ t.Grows (shapeOf nodes fuel c t).2 ∧
        (shapeOf nodes fuel c t).2.Knows c (shapeOf nodes fuel c t).1 := by
      intro c hc t hv
      have hrank := hr.lt id hid c hc
      exact ih (by omega) (hr.closed id hid c hc.1) hv
    cases hknown : t.known.getD id none with
    | some n =>
      simp only [shapeOf, hknown]
      exact ⟨hv, .refl t, hknown⟩
    | none =>
      by_cases hinter : nodes.IsIntermediate id
      · obtain ⟨hv₁, hg₁, hns⟩ := mapList_spec (Q := Knows) (fun h hg => hg.known _ _ h)
          (childrenOf nodes id) (fun c hc => hchild c ⟨hc, .inl hinter⟩) hv
        have h : shapeOf nodes (fuel + 1) id t =
            ShapeTable.intern ⟨(node nodes id).kind, (node nodes id).span,
              (((mapList (shapeOf nodes fuel) (childrenOf nodes id) t).1.mergeSort
                (· ≤ ·)).eraseDups).map .shape⟩ id
              (mapList (shapeOf nodes fuel) (childrenOf nodes id) t).2 := by
          obtain ⟨A, alt, dot, hk⟩ := hinter
          simp only [shapeOf, hknown, hk]
          rfl
        rw [h]
        obtain ⟨hv₂, hg₂, hn⟩ := hv₁.intern (s := ⟨_, _, _⟩) hlt
          ⟨rfl, rfl, fun _ => ⟨_, hns, rfl⟩, fun hnot => absurd hinter hnot⟩
        exact ⟨hv₂, hg₁.trans hg₂, hn⟩
      · have hpart : ∀ c ∈ childrenOf nodes id, ∀ t : ShapeTable, t.Valid nodes →
            (part nodes (shapeOf nodes fuel) c t).2.Valid nodes ∧
            t.Grows (part nodes (shapeOf nodes fuel) c t).2 ∧
            (part nodes (shapeOf nodes fuel) c t).2.IsShapePart nodes c
              (part nodes (shapeOf nodes fuel) c t).1 := by
          intro c hc t hv
          by_cases hcpart : nodes.IsPart c
          · obtain ⟨hv', hg', hn⟩ := hchild c ⟨hc, .inr hcpart⟩ t hv
            rw [part_of_isPart hcpart]
            exact ⟨hv', hg', .inl ⟨hcpart, _, rfl, hn⟩⟩
          · rw [part_of_not_isPart hcpart]
            exact ⟨hv, .refl t, .inr ⟨hcpart, rfl⟩⟩
        obtain ⟨hv₁, hg₁, hparts⟩ := mapList_spec (Q := fun t => t.IsShapePart nodes)
          (fun h hg => h.grows hg) (childrenOf nodes id) hpart hv
        have h : shapeOf nodes (fuel + 1) id t =
            ShapeTable.intern ⟨(node nodes id).kind, (node nodes id).span,
              (mapList (part nodes (shapeOf nodes fuel)) (childrenOf nodes id) t).1⟩ id
              (mapList (part nodes (shapeOf nodes fuel)) (childrenOf nodes id) t).2 := by
          simp only [shapeOf, hknown]
          split
          · rename_i hk
            exact absurd ⟨_, _, _, hk⟩ hinter
          · rfl
        rw [h]
        obtain ⟨hv₂, hg₂, hn⟩ := hv₁.intern (s := ⟨_, _, _⟩) hlt
          ⟨rfl, rfl, fun h => absurd h hinter, fun _ => hparts⟩
        exact ⟨hv₂, hg₁.trans hg₂, hn⟩

end ShapeTable

end ParseForest
