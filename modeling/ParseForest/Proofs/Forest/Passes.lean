import ParseForest.Forest.Basic
import ParseForest.Proofs.Forest.Sound

/-!
# Passes keep arenas sound

A pass does one of two things to a sound arena. It takes alternatives away from choices
(`Arena.Trims`): what is left was sound before. Or it replaces the children of a packed node by what
they stand for (`covers_flatMap_spliced`): they still cover the same symbols. Neither touches kinds
and spans, so every node goes on standing for what it stood for.
-/

namespace ParseForest

namespace Arena

variable {g : Grammar} {m : TerminalMatcher} {tokens : TokenStream} {nodes nodes' nodes'' : Arena}

/-- Choices may have lost alternatives; nothing else has changed. -/
structure Trims (nodes nodes' : Arena) : Prop extends SameHeads nodes nodes' where
  sublist : ∀ id, (childrenOf nodes' id).Sublist (childrenOf nodes id)
  children_eq : ∀ id, ¬ (node nodes id).isChoice = true → childrenOf nodes' id = childrenOf nodes id

theorem Trims.refl (nodes : Arena) : Trims nodes nodes :=
  ⟨.refl nodes, fun _ => .refl _, fun _ _ => rfl⟩

theorem Trims.mem_children (h : Trims nodes nodes') {id p : NodeId} (hp : p ∈ childrenOf nodes' id) :
    p ∈ childrenOf nodes id := (h.sublist id).subset hp

theorem Trims.trans (h : Trims nodes nodes') (h' : Trims nodes' nodes'') : Trims nodes nodes'' where
  toSameHeads := h.toSameHeads.trans h'.toSameHeads
  sublist id := (h'.sublist id).trans (h.sublist id)
  children_eq id hc :=
    (h'.children_eq id (by rwa [h.toSameHeads.isChoice_eq])).trans (h.children_eq id hc)

theorem sameHeads_setChildren (id : NodeId) (children : Array NodeId) :
    SameHeads nodes (setChildren nodes id children) := by
  have hnode : ∀ id', ∃ children', node (setChildren nodes id children) id' =
      { node nodes id' with children := children' } := by
    intro id'
    by_cases h : id = id'
    · subst h
      by_cases hlt : id < nodes.size
      · exact ⟨_, node_setChildren_self hlt⟩
      · rw [node_of_size_le (by simpa using hlt), node_of_size_le (Nat.not_lt.1 hlt)]
        exact ⟨_, rfl⟩
    · exact ⟨_, node_setChildren_ne h⟩
  refine ⟨by simp, fun id' => ?_, fun id' => ?_⟩ <;> obtain ⟨_, he⟩ := hnode id' <;> rw [he]

theorem childrenOf_setChildren_ne {id id' : NodeId} {children : Array NodeId} (h : id ≠ id') :
    childrenOf (setChildren nodes id children) id' = childrenOf nodes id' := by
  rw [childrenOf, node_setChildren_ne h]
  rfl

theorem childrenOf_setChildren_self {id : NodeId} {children : Array NodeId}
    (h : id < nodes.size) : childrenOf (setChildren nodes id children) id = children.toList := by
  rw [childrenOf, node_setChildren_self h]

/-- Taking alternatives away from a choice. -/
theorem trims_setChildren {id : NodeId} {children : Array NodeId}
    (hc : (node nodes id).isChoice = true) (hsub : children.toList.Sublist (childrenOf nodes id)) :
    Trims nodes (setChildren nodes id children) := by
  refine ⟨sameHeads_setChildren id children, fun id' => ?_, fun id' hc' => ?_⟩
  · by_cases h : id = id'
    · subst h
      rwa [childrenOf_setChildren_self (lt_size_of_isChoice hc)]
    · rw [childrenOf_setChildren_ne h]
  · exact childrenOf_setChildren_ne fun h => hc' (h ▸ hc)

/-- Taking alternatives away keeps an arena sound. -/
theorem Sound.trims (hs : Sound g m tokens nodes) (h : Trims nodes nodes') :
    Sound g m tokens nodes' := by
  have hheads := h.toSameHeads
  have halt : ∀ {A alt dot l r p}, IsAlternative g m tokens nodes A alt dot l r p →
      IsAlternative g m tokens nodes' A alt dot l r p := by
    rintro A alt dot l r p ⟨hk, hc⟩
    refine ⟨(h.kind_eq p).trans hk, ?_⟩
    rw [h.children_eq p (by rw [Node.isChoice, hk]; exact Bool.false_ne_true)]
    exact hc.congr hheads
  refine ⟨(h.kind_eq _).trans hs.epsilon, fun id A hk p hp => ?_, fun id A alt dot l r hk hspan p hp => ?_,
    fun id A alt dot l hk => ?_⟩
  · rw [h.kind_eq] at hk
    obtain ⟨alt, hlt, hall⟩ := hs.symbol id A hk p (h.mem_children hp)
    refine ⟨alt, hlt, fun l r hspan => halt (hall l r ?_)⟩
    rwa [h.span_eq] at hspan
  · rw [h.kind_eq] at hk
    rw [h.span_eq] at hspan
    exact halt (hs.intermediate id A alt dot l r hk hspan p (h.mem_children hp))
  · rw [h.kind_eq] at hk
    rw [h.children_eq id (by rw [Node.isChoice, hk]; exact Bool.false_ne_true)]
    exact (hs.nulled id A alt dot l hk).congr hheads

/-- Replacing the children of a packed node by others that cover the same keeps an arena sound. -/
theorem Sound.splice (hs : Sound g m tokens nodes) {id : NodeId} {children : Array NodeId}
    (hp : (node nodes id).isPacked = true) (hcov : ∀ A alt dot l r,
      Covers g m tokens nodes A alt dot l r (childrenOf nodes id) →
      Covers g m tokens nodes A alt dot l r children.toList) :
    Sound g m tokens (setChildren nodes id children) := by
  have hheads : SameHeads nodes (setChildren nodes id children) := sameHeads_setChildren id children
  have hother : ∀ id', ¬ (node nodes id').isPacked = true →
      childrenOf (setChildren nodes id children) id' = childrenOf nodes id' := fun id' h =>
    childrenOf_setChildren_ne fun he => h (he ▸ hp)
  have halt : ∀ {A alt dot l r p}, IsAlternative g m tokens nodes A alt dot l r p →
      IsAlternative g m tokens (setChildren nodes id children) A alt dot l r p := by
    rintro A alt dot l r p ⟨hk, hc⟩
    refine ⟨(hheads.kind_eq p).trans hk, ?_⟩
    by_cases h : id = p
    · subst h
      have hlt : id < nodes.size := lt_size_of_kind (by rw [hk]; simp)
      rw [childrenOf_setChildren_self hlt]
      exact (hcov A alt dot l r hc).congr hheads
    · rw [childrenOf_setChildren_ne h]
      exact hc.congr hheads
  refine ⟨(hheads.kind_eq _).trans hs.epsilon, fun id' A hk p hp' => ?_,
    fun id' A alt dot l r hk hspan p hp' => ?_, fun id' A alt dot l hk => ?_⟩
  · rw [hheads.kind_eq] at hk
    rw [hother id' (by rw [Node.isPacked, hk]; exact Bool.false_ne_true)] at hp'
    obtain ⟨alt, hlt, hall⟩ := hs.symbol id' A hk p hp'
    refine ⟨alt, hlt, fun l r hspan => halt (hall l r ?_)⟩
    rwa [hheads.span_eq] at hspan
  · rw [hheads.kind_eq] at hk
    rw [hheads.span_eq] at hspan
    rw [hother id' (by rw [Node.isPacked, hk]; exact Bool.false_ne_true)] at hp'
    exact halt (hs.intermediate id' A alt dot l r hk hspan p hp')
  · rw [hheads.kind_eq] at hk
    rw [hother id' (by rw [Node.isPacked, hk]; exact Bool.false_ne_true)]
    exact (hs.nulled id' A alt dot l hk).congr hheads

end Arena

namespace Pass

open Arena

variable {g : Grammar} {m : TerminalMatcher} {tokens : TokenStream} {nodes : Arena} {root : NodeId}

theorem mem_liveNodes_iff {n : Node} {id : NodeId} :
    (n, id) ∈ liveNodes nodes root ↔
      id < nodes.size ∧ n = node nodes id ∧ (live nodes root).getD id false = true := by
  rw [liveNodes, Array.zipIdx_toList nodes default]
  simp only [List.mem_filter, List.mem_map, List.mem_range, Prod.mk.injEq]
  constructor
  · rintro ⟨⟨id, hid, rfl, rfl⟩, hlive⟩
    exact ⟨hid, rfl, hlive⟩
  · rintro ⟨hid, rfl, hlive⟩
    exact ⟨⟨id, hid, rfl, rfl⟩, hlive⟩

/-- Edits that take alternatives away from choices trim the arena. -/
theorem trims_applyEdits (edits : List (NodeId × Array NodeId))
    (h : ∀ x ∈ edits, (node nodes x.1).isChoice = true ∧
      x.2.toList.Sublist (childrenOf nodes x.1)) :
    Trims nodes (applyEdits nodes edits).1 := by
  refine List.foldlRecOn (motive := fun current => Trims nodes current) edits _ (.refl nodes)
    fun current hc x hx => ?_
  obtain ⟨hchoice, hsub⟩ := h x hx
  have hheads := hc.toSameHeads.trans (@sameHeads_setChildren current x.1 x.2)
  refine ⟨hheads, fun id => ?_, fun id hid => ?_⟩
  · by_cases he : x.1 = id
    · subst he
      rwa [childrenOf_setChildren_self (by rw [hc.size_eq]; exact lt_size_of_isChoice hchoice)]
    · rw [childrenOf_setChildren_ne he]
      exact hc.sublist id
  · rw [childrenOf_setChildren_ne fun (he : x.1 = id) => hid (he ▸ hchoice)]
    exact hc.children_eq id hid

/-! ## Collapsing -/

/-- What is spliced in for the children of an alternative covers the same symbols. -/
theorem covers_flatMap_spliced (hs : Sound g m tokens nodes) (fuel : Nat) {A : RuleId}
    {alt dot l r : Nat} {cs : List NodeId} (h : Covers g m tokens nodes A alt dot l r cs) :
    Covers g m tokens nodes A alt dot l r (cs.flatMap (spliced nodes fuel)) := by
  induction fuel generalizing dot l r cs with
  | zero =>
    have : spliced nodes 0 = fun c => [c] := rfl
    rwa [this, List.flatMap_singleton']
  | succ fuel ih =>
    have hplain : ∀ {c : NodeId}, splice? nodes c = none → spliced nodes (fuel + 1) c = [c] := by
      intro c hc
      rw [spliced, hc]
    induction h with
    | done l => exact .done l
    | epsilon hk _ ih' =>
      rw [List.flatMap_cons, hplain (by rw [splice?, hk])]
      exact .epsilon hk ih'
    | symbol hx hc _ ih' =>
      rw [List.flatMap_cons, hplain (by
        rcases hc.kind_cases with ⟨_, hk⟩ | ⟨_, hk⟩ <;> rw [splice?, hk])]
      exact .symbol hx hc ih'
    | @intermediate dot l r c hk hspan =>
      rw [List.flatMap_singleton]
      cases hc : splice? nodes c with
      | none =>
        rw [hplain hc]
        exact .intermediate hk hspan
      | some only =>
        rw [spliced, hc]
        have hmem : only ∈ childrenOf nodes c := by
          simp only [splice?, hk] at hc
          split at hc
          · rename_i hlist
            obtain rfl := Option.some.inj hc
            rw [childrenOf, hlist]
            exact .head _
          · cases hc
        exact ih (hs.intermediate c A alt dot l r hk hspan only hmem).2
    | @nulled dot l c hk =>
      rw [List.flatMap_singleton]
      have hc : splice? nodes c = some c := by rw [splice?, hk]
      rw [spliced, hc]
      exact ih (hs.nulled c A alt dot l hk)

theorem covers_flatChildren (hs : Sound g m tokens nodes) {id : NodeId} {A : RuleId}
    {alt dot l r : Nat} (h : Covers g m tokens nodes A alt dot l r (childrenOf nodes id)) :
    Covers g m tokens nodes A alt dot l r (flatChildren nodes id).toList := by
  have hflat := covers_flatMap_spliced hs (nodes.size + 1) h
  rw [flatChildren]
  split
  · rename_i hnil
    rw [hnil] at hflat
    exact .epsilon hs.epsilon hflat
  · exact hflat

theorem sound_collapseAll (ids : List NodeId) {nodes : Arena} {changed : Bool}
    (hs : Sound g m tokens nodes) :
    Sound g m tokens (collapseAll ids nodes changed).1 ∧
      SameHeads nodes (collapseAll ids nodes changed).1 := by
  induction ids generalizing nodes changed with
  | nil => exact ⟨hs, .refl nodes⟩
  | cons id ids ih =>
    rw [collapseAll]
    split
    · rename_i hneeds
      have hpacked := (Bool.and_eq_true_iff.1 hneeds).1
      have hsplice : Sound g m tokens (setChildren nodes id (flatChildren nodes id)) :=
        hs.splice hpacked fun A alt dot l r h => covers_flatChildren hs h
      obtain ⟨hs', hheads⟩ := @ih _ true hsplice
      exact ⟨hs', (sameHeads_setChildren _ _).trans hheads⟩
    · exact ih hs

/-! ## The passes -/

/-- The pass keeps arenas sound, and nodes stand for what they stood for. -/
def Keeps (pass : Pass) : Prop :=
  ∀ (g : Grammar) (m : TerminalMatcher) (tokens : TokenStream) (root : NodeId) (nodes : Arena),
    Sound g m tokens nodes →
    Sound g m tokens (pass.run g root nodes).1 ∧ SameHeads nodes (pass.run g root nodes).1

theorem keeps_of_trims {pass : Pass} (h : ∀ g root nodes, Trims nodes (pass.run g root nodes).1) :
    pass.Keeps := fun g _ _ root nodes hs =>
  ⟨hs.trims (h g root nodes), (h g root nodes).toSameHeads⟩

theorem trims_pruneDead (g : Grammar) (root : NodeId) (nodes : Arena) :
    Trims nodes (pruneDead.run g root nodes).1 := by
  refine trims_applyEdits _ fun x hx => ?_
  obtain ⟨⟨n, id⟩, hmem, he⟩ := List.mem_filterMap.1 hx
  obtain ⟨-, rfl, -⟩ := mem_liveNodes_iff.1 hmem
  dsimp only at he
  split at he
  · rename_i hc
    obtain rfl := Option.some.inj he
    refine ⟨(Bool.and_eq_true_iff.1 hc).1, ?_⟩
    rw [Array.toList_filter]
    exact List.filter_sublist
  · cases he

theorem pruneDead_keeps : pruneDead.Keeps := keeps_of_trims trims_pruneDead

theorem distinctShapes_sublist (ids : List NodeId) {seen : List Nat} {t : ShapeTable} :
    (distinctShapes nodes ids seen t).1.Sublist ids := by
  induction ids generalizing seen t with
  | nil => exact .slnil
  | cons i ids ih =>
    simp only [distinctShapes]
    split
    · exact ih.cons _
    · exact ih.cons_cons _

theorem trims_dedupeEquivalent (g : Grammar) (root : NodeId) (nodes : Arena) :
    Trims nodes (dedupeEquivalent.run g root nodes).1 := by
  refine trims_applyEdits _ ?_
  have hlive : ∀ x ∈ liveNodes nodes root, x.1 = node nodes x.2 := fun x hx =>
    (mem_liveNodes_iff.1 hx).2.1
  generalize liveNodes nodes root = live at hlive
  generalize ShapeTable.empty nodes.size = t
  induction live generalizing t with
  | nil => simp [dedupeEdits]
  | cons x live ih =>
    obtain ⟨n, id⟩ := x
    obtain rfl : n = node nodes id := hlive _ (.head _)
    have ih := ih fun y hy => hlive y (.tail _ hy)
    simp only [dedupeEdits]
    split
    · rename_i hc
      split
      · exact ih _
      · intro y hy
        rcases List.mem_cons.1 hy with rfl | hy
        · exact ⟨(Bool.and_eq_true_iff.1 hc).1, distinctShapes_sublist _⟩
        · exact ih _ y hy
    · exact ih _

theorem dedupeEquivalent_keeps : dedupeEquivalent.Keeps := keeps_of_trims trims_dedupeEquivalent

theorem unbeaten_sublist {children : List NodeId} :
    (unbeaten g nodes children).Sublist children := by
  simp only [unbeaten]
  split
  · exact .refl _
  · refine (List.filter_sublist.map Prod.fst).trans ?_
    rw [List.map_map]
    have hfst : ∀ (ps : List NodeId) (firsts : List (Option Sequence)) (k : Nat)
        (f : (NodeId × Option Sequence) × Nat → NodeId × Bool), (∀ x, (f x).1 = x.1.1) →
        (((ps.zip firsts).zipIdx k).map (Prod.fst ∘ f)).Sublist ps := by
      intro ps
      induction ps with
      | nil => exact fun _ _ _ _ => .slnil
      | cons p ps ih =>
        rintro (_ | ⟨first, firsts⟩) k f hf
        · exact List.nil_sublist _
        · simp only [List.zip_cons_cons, List.zipIdx_cons, List.map_cons, Function.comp_apply, hf]
          exact (ih firsts (k + 1) f hf).cons_cons p
    exact hfst _ _ _ _ fun _ => rfl

theorem trims_preferLongestList (g : Grammar) (root : NodeId) (nodes : Arena) :
    Trims nodes (preferLongestList.run g root nodes).1 := by
  refine trims_applyEdits _ fun x hx => ?_
  obtain ⟨⟨n, id⟩, hmem, he⟩ := List.mem_filterMap.1 hx
  obtain ⟨-, rfl, -⟩ := mem_liveNodes_iff.1 hmem
  dsimp only at he
  split at he
  · rename_i hc
    split at he
    · cases he
    · obtain rfl := Option.some.inj he
      exact ⟨(Bool.and_eq_true_iff.1 hc).1, unbeaten_sublist⟩
  · cases he

theorem preferLongestList_keeps : preferLongestList.Keeps := keeps_of_trims trims_preferLongestList

theorem trims_resolveNode (g : Grammar) (nodes : Arena) (id : NodeId) :
    Trims nodes (resolveNode g nodes id) := by
  rw [resolveNode]
  split
  · rename_i rule hk
    refine trims_setChildren (by rw [Node.isChoice, hk]) ?_
    rw [Array.toList_filter]
    exact List.filter_sublist
  · exact .refl nodes

theorem trims_resolvePrecedence (g : Grammar) (root : NodeId) (nodes : Arena) :
    Trims nodes (resolvePrecedence.run g root nodes).1 := by
  have hall : ∀ (ids : List NodeId) (nodes : Arena) (changed : Bool),
      Trims nodes (resolveAll g ids nodes changed).1 := by
    intro ids
    induction ids with
    | nil => exact fun nodes _ => .refl nodes
    | cons id ids ih => exact fun nodes _ => (trims_resolveNode g nodes id).trans (ih _ _)
  exact hall _ nodes false

theorem resolvePrecedence_keeps : resolvePrecedence.Keeps := keeps_of_trims trims_resolvePrecedence

theorem collapse_keeps : collapse.Keeps := fun _ _ _ _ _ hs => sound_collapseAll _ hs

/-- Nothing but the parents has changed. -/
def Relinks (nodes nodes' : Arena) : Prop :=
  nodes'.size = nodes.size ∧ ∀ id, ∃ parents, node nodes' id = { node nodes id with parents }

theorem Relinks.trans {nodes nodes' nodes'' : Arena} (h : Relinks nodes nodes')
    (h' : Relinks nodes' nodes'') : Relinks nodes nodes'' := by
  refine ⟨h'.1.trans h.1, fun id => ?_⟩
  obtain ⟨parents, he⟩ := h.2 id
  obtain ⟨parents', he'⟩ := h'.2 id
  exact ⟨parents', by rw [he', he]⟩

theorem Relinks.childrenOf_eq {nodes nodes' : Arena} (h : Relinks nodes nodes') (id : NodeId) :
    childrenOf nodes' id = childrenOf nodes id := by
  obtain ⟨parents, he⟩ := h.2 id
  rw [childrenOf, he]
  rfl

theorem Relinks.trims {nodes nodes' : Arena} (h : Relinks nodes nodes') : Trims nodes nodes' := by
  refine ⟨⟨h.1, fun id => ?_, fun id => ?_⟩, fun id => ?_, fun id _ => h.childrenOf_eq id⟩
  · obtain ⟨parents, he⟩ := h.2 id
    rw [he]
  · obtain ⟨parents, he⟩ := h.2 id
    rw [he]
  · rw [h.childrenOf_eq]

theorem relinks_clearParents (nodes : Arena) : Relinks nodes (clearParents nodes) := by
  refine ⟨by simp [clearParents], fun id => ?_⟩
  by_cases hid : id < nodes.size
  · exact ⟨#[], by simp [node, clearParents, Array.getD, hid]⟩
  · rw [node_of_size_le (by simpa [clearParents] using hid), node_of_size_le (Nat.not_lt.1 hid)]
    exact ⟨_, rfl⟩

theorem relinks_addParent (parent : NodeId) (nodes : Arena) (child : NodeId) :
    Relinks nodes (addParent parent nodes child) := by
  refine ⟨by simp [addParent], fun id => ?_⟩
  by_cases hid : child = id
  · subst hid
    by_cases hlt : child < nodes.size
    · have hself : node (addParent parent nodes child) child = if (node nodes child).parents.contains
          parent then node nodes child else { node nodes child with
            parents := (node nodes child).parents.push parent } := Array.getD_modify_self hlt
      rw [hself]
      by_cases hc : (node nodes child).parents.contains parent = true
      · exact ⟨_, if_pos hc⟩
      · exact ⟨_, if_neg hc⟩
    · rw [node_of_size_le (by simpa [addParent] using hlt), node_of_size_le (Nat.not_lt.1 hlt)]
      exact ⟨_, rfl⟩
  · rw [addParent, node, Array.getD_modify_ne hid]
    exact ⟨_, rfl⟩

/-- Linking parents changes nothing else. -/
theorem relinks_linkParents (g : Grammar) (root : NodeId) (nodes : Arena) :
    Relinks nodes (linkParents.run g root nodes).1 := by
  change Relinks nodes (linkAll root nodes)
  rw [linkAll]
  refine List.foldlRecOn (motive := fun linked => Relinks nodes linked) _ _
    (relinks_clearParents nodes) fun linked hl x _ => ?_
  dsimp only
  rw [← Array.foldl_toList]
  exact List.foldlRecOn (motive := fun linked => Relinks nodes linked) _ _ hl
    fun linked hl c _ => hl.trans (relinks_addParent x.2 linked c)

theorem linkParents_keeps : linkParents.Keeps :=
  keeps_of_trims fun g root nodes => (relinks_linkParents g root nodes).trims

theorem standard_keeps (precedence greedy : Bool) : ∀ pass ∈ standard precedence greedy,
    pass.Keeps := by
  intro pass hpass
  have hmem : pass ∈ [pruneDead, resolvePrecedence, dedupeEquivalent, preferLongestList, collapse,
      linkParents] := by
    cases precedence <;> cases greedy <;> simp only [standard] at hpass <;> simp at hpass ⊢ <;> tauto
  simp only [List.mem_cons, List.not_mem_nil, or_false] at hmem
  rcases hmem with rfl | rfl | rfl | rfl | rfl | rfl
  · exact pruneDead_keeps
  · exact resolvePrecedence_keeps
  · exact dedupeEquivalent_keeps
  · exact preferLongestList_keeps
  · exact collapse_keeps
  · exact linkParents_keeps

theorem structural_keeps : ∀ pass ∈ structural, pass.Keeps := by
  intro pass hpass
  rcases List.mem_cons.1 hpass with rfl | hpass
  · exact collapse_keeps
  · rw [List.mem_singleton.1 hpass]
    exact linkParents_keeps

/-- The arena goes from pass to pass. -/
theorem runAll_eq (passes : List Pass) (g : Grammar) (root : NodeId) (nodes : Arena) :
    (runAll passes g root nodes).1 =
      passes.foldl (fun nodes pass => (pass.run g root nodes).1) nodes :=
  (List.foldl_hom Prod.fst fun _ _ => rfl).symm

theorem runAll_keeps {passes : List Pass} (h : ∀ pass ∈ passes, pass.Keeps)
    (hs : Sound g m tokens nodes) : Sound g m tokens (runAll passes g root nodes).1 ∧
      SameHeads nodes (runAll passes g root nodes).1 := by
  rw [runAll_eq]
  refine List.foldlRecOn (motive := fun current => Sound g m tokens current ∧ SameHeads nodes current)
    _ _ ⟨hs, .refl nodes⟩ fun current hc pass hp => ?_
  obtain ⟨hs', hheads⟩ := h pass hp g m tokens root current hc.1
  exact ⟨hs', hc.2.trans hheads⟩

end Pass

end ParseForest
