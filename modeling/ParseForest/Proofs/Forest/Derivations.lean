import ParseForest.Proofs.Forest.Separating

/-!
# Derivations

A forest spells derivations: at every visit of a choice one of its alternatives is taken, whatever is taken
at other visits, and below everything else all children are visited (`Arena.Derives`). A derivation yields
trees, and the list of trees of a node is that of its derivations (`Derivation.map_trees_derivations`), which
in an arena without cycles are all there are (`Derivation.mem_derivations_iff`).
-/

namespace ParseForest

open Arena

/-- A visit of a node, with the visits below it. -/
inductive Derivation
  | visit (id : NodeId) (parts : List Derivation)

namespace Arena

mutual

/-- The derivation is one that a node spells: it takes one alternative of a choice, and everything below what
holds its children together. -/
inductive Derives (nodes : Arena) : NodeId → Derivation → Prop
  | leaf {id : NodeId} (hk : (∃ i, (node nodes id).kind = .terminal i) ∨ (node nodes id).kind = .epsilon) :
      Derives nodes id (.visit id [])
  | choice {id p : NodeId} {d : Derivation} (hc : (node nodes id).isChoice = true)
      (hp : p ∈ childrenOf nodes id) (h : Derives nodes p d) : Derives nodes id (.visit id [d])
  | whole {id : NodeId} {ds : List Derivation} (hk : (node nodes id).isPacked = true ∨
      ∃ A alt dot, (node nodes id).kind = .nulled A alt dot)
      (h : DerivesAll nodes (childrenOf nodes id) ds) : Derives nodes id (.visit id ds)

/-- There is a derivation for each node. -/
inductive DerivesAll (nodes : Arena) : List NodeId → List Derivation → Prop
  | nil : DerivesAll nodes [] []
  | cons {c : NodeId} {cs : List NodeId} {d : Derivation} {ds : List Derivation}
      (h : Derives nodes c d) (hs : DerivesAll nodes cs ds) : DerivesAll nodes (c :: cs) (d :: ds)

end

/-- Induction on what is taken at each visit. -/
theorem derives_induction {nodes : Arena} {P : NodeId → Derivation → Prop}
    {Q : List NodeId → List Derivation → Prop}
    (leaf : ∀ id, ((∃ i, (node nodes id).kind = .terminal i) ∨ (node nodes id).kind = .epsilon) →
      P id (.visit id []))
    (choice : ∀ id p d, (node nodes id).isChoice = true → p ∈ childrenOf nodes id → P p d →
      P id (.visit id [d]))
    (whole : ∀ id ds, ((node nodes id).isPacked = true ∨
      ∃ A alt dot, (node nodes id).kind = .nulled A alt dot) → Q (childrenOf nodes id) ds →
      P id (.visit id ds))
    (nil : Q [] []) (cons : ∀ c cs d ds, P c d → Q cs ds → Q (c :: cs) (d :: ds)) {id : NodeId}
    {d : Derivation} (h : nodes.Derives id d) : P id d :=
  @Derives.rec nodes (fun id d _ => P id d) (fun cs ds _ => Q cs ds) (fun hk => leaf _ hk)
    (fun hc hp _ ih => choice _ _ _ hc hp ih) (fun hk _ ih => whole _ _ hk ih) nil
    (fun _ _ ih ih' => cons _ _ _ _ ih ih') id d h

end Arena

namespace Derivation

section

variable (nodes : Arena) (g : Grammar) (tokens : TokenStream)

/-- The number of the alternative that has been taken. -/
def alternativeOf : List Derivation → Nat
  | .visit p _ :: _ =>
    match (node nodes p).kind with
    | .packed _ alt => alt
    | _ => 0
  | [] => 0

mutual

/-- The trees that a derivation yields: one for a symbol or a leaf, and one per symbol for a part of a
right-hand side. -/
def trees : Derivation → List Tree
  | .visit id parts =>
    match (node nodes id).kind with
    | .symbol A => [.rule (g.rule A).name A (alternativeOf nodes parts) (treesOfAll parts)]
    | .terminal i => (tokens.get? i).toList.map .token
    | _ => treesOfAll parts

/-- The trees that several derivations yield. -/
def treesOfAll : List Derivation → List Tree
  | [] => []
  | d :: ds => d.trees ++ treesOfAll ds

end

/-- Every choice of one derivation from each list; the first part varies fastest. -/
def pickEach : List (List Derivation) → List (List Derivation)
  | [] => [[]]
  | parts :: rest => (pickEach rest).flatMap fun back => parts.map (· :: back)

/-- The derivations of a node in the order in which trees are numbered, as deep as the fuel goes. -/
def derivations : Nat → NodeId → List Derivation
  | 0, _ => []
  | fuel + 1, id =>
    match (node nodes id).kind with
    | .symbol _ => (childrenOf nodes id).flatMap fun p => (derivations fuel p).map (.visit id [·])
    | .intermediate _ _ _ => (childrenOf nodes id).flatMap fun p => (derivations fuel p).map (.visit id [·])
    | .packed _ _ => (pickEach ((childrenOf nodes id).map (derivations fuel))).map (.visit id)
    | .nulled _ _ _ => (pickEach ((childrenOf nodes id).map (derivations fuel))).map (.visit id)
    | .terminal _ => [.visit id []]
    | .epsilon => [.visit id []]

end

variable {nodes : Arena} {g : Grammar} {tokens : TokenStream}

/-! ## The trees of derivations -/

theorem map_treesOfAll_pickEach (xs : List (List Derivation)) :
    (pickEach xs).map (treesOfAll nodes g tokens) = combine (xs.map (List.map (trees nodes g tokens))) := by
  induction xs with
  | nil => rfl
  | cons parts rest ih =>
    rw [pickEach, List.map_cons, combine, ← ih, List.map_flatMap, List.flatMap_map]
    simp only [List.map_map, Function.comp_def, treesOfAll]

theorem exists_parts_of_mem_derivations {fuel : Nat} {id : NodeId} {d : Derivation}
    (h : d ∈ derivations nodes fuel id) : ∃ parts, d = .visit id parts := by
  cases fuel with
  | zero => cases h
  | succ fuel =>
    rw [derivations] at h
    split at h
    · obtain ⟨p, -, hd⟩ := List.mem_flatMap.1 h
      obtain ⟨d', -, rfl⟩ := List.mem_map.1 hd
      exact ⟨_, rfl⟩
    · obtain ⟨p, -, hd⟩ := List.mem_flatMap.1 h
      obtain ⟨d', -, rfl⟩ := List.mem_map.1 hd
      exact ⟨_, rfl⟩
    · obtain ⟨ds, -, rfl⟩ := List.mem_map.1 h
      exact ⟨_, rfl⟩
    · obtain ⟨ds, -, rfl⟩ := List.mem_map.1 h
      exact ⟨_, rfl⟩
    · exact ⟨_, List.mem_singleton.1 h⟩
    · exact ⟨_, List.mem_singleton.1 h⟩

section

variable {nodes' : Arena}

theorem alternativeOf_congr (h : SameHeads nodes nodes') (parts : List Derivation) :
    alternativeOf nodes' parts = alternativeOf nodes parts := by
  rcases parts with _ | ⟨⟨p, _⟩, _⟩
  · rfl
  · simp only [alternativeOf, h.kind_eq]

mutual

/-- The trees of a derivation depend on the kinds of its nodes alone. -/
theorem trees_congr (h : SameHeads nodes nodes') (d : Derivation) :
    d.trees nodes' g tokens = d.trees nodes g tokens := by
  obtain ⟨id, parts⟩ := d
  simp only [trees, h.kind_eq, alternativeOf_congr h, treesOfAll_congr h parts]

theorem treesOfAll_congr (h : SameHeads nodes nodes') (ds : List Derivation) :
    treesOfAll nodes' g tokens ds = treesOfAll nodes g tokens ds := by
  cases ds with
  | nil => rfl
  | cons d ds => rw [treesOfAll, treesOfAll, trees_congr h d, treesOfAll_congr h ds]

end

end

theorem treesOfAll_singleton (d : Derivation) : treesOfAll nodes g tokens [d] = d.trees nodes g tokens := by
  rw [treesOfAll, treesOfAll, List.append_nil]

/-- The list of trees of a node is that of its derivations. -/
theorem map_trees_derivations (hl : nodes.Layered)
    (hleaf : ∀ id i, (node nodes id).kind = .terminal i → i < tokens.length) (fuel : Nat)
    (id : NodeId) :
    (derivations nodes fuel id).map (trees nodes g tokens) = nodes.readings g tokens fuel id := by
  induction fuel generalizing id with
  | zero => rfl
  | succ fuel ih =>
    have hwhole : ((pickEach ((childrenOf nodes id).map (derivations nodes fuel))).map
        (treesOfAll nodes g tokens)) = combine ((childrenOf nodes id).map (nodes.readings g tokens fuel)) := by
      rw [map_treesOfAll_pickEach, List.map_map]
      exact congrArg combine (List.map_congr_left fun c _ => ih c)
    rw [derivations, readings]
    cases hk : (node nodes id).kind with
    | symbol A =>
      dsimp only
      rw [List.map_flatMap, List.flatMap_def, List.flatMap_def]
      refine congrArg List.flatten (List.map_congr_left fun p hp => ?_)
      obtain ⟨B, alt, hpk⟩ := Node.isPacked_iff.1 (hl.isPacked id (by rw [Node.isChoice, hk]) p hp)
      simp only [hpk, ← ih, List.map_map]
      refine List.map_congr_left fun d hd => ?_
      obtain ⟨parts, rfl⟩ := exists_parts_of_mem_derivations hd
      simp only [Function.comp_apply, trees, hk, alternativeOf, hpk, treesOfAll_singleton]
    | intermediate A alt dot =>
      dsimp only
      rw [List.map_flatMap, List.flatMap_def, List.flatMap_def]
      refine congrArg List.flatten (List.map_congr_left fun p _ => ?_)
      rw [← ih, List.map_map]
      refine List.map_congr_left fun d _ => ?_
      simp only [Function.comp_apply, trees, hk, treesOfAll_singleton]
    | packed A alt =>
      dsimp only
      rw [← hwhole, List.map_map]
      refine List.map_congr_left fun ds _ => ?_
      simp only [Function.comp_apply, trees, hk]
    | nulled A alt dot =>
      dsimp only
      rw [← hwhole, List.map_map]
      refine List.map_congr_left fun ds _ => ?_
      simp only [Function.comp_apply, trees, hk]
    | terminal i =>
      obtain ⟨tok, htok⟩ : ∃ tok, tokens.get? i = some tok :=
        ⟨_, Array.getElem?_eq_getElem (hleaf id i hk)⟩
      simp [trees, hk, htok]
    | epsilon => simp only [List.map_singleton, trees, hk, treesOfAll]

/-! ## All derivations -/

theorem mem_pickEach_iff {L : NodeId → List Derivation} {cs : List NodeId} {ds : List Derivation}
    (h : ∀ c ∈ cs, ∀ d, d ∈ L c ↔ nodes.Derives c d) :
    ds ∈ pickEach (cs.map L) ↔ nodes.DerivesAll cs ds := by
  induction cs generalizing ds with
  | nil =>
    rw [List.map_nil, pickEach, List.mem_singleton]
    constructor
    · rintro rfl
      exact .nil
    · rintro ⟨⟩
      rfl
  | cons c cs ih =>
    have ih := fun {ds} => @ih ds fun d hd => h d (.tail _ hd)
    simp only [List.map_cons, pickEach, List.mem_flatMap, List.mem_map, ih]
    constructor
    · rintro ⟨back, hback, d, hd, rfl⟩
      exact .cons ((h c (.head _) d).1 hd) hback
    · rintro (_ | ⟨hd, hs⟩)
      exact ⟨_, hs, _, (h c (.head _) _).2 hd, rfl⟩

theorem derives_choice_iff {id : NodeId} {d : Derivation} (hc : (node nodes id).isChoice = true) :
    nodes.Derives id d ↔ ∃ p ∈ childrenOf nodes id, ∃ d', nodes.Derives p d' ∧ d = .visit id [d'] := by
  constructor
  · rintro (⟨hk⟩ | ⟨-, hp, h⟩ | ⟨hk, -⟩)
    · rcases hk with ⟨i, hk⟩ | hk <;> rw [Node.isChoice, hk] at hc <;> cases hc
    · exact ⟨_, hp, _, h, rfl⟩
    · rw [Node.isPacked_iff] at hk
      rcases hk with ⟨A, alt, hk⟩ | ⟨A, alt, dot, hk⟩ <;> rw [Node.isChoice, hk] at hc <;> cases hc
  · rintro ⟨p, hp, d', h, rfl⟩
    exact .choice hc hp h

theorem derives_whole_iff {id : NodeId} {d : Derivation} (hk : (node nodes id).isPacked = true ∨
      ∃ A alt dot, (node nodes id).kind = .nulled A alt dot) :
    nodes.Derives id d ↔ ∃ ds, nodes.DerivesAll (childrenOf nodes id) ds ∧ d = .visit id ds := by
  constructor
  · rw [Node.isPacked_iff] at hk
    rintro (⟨hk'⟩ | ⟨hc, -, -⟩ | ⟨-, h⟩)
    · rcases hk with ⟨A, alt, hk⟩ | ⟨A, alt, dot, hk⟩ <;> simp [hk] at hk'
    · rcases hk with ⟨A, alt, hk⟩ | ⟨A, alt, dot, hk⟩ <;> rw [Node.isChoice, hk] at hc <;> cases hc
    · exact ⟨_, h, rfl⟩
  · rintro ⟨ds, h, rfl⟩
    exact .whole hk h

theorem derives_leaf_iff {id : NodeId} {d : Derivation}
    (hk : (∃ i, (node nodes id).kind = .terminal i) ∨ (node nodes id).kind = .epsilon) :
    nodes.Derives id d ↔ d = .visit id [] := by
  constructor
  · rintro (⟨-⟩ | ⟨hc, -, -⟩ | ⟨hk', -⟩)
    · rfl
    · rcases hk with ⟨i, hk⟩ | hk <;> rw [Node.isChoice, hk] at hc <;> cases hc
    · rw [Node.isPacked_iff] at hk'
      rcases hk with ⟨i, hk⟩ | hk <;> simp [hk] at hk'
  · rintro rfl
    exact .leaf hk

/-- Nodes spell something together exactly if each of them does. -/
theorem exists_derivesAll_iff {cs : List NodeId} :
    (∃ ds, nodes.DerivesAll cs ds) ↔ ∀ c ∈ cs, ∃ d, nodes.Derives c d := by
  induction cs with
  | nil => exact ⟨fun _ _ hc => absurd hc List.not_mem_nil, fun _ => ⟨[], .nil⟩⟩
  | cons c cs ih =>
    rw [List.forall_mem_cons, ← ih]
    constructor
    · rintro ⟨_, _ | ⟨hd, hds⟩⟩
      exact ⟨⟨_, hd⟩, _, hds⟩
    · rintro ⟨⟨d, hd⟩, ds, hds⟩
      exact ⟨_, .cons hd hds⟩

theorem exists_derives_choice_iff {id : NodeId} (hc : (node nodes id).isChoice = true) :
    (∃ d, nodes.Derives id d) ↔ ∃ p ∈ childrenOf nodes id, ∃ d, nodes.Derives p d := by
  constructor
  · rintro ⟨d, hd⟩
    obtain ⟨p, hp, d', hd', -⟩ := (derives_choice_iff hc).1 hd
    exact ⟨p, hp, d', hd'⟩
  · rintro ⟨p, hp, d, hd⟩
    exact ⟨_, .choice hc hp hd⟩

theorem exists_derives_whole_iff {id : NodeId} (hk : (node nodes id).isPacked = true ∨
      ∃ A alt dot, (node nodes id).kind = .nulled A alt dot) :
    (∃ d, nodes.Derives id d) ↔ ∀ c ∈ childrenOf nodes id, ∃ d, nodes.Derives c d := by
  rw [← exists_derivesAll_iff]
  constructor
  · rintro ⟨d, hd⟩
    obtain ⟨ds, hds, -⟩ := (derives_whole_iff hk).1 hd
    exact ⟨ds, hds⟩
  · rintro ⟨ds, hds⟩
    exact ⟨_, .whole hk hds⟩

/-- In an arena without cycles all derivations are listed with fuel above the rank. -/
theorem mem_derivations_iff {rank : NodeId → Nat} (hr : nodes.Ranked rank) {fuel : Nat} {id : NodeId}
    (hfuel : rank id < fuel) {d : Derivation} :
    d ∈ derivations nodes fuel id ↔ nodes.Derives id d := by
  induction fuel generalizing id d with
  | zero => omega
  | succ fuel ih =>
    have ih : ∀ c ∈ childrenOf nodes id, ∀ d, d ∈ derivations nodes fuel c ↔ nodes.Derives c d := by
      intro c hc d
      have hrank := hr.lt id c hc
      exact ih (by omega)
    have hchoice : (node nodes id).isChoice = true →
        (d ∈ (childrenOf nodes id).flatMap (fun p => (derivations nodes fuel p).map (.visit id [·])) ↔
          nodes.Derives id d) := by
      intro hc
      rw [derives_choice_iff hc, List.mem_flatMap]
      refine exists_congr fun p => and_congr_right fun hp => ?_
      rw [List.mem_map]
      exact exists_congr fun d' => and_congr (ih p hp d') eq_comm
    have hwhole : ((node nodes id).isPacked = true ∨
          ∃ A alt dot, (node nodes id).kind = .nulled A alt dot) →
        (d ∈ (pickEach ((childrenOf nodes id).map (derivations nodes fuel))).map (.visit id) ↔
          nodes.Derives id d) := by
      intro hk
      rw [derives_whole_iff hk, List.mem_map]
      exact exists_congr fun ds => and_congr (mem_pickEach_iff ih) eq_comm
    rw [derivations]
    cases hk : (node nodes id).kind with
    | symbol A => exact hchoice (by rw [Node.isChoice, hk])
    | intermediate A alt dot => exact hchoice (by rw [Node.isChoice, hk])
    | packed A alt => exact hwhole (.inl (by rw [Node.isPacked, hk]))
    | nulled A alt dot => exact hwhole (.inr ⟨A, alt, dot, hk⟩)
    | terminal i => rw [derives_leaf_iff (.inl ⟨i, hk⟩), List.mem_singleton]
    | epsilon => rw [derives_leaf_iff (.inr hk), List.mem_singleton]

end Derivation

end ParseForest
