import ParseForest.Proofs.Forest.Collapsing

/-!
# Lists without repetitions

Where alternatives of one number have no list of trees in common, and what a part of a right-hand side
stands for is equally long in all its lists (`Arena.Separates`), every node lists what it stands for without
repetitions (`Separates.nodup_readings`). This stays so when the passes take alternatives away and splice
parts in, also where rules derive themselves: nothing stands for more than before (`Arena.Narrows`).
-/

namespace ParseForest

namespace Arena

variable {nodes nodes' nodes'' : Arena} {g : Grammar} {tokens : TokenStream} {S : NodeId → Prop}

/-- Every choice of parts is another list, if the parts of each place are different and equally
long. -/
theorem nodup_combine {xs : List (List (List Tree))}
    (h : ∀ parts ∈ xs, parts.Nodup ∧ ∃ n, ∀ ts ∈ parts, ts.length = n) : (combine xs).Nodup := by
  induction xs with
  | nil => exact List.nodup_singleton _
  | cons parts rest ih =>
    obtain ⟨hnodup, n, hlength⟩ := h parts (.head _)
    have hrest := ih fun x hx => h x (.tail _ hx)
    rw [combine, List.nodup_flatMap]
    refine ⟨fun back _ => hnodup.map (List.append_left_injective back),
      hrest.imp fun {back back'} hne ts hts hts' => ?_⟩
    obtain ⟨front, hfront, rfl⟩ := List.mem_map.1 hts
    obtain ⟨front', hfront', heq⟩ := List.mem_map.1 hts'
    have hlen : front'.length = front.length := by rw [hlength front' hfront', hlength front hfront]
    exact hne (List.append_inj_right heq hlen).symm

/-- Alternatives of one number are told apart by the trees that they stand for, and where parts are joined
the lists of each are equally long. -/
structure Separates (nodes : Arena) (g : Grammar) (tokens : TokenStream) (S : NodeId → Prop) : Prop
    extends Layered nodes where
  below : ∀ id, S id → ∀ c ∈ childrenOf nodes id, S c
  alternative : ∀ id, (node nodes id).isChoice = true → ∀ p ∈ childrenOf nodes id,
    (∃ A alt, (node nodes id).kind = .symbol A ∧ (node nodes p).kind = .packed A alt) ∨
    ∃ A alt dot, (node nodes id).kind = .intermediate A alt dot ∧ (node nodes p).kind = .packed A alt
  length : ∀ id, S id → (node nodes id).isPacked = false →
    ∃ n, ∀ ts, nodes.ReadsAll g tokens [id] ts → ts.length = n
  disjoint : ∀ id, S id → (node nodes id).isChoice = true →
    (childrenOf nodes id).Pairwise fun p p' => (node nodes p).kind = (node nodes p').kind →
      ∀ ts, nodes.ReadsAll g tokens (childrenOf nodes p) ts →
        ¬ nodes.ReadsAll g tokens (childrenOf nodes p') ts

/-- A node lists what it stands for without repetitions. -/
theorem Separates.nodup_readings (h : nodes.Separates g tokens S) (fuel : Nat) {id : NodeId} (hid : S id) :
    (nodes.readings g tokens fuel id).Nodup := by
  have hl := h.toLayered
  induction fuel generalizing id with
  | zero => exact List.nodup_nil
  | succ fuel ih =>
    have hcombine : (∀ c ∈ childrenOf nodes id, (node nodes c).isPacked = false) →
        (combine ((childrenOf nodes id).map (nodes.readings g tokens fuel))).Nodup := by
      intro hcs
      refine nodup_combine fun parts hparts => ?_
      obtain ⟨c, hc, rfl⟩ := List.mem_map.1 hparts
      obtain ⟨n, hn⟩ := h.length c (h.below id hid c hc) (hcs c hc)
      exact ⟨ih (h.below id hid c hc), n, fun ts hts =>
        hn ts ((reads_of_mem_readings hl fuel).1 c (hcs c hc) ts hts)⟩
    -- different alternatives with the same number have no list of trees in common
    have hdisjoint : (node nodes id).isChoice = true → (childrenOf nodes id).Pairwise fun p p' =>
        (node nodes p).kind = (node nodes p').kind → ∀ ts, ts ∈ nodes.readings g tokens fuel p →
          ts ∉ nodes.readings g tokens fuel p' := by
      intro hc
      refine (h.disjoint id hid hc).imp_of_mem fun {p p'} hp hp' hne hk ts hts hts' => ?_
      exact hne hk ts ((reads_of_mem_readings hl fuel).2 id hc p hp ts hts)
        ((reads_of_mem_readings hl fuel).2 id hc p' hp' ts hts')
    simp only [readings]
    cases hk : (node nodes id).kind with
    | symbol A =>
      have hc : (node nodes id).isChoice = true := by rw [Node.isChoice, hk]
      dsimp only
      rw [List.nodup_flatMap]
      refine ⟨fun p hp => ?_, (hdisjoint hc).imp_of_mem fun {p p'} hp hp' hne x hx hx' => ?_⟩
      · split
        · refine (ih (h.below id hid p hp)).map fun ts ts' heq => ?_
          injection heq with heq
          injection heq
        · exact List.nodup_nil
      · have hpacked : ∀ q ∈ childrenOf nodes id, ∃ alt, (node nodes q).kind = .packed A alt := by
          intro q hq
          rcases h.alternative id hc q hq with ⟨B, alt, hk', hq⟩ | ⟨_, _, _, hk', -⟩ <;>
            cases hk.symm.trans hk'
          exact ⟨alt, hq⟩
        obtain ⟨alt, hpk⟩ := hpacked p hp
        obtain ⟨alt', hpk'⟩ := hpacked p' hp'
        simp only [hpk] at hx
        simp only [hpk'] at hx'
        obtain ⟨ts, hts, rfl⟩ := List.mem_map.1 hx
        obtain ⟨ts', hts', heq⟩ := List.mem_map.1 hx'
        injection heq with heq
        injection heq with _ _ halt hchildren
        subst halt hchildren
        exact hne (by rw [hpk, hpk']) ts' hts hts'
    | intermediate A alt dot =>
      have hc : (node nodes id).isChoice = true := by rw [Node.isChoice, hk]
      dsimp only
      rw [List.nodup_flatMap]
      have hpacked : ∀ q ∈ childrenOf nodes id, (node nodes q).kind = .packed A alt := by
        intro q hq
        rcases h.alternative id hc q hq with ⟨_, _, hk', -⟩ | ⟨_, _, _, hk', hq⟩ <;>
          cases hk.symm.trans hk'
        exact hq
      refine ⟨fun p hp => ih (h.below id hid p hp), (hdisjoint hc).imp_of_mem ?_⟩
      intro p p' hp hp' hne ts hts hts'
      exact hne (by rw [hpacked p hp, hpacked p' hp']) ts hts hts'
    | packed A alt => exact hcombine fun c hc => hl.not_isPacked (by rw [Node.isPacked, hk]) hc
    | nulled A alt dot => exact hcombine fun c hc => hl.nulled id A alt dot hk c hc
    | terminal i =>
      dsimp only
      cases tokens.get? i with
      | none => exact List.nodup_nil
      | some tok => exact List.nodup_singleton _
    | epsilon => exact List.nodup_singleton _

/-! ## Narrowing -/

/-- Choices have lost alternatives, and the nodes in question stand for nothing new, alone or
together. -/
structure Narrows (g : Grammar) (tokens : TokenStream) (S : NodeId → Prop) (nodes nodes' : Arena) : Prop
    extends SameHeads nodes nodes' where
  layered : nodes'.Layered
  below : ∀ id, S id → ∀ c ∈ childrenOf nodes' id, S c
  sublist : ∀ id, (node nodes id).isChoice = true → (childrenOf nodes' id).Sublist (childrenOf nodes id)
  readsAll : ∀ cs ts, (∀ c ∈ cs, S c) → nodes'.ReadsAll g tokens cs ts → nodes.ReadsAll g tokens cs ts
  packed : ∀ p, S p → (node nodes p).isPacked = true → ∀ ts,
    nodes'.ReadsAll g tokens (childrenOf nodes' p) ts → nodes.ReadsAll g tokens (childrenOf nodes p) ts

theorem Narrows.trans (h : Narrows g tokens S nodes nodes') (h' : Narrows g tokens S nodes' nodes'') :
    Narrows g tokens S nodes nodes'' where
  toSameHeads := h.toSameHeads.trans h'.toSameHeads
  layered := h'.layered
  below := h'.below
  sublist id hc := (h'.sublist id (by rwa [h.toSameHeads.isChoice_eq])).trans (h.sublist id hc)
  readsAll cs ts hcs hts := h.readsAll cs ts hcs (h'.readsAll cs ts hcs hts)
  packed p hp hpacked ts hts :=
    h.packed p hp hpacked ts (h'.packed p hp (by rwa [h.toSameHeads.isPacked_eq]) ts hts)

/-- Trees tell alternatives apart also when there are fewer. -/
theorem Separates.narrows {S' : NodeId → Prop} (h : nodes.Separates g tokens S)
    (hS : ∀ id, S' id → S id) (hn : Narrows g tokens S' nodes nodes') : nodes'.Separates g tokens S' := by
  have hchoice := hn.toSameHeads.isChoice_eq
  have hpacked := hn.toSameHeads.isPacked_eq
  refine ⟨hn.layered, hn.below, fun id hc p hp => ?_, fun id hid hp => ?_, fun id hid hc => ?_⟩
  · rw [hchoice] at hc
    rw [hn.kind_eq, hn.kind_eq]
    exact h.alternative id hc p ((hn.sublist id hc).subset hp)
  · rw [hpacked] at hp
    obtain ⟨n, hn'⟩ := h.length id (hS id hid) hp
    refine ⟨n, fun ts hts => hn' ts (hn.readsAll [id] ts ?_ hts)⟩
    exact fun c hc => List.mem_singleton.1 hc ▸ hid
  · have hc' := hc
    rw [hchoice] at hc
    refine ((h.disjoint id (hS id hid) hc).sublist (hn.sublist id hc)).imp_of_mem ?_
    intro p p' hp hp' hne hk ts hts hts'
    have hpk := hn.layered.isPacked id hc' p hp
    have hpk' := hn.layered.isPacked id hc' p' hp'
    rw [hpacked] at hpk hpk'
    rw [hn.kind_eq, hn.kind_eq] at hk
    exact hne hk ts (hn.packed p (hn.below id hid p hp) hpk ts hts)
      (hn.packed p' (hn.below id hid p' hp') hpk' ts hts')

/-- An arena is narrowed if choices lose alternatives, and the children of other nodes are replaced by what
stands for no more together. -/
theorem narrows_of_parts (hheads : SameHeads nodes nodes') (hl : nodes'.Layered)
    (hbelow : ∀ id, S id → ∀ c ∈ childrenOf nodes' id, S c)
    (hsublist : ∀ id, (node nodes id).isChoice = true →
      (childrenOf nodes' id).Sublist (childrenOf nodes id))
    (hparts : ∀ p, S p → ((node nodes p).isPacked = true ∨
      ∃ A alt dot, (node nodes p).kind = .nulled A alt dot) → ∀ ts,
      nodes.ReadsAll g tokens (childrenOf nodes' p) ts → nodes.ReadsAll g tokens (childrenOf nodes p) ts) :
    Narrows g tokens S nodes nodes' := by
  have hreads : ∀ cs ts, nodes'.ReadsAll g tokens cs ts → (∀ c ∈ cs, S c) →
      nodes.ReadsAll g tokens cs ts := by
    refine (reads_induction (P := fun id t => S id → nodes.Reads g tokens id t)
      (Q := fun cs ts => (∀ c ∈ cs, S c) → nodes.ReadsAll g tokens cs ts)
      ?token ?rule ?nil ?epsilon ?nulled ?intermediate ?tree).2
    case token =>
      intro id i tok hk ht _
      exact .token ((hheads.kind_eq id).symm.trans hk) ht
    case rule =>
      intro id p A B alt children hk hp hpk ih hid
      rw [hheads.kind_eq] at hk hpk
      have hS := hbelow id hid p hp
      refine .rule hk ((hsublist id (by rw [Node.isChoice, hk])).subset hp) hpk ?_
      exact hparts p hS (.inl (by rw [Node.isPacked, hpk])) _ (ih (hbelow p hS))
    case nil => exact fun _ => .nil
    case epsilon =>
      intro c cs ts hk ih hcs
      exact .epsilon ((hheads.kind_eq c).symm.trans hk) (ih fun d hd => hcs d (.tail _ hd))
    case nulled =>
      intro c cs us ts A alt dot hk ih _ ih' hcs
      rw [hheads.kind_eq] at hk
      have hS := hcs c (.head _)
      exact .nulled hk (hparts c hS (.inr ⟨A, alt, dot, hk⟩) _ (ih (hbelow c hS)))
        (ih' fun d hd => hcs d (.tail _ hd))
    case intermediate =>
      intro c p cs us ts A alt dot hk hp ih _ ih' hcs
      have hpacked := hl.isPacked c (by rw [Node.isChoice, hk]) p hp
      rw [hheads.isPacked_eq] at hpacked
      rw [hheads.kind_eq] at hk
      have hS := hbelow c (hcs c (.head _)) p hp
      refine .intermediate hk ((hsublist c (by rw [Node.isChoice, hk])).subset hp) ?_
        (ih' fun d hd => hcs d (.tail _ hd))
      exact hparts p hS (.inl hpacked) _ (ih (hbelow p hS))
    case tree =>
      intro c cs t ts _ ih ih' hcs
      exact .tree (ih (hcs c (.head _))) (ih' fun d hd => hcs d (.tail _ hd))
  exact ⟨hheads, hl, hbelow, hsublist, fun cs ts hcs hts => hreads cs ts hts hcs,
    fun p hp hpacked ts hts => hparts p hp (.inl hpacked) ts (hreads _ ts hts (hbelow p hp))⟩

theorem Trims.narrows (h : Trims nodes nodes') (hl : nodes.Layered) :
    Narrows g tokens (fun _ => True) nodes nodes' := by
  refine narrows_of_parts h.toSameHeads (hl.trims h) (fun _ _ _ _ => trivial) (fun id _ => h.sublist id)
    fun p _ hk ts hts => ?_
  rwa [h.children_eq p] at hts
  rcases hk with hp | ⟨A, alt, dot, hk⟩
  · exact fun hc => by rw [Node.not_isPacked_of_isChoice hc] at hp; cases hp
  · simp [Node.isChoice, hk]

/-- What a node stands for after choices have lost alternatives, it stood for before. -/
theorem Trims.reads (h : Trims nodes nodes') (hl : nodes.Layered) {id : NodeId} {t : Tree}
    (hread : nodes'.Reads g tokens id t) : nodes.Reads g tokens id t := by
  cases hread with
  | token hk ht => exact .token ((h.kind_eq id).symm.trans hk) ht
  | @rule _ p A A' alt children hk hp hpk hchildren =>
    rw [h.kind_eq] at hk hpk
    exact .rule hk (h.mem_children hp) hpk
      ((h.narrows hl).packed p trivial (by rw [Node.isPacked, hpk]) children hchildren)

/-! ## Splicing -/

/-- Trees for a list of nodes are trees for its first part and trees for the rest. -/
theorem ReadsAll.exists_append {cs ds : List NodeId} {ts : List Tree}
    (h : nodes.ReadsAll g tokens (cs ++ ds) ts) : ∃ us vs, ts = us ++ vs ∧
      nodes.ReadsAll g tokens cs us ∧ nodes.ReadsAll g tokens ds vs := by
  induction cs generalizing ts with
  | nil => exact ⟨[], ts, rfl, .nil, h⟩
  | cons c cs ih =>
    cases h with
    | epsilon hk hs =>
      obtain ⟨us, vs, rfl, hus, hvs⟩ := ih hs
      exact ⟨us, vs, rfl, .epsilon hk hus, hvs⟩
    | nulled hk hc hs =>
      obtain ⟨us, vs, rfl, hus, hvs⟩ := ih hs
      exact ⟨_, vs, (List.append_assoc _ _ _).symm, .nulled hk hc hus, hvs⟩
    | intermediate hk hp hc hs =>
      obtain ⟨us, vs, rfl, hus, hvs⟩ := ih hs
      exact ⟨_, vs, (List.append_assoc _ _ _).symm, .intermediate hk hp hc hus, hvs⟩
    | tree ht hs =>
      obtain ⟨us, vs, rfl, hus, hvs⟩ := ih hs
      exact ⟨_, vs, rfl, .tree ht hus, hvs⟩

/-- What is put in the place of each node stands for no more than the nodes together. -/
theorem ReadsAll.of_flatMap {f : NodeId → List NodeId} {cs : List NodeId} {ts : List Tree}
    (hf : ∀ c ∈ cs, ∀ ts, nodes.ReadsAll g tokens (f c) ts → nodes.ReadsAll g tokens [c] ts)
    (h : nodes.ReadsAll g tokens (cs.flatMap f) ts) : nodes.ReadsAll g tokens cs ts := by
  induction cs generalizing ts with
  | nil => exact h
  | cons c cs ih =>
    rw [List.flatMap_cons] at h
    obtain ⟨us, vs, rfl, hus, hvs⟩ := h.exists_append
    exact (hf c (.head _) us hus).append (ih (fun d hd => hf d (.tail _ hd)) hvs)

end Arena

namespace Pass

open Arena

variable {nodes : Arena} {g : Grammar} {tokens : TokenStream} {root : NodeId}

/-- What is spliced in for a child stands for no more. -/
theorem readsAll_of_spliced (fuel : Nat) {c : NodeId} {ts : List Tree}
    (h : nodes.ReadsAll g tokens (spliced nodes fuel c) ts) : nodes.ReadsAll g tokens [c] ts := by
  induction fuel generalizing c ts with
  | zero => exact h
  | succ fuel ih =>
    rw [spliced] at h
    split at h
    · rename_i inner hs
      have hinner := ReadsAll.of_flatMap (fun _ _ _ hts => ih hts) h
      rw [← List.append_nil ts]
      rcases splice?_eq_some hs with ⟨A, alt, dot, hk, hchildren⟩ | ⟨A, alt, dot, hk, rfl⟩
      · exact .intermediate hk (by simp [hchildren]) hinner .nil
      · exact .nulled hk hinner .nil
    · exact h

/-- Collapsing one packed node narrows the arena. -/
theorem narrows_flatChildren (hl : nodes.Layered) (hε : (node nodes epsilonId).kind = .epsilon)
    {id : NodeId} (hpacked : (node nodes id).isPacked = true) :
    Narrows g tokens (fun _ => True) nodes (setChildren nodes id (flatChildren nodes id)) := by
  refine narrows_of_parts (sameHeads_setChildren _ _) (layered_flatChildren hl hε hpacked)
    (fun _ _ _ _ => trivial) (fun i hc => ?_) fun p _ _ ts hts => ?_
  · rw [childrenOf_setChildren_ne]
    rintro rfl
    rw [Node.not_isPacked_of_isChoice hc] at hpacked
    cases hpacked
  · by_cases he : id = p
    · subst he
      rw [childrenOf_setChildren_self (lt_size_of_isPacked hpacked), flatChildren] at hts
      refine ReadsAll.of_flatMap (f := spliced nodes (nodes.size + 1))
        (fun _ _ _ h => readsAll_of_spliced _ h) ?_
      split at hts
      · rename_i hnil
        -- the empty string stands for no trees
        rw [hnil]
        obtain _ | ⟨-, hts⟩ | ⟨hk, -, -⟩ | ⟨hk, -, -, -⟩ | ⟨hread, -⟩ := hts
        · exact hts
        · cases hε.symm.trans hk
        · cases hε.symm.trans hk
        · rcases hread.kind_cases with ⟨i, hk⟩ | ⟨A, hk⟩ <;> cases hε.symm.trans hk
      · exact hts
    · rwa [childrenOf_setChildren_ne he] at hts

/-- The passes that change the layout of an arena narrow it. -/
theorem narrows_collapse_linkParents (hl : nodes.Layered) (hε : (node nodes epsilonId).kind = .epsilon) :
    Narrows g tokens (fun _ => True) nodes
      (linkParents.run g root (collapse.run g root nodes).1).1 := by
  have hcollapse : Narrows g tokens (fun _ => True) nodes (collapse.run g root nodes).1 := by
    refine collapseAll_induction (P := fun current => Narrows g tokens (fun _ => True) nodes current)
      (fun current id hneeds hn => ?_) _ ((Trims.refl nodes).narrows hl)
    exact hn.trans (narrows_flatChildren hn.layered ((hn.kind_eq _).trans hε)
      (Bool.and_eq_true_iff.1 hneeds).1)
  exact hcollapse.trans ((relinks_linkParents g root _).trims.narrows hcollapse.layered)

end Pass

end ParseForest
