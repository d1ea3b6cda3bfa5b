import ParseForest.Forest.Sequence
import ParseForest.Proofs.Forest.Shapes

/-!
# Flattened right-hand sides

The right-hand sides that are looked at for children (`Arena.sequencesOf`) are some that the children
stand for when intermediate nodes are replaced by one of their alternatives each, and nulled nodes by
what they hold (`Arena.Flattens`). A tree of the children is read along one of them
(`ReadsAll.exists_flattens`). In a sound arena they have one node per symbol (`Flattens.standsAll`); if
only one of the symbols is that of a rule, there is only one over the same tokens
(`StandsAll.unique`).
-/

namespace ParseForest

/-! ## Where sequences come from -/

theorem exists_of_mem_joinUpTo {s : Sequence} {room : Nat} {fronts backs : List Sequence}
    (h : s ∈ joinUpTo room fronts backs) : ∃ front ∈ fronts, ∃ back ∈ backs, s = front ++ back := by
  induction backs generalizing room with
  | nil => cases h
  | cons back backs ih =>
    rw [joinUpTo] at h
    split at h
    · cases h
    · rcases List.mem_append.1 h with h | h
      · obtain ⟨front, hfront, rfl⟩ := List.mem_map.1 h
        exact ⟨front, List.mem_of_mem_take hfront, back, .head _, rfl⟩
      · obtain ⟨front, hfront, back', hback, rfl⟩ := ih h
        exact ⟨front, hfront, back', .tail _ hback, rfl⟩

theorem exists_of_mem_continueUpTo {expand : NodeId → List Sequence} {s : Sequence} {room : Nat}
    {fronts : List Sequence} {ps : List NodeId} (h : s ∈ continueUpTo expand room fronts ps) :
    ∃ p ∈ ps, ∃ front ∈ fronts, ∃ back ∈ expand p, s = front ++ back := by
  induction ps generalizing room with
  | nil => cases h
  | cons p ps ih =>
    rw [continueUpTo] at h
    split at h
    · cases h
    · rcases List.mem_append.1 h with h | h
      · exact ⟨p, .head _, exists_of_mem_joinUpTo h⟩
      · obtain ⟨p', hp', hs⟩ := ih h
        exact ⟨p', .tail _ hp', hs⟩

namespace Arena

section

variable (nodes : Arena)

/-- The nodes of the symbols for which the children stand, one after the other. -/
inductive Flattens : List NodeId → Sequence → Prop
  | nil : Flattens [] []
  | epsilon {c : NodeId} {cs : List NodeId} {s : Sequence} (hk : (node nodes c).kind = .epsilon)
      (h : Flattens cs s) : Flattens (c :: cs) s
  | nulled {c : NodeId} {cs : List NodeId} {s : Sequence} {A : RuleId} {alt dot : Nat}
      (hk : (node nodes c).kind = .nulled A alt dot) (h : Flattens cs s) :
      Flattens (c :: cs) (childrenOf nodes c ++ s)
  | intermediate {c p : NodeId} {cs : List NodeId} {s s' : Sequence} {A : RuleId} {alt dot : Nat}
      (hk : (node nodes c).kind = .intermediate A alt dot) (hp : p ∈ childrenOf nodes c)
      (h : Flattens (childrenOf nodes p) s) (hs : Flattens cs s') : Flattens (c :: cs) (s ++ s')
  | single {c : NodeId} {cs : List NodeId} {s : Sequence} (hk : ¬ nodes.IsPart c)
      (hne : (node nodes c).kind ≠ .epsilon) (h : Flattens cs s) : Flattens (c :: cs) (c :: s)

/-- What derives a part of a right-hand side from nothing holds the nodes of rules. -/
def NulledRules : Prop := ∀ id A alt dot, (node nodes id).kind = .nulled A alt dot →
  ∀ c ∈ childrenOf nodes id, ∃ B, (node nodes c).kind = .symbol B

end

variable {g : Grammar} {m : TerminalMatcher} {tokens : TokenStream} {nodes nodes' : Arena}

theorem not_isPart_of_kind {c : NodeId} (hk : (∃ i, (node nodes c).kind = .terminal i) ∨
    ∃ A, (node nodes c).kind = .symbol A) : ¬ nodes.IsPart c ∧ (node nodes c).kind ≠ .epsilon := by
  rcases hk with ⟨i, hk⟩ | ⟨A, hk⟩
  · exact ⟨by simp [IsPart, hk], by simp [hk]⟩
  · exact ⟨by simp [IsPart, hk], by simp [hk]⟩

/-- The sequences that continue others by some children. -/
theorem exists_of_mem_foldl_extend {expand : NodeId → List Sequence} {cap : Nat}
    (hexpand : ∀ p, ∀ s ∈ expand p, nodes.Flattens (childrenOf nodes p) s) (cs : List NodeId)
    {fronts : List Sequence} {s : Sequence} (h : s ∈ cs.foldl (extend nodes expand cap) fronts) :
    ∃ front ∈ fronts, ∃ s', nodes.Flattens cs s' ∧ s = front ++ s' := by
  induction cs generalizing fronts with
  | nil => exact ⟨s, h, [], .nil, (List.append_nil s).symm⟩
  | cons c cs ih =>
    obtain ⟨front, hfront, s', hs', rfl⟩ := ih (List.foldl_cons .. ▸ h)
    rw [extend] at hfront
    split at hfront
    · rename_i A alt dot hk
      obtain ⟨p, hp, front, hmem, back, hback, rfl⟩ := exists_of_mem_continueUpTo hfront
      exact ⟨front, hmem, back ++ s', .intermediate hk hp (hexpand p back hback) hs',
        List.append_assoc ..⟩
    · rename_i A alt dot hk
      obtain ⟨front, hmem, rfl⟩ := List.mem_map.1 hfront
      exact ⟨front, hmem, childrenOf nodes c ++ s', .nulled hk hs', List.append_assoc ..⟩
    · rename_i hk
      exact ⟨front, hfront, s', .epsilon hk hs', rfl⟩
    · rename_i hintermediate hnulled hepsilon
      obtain ⟨front, hmem, rfl⟩ := List.mem_map.1 hfront
      refine ⟨front, hmem, c :: s', .single ?_ hepsilon hs', by simp⟩
      rintro (⟨A, alt, dot, hk⟩ | ⟨A, alt, dot, hk⟩)
      · exact hintermediate _ _ _ hk
      · exact hnulled _ _ _ hk

/-- The right-hand sides that are looked at are some for which the children stand. -/
theorem flattens_of_mem_expandChildren {cap : Nat} (fuel : Nat) {cs : List NodeId} {s : Sequence}
    (h : s ∈ expandChildren nodes cap fuel cs) : nodes.Flattens cs s := by
  induction fuel generalizing cs s with
  | zero => cases h
  | succ fuel ih =>
    rw [expandChildren] at h
    obtain ⟨front, hfront, s', hs', rfl⟩ := exists_of_mem_foldl_extend (fun p s hs => ih hs) cs h
    obtain rfl := List.mem_singleton.1 hfront
    exact hs'

theorem flattens_of_mem_sequencesOf {cap : Nat} {cs : List NodeId} {s : Sequence}
    (h : s ∈ sequencesOf nodes cap cs) : nodes.Flattens cs s := flattens_of_mem_expandChildren _ h

/-- A set that holds the children of what it holds also holds the right-hand sides. -/
theorem Flattens.mem_of_closed {cs : List NodeId} {s : Sequence} (h : nodes.Flattens cs s)
    {U : NodeId → Prop} (hU : ∀ id, U id → ∀ c ∈ childrenOf nodes id, U c) (hcs : ∀ c ∈ cs, U c) :
    ∀ x ∈ s, U x := by
  induction h with
  | nil => exact hcs
  | epsilon _ _ ih => exact ih fun c hc => hcs c (.tail _ hc)
  | @nulled c cs s A alt dot _ _ ih =>
    intro x hx
    rcases List.mem_append.1 hx with hx | hx
    · exact hU c (hcs c (.head _)) x hx
    · exact ih (fun c hc => hcs c (.tail _ hc)) x hx
  | @intermediate c p cs s s' A alt dot _ hp _ _ ih ih' =>
    intro x hx
    rcases List.mem_append.1 hx with hx | hx
    · exact ih (hU p (hU c (hcs c (.head _)) p hp)) x hx
    · exact ih' (fun c hc => hcs c (.tail _ hc)) x hx
  | @single c cs s _ _ _ ih =>
    intro x hx
    rcases List.mem_cons.1 hx with rfl | hx
    · exact hcs _ (.head _)
    · exact ih (fun c hc => hcs c (.tail _ hc)) x hx

theorem joinUpTo_ne_nil {room : Nat} {fronts backs : List Sequence} (hroom : room ≠ 0)
    (hfronts : fronts ≠ []) (hbacks : backs ≠ []) : joinUpTo room fronts backs ≠ [] := by
  cases backs with
  | nil => exact absurd rfl hbacks
  | cons back backs => simp [joinUpTo, hroom, List.take_eq_nil_iff, hfronts]

theorem continueUpTo_ne_nil {expand : NodeId → List Sequence} {room : Nat} {fronts : List Sequence}
    {ps : List NodeId} (hroom : room ≠ 0) (hfronts : fronts ≠ []) {p : NodeId} (hp : p ∈ ps)
    (hexpand : expand p ≠ []) : continueUpTo expand room fronts ps ≠ [] := by
  induction ps with
  | nil => cases hp
  | cons q ps ih =>
    rw [continueUpTo, if_neg hroom]
    by_cases hq : expand q = []
    · simp only [hq, joinUpTo, List.length_nil, Nat.sub_zero, List.nil_append]
      refine ih ((List.mem_cons.1 hp).resolve_left ?_)
      rintro rfl
      exact hexpand hq
    · exact List.append_ne_nil_of_left_ne_nil (joinUpTo_ne_nil hroom hfronts hq) _

theorem foldl_extend_ne_nil {expand : NodeId → List Sequence} {cap : Nat} (hcap : cap ≠ 0)
    {cs : List NodeId} (hcs : ∀ c ∈ cs, ∀ A alt dot, (node nodes c).kind = .intermediate A alt dot →
      ∃ p ∈ childrenOf nodes c, expand p ≠ []) {fronts : List Sequence} (hfronts : fronts ≠ []) :
    cs.foldl (extend nodes expand cap) fronts ≠ [] := by
  induction cs generalizing fronts with
  | nil => exact hfronts
  | cons c cs ih =>
    rw [List.foldl_cons]
    refine ih (fun c hc => hcs c (.tail _ hc)) ?_
    rw [extend]
    split
    · rename_i A alt dot hk
      obtain ⟨p, hp, hexpand⟩ := hcs c (.head _) A alt dot hk
      exact continueUpTo_ne_nil hcap hfronts hp hexpand
    · simpa using hfronts
    · exact hfronts
    · simpa using hfronts

/-- The set holds, with an intermediate node, what one of its alternatives holds; and ranks fall on the way
down. -/
def Unfolds (nodes : Arena) (rank : NodeId → Nat) (U : NodeId → Prop) : Prop :=
  ∀ c, U c → ∀ A alt dot, (node nodes c).kind = .intermediate A alt dot →
    ∃ p ∈ childrenOf nodes c, rank p < rank c ∧ ∀ d ∈ childrenOf nodes p, U d ∧ rank d < rank p

section

variable {rank : NodeId → Nat} {U : NodeId → Prop} {cap : Nat} {cs : List NodeId}
  (hU : nodes.Unfolds rank U) (hcap : cap ≠ 0)
include hU hcap

theorem expandChildren_ne_nil (fuel : Nat) (hcs : ∀ c ∈ cs, U c ∧ rank c ≤ fuel) :
    expandChildren nodes cap (fuel + 1) cs ≠ [] := by
  induction fuel generalizing cs with
  | zero =>
    refine foldl_extend_ne_nil hcap (fun c hc A alt dot hk => ?_) (List.cons_ne_nil _ _)
    obtain ⟨hin, hrank⟩ := hcs c hc
    obtain ⟨p, -, hlt, -⟩ := hU c hin A alt dot hk
    omega
  | succ fuel ih =>
    refine foldl_extend_ne_nil hcap (fun c hc A alt dot hk => ?_) (List.cons_ne_nil _ _)
    obtain ⟨hin, hrank⟩ := hcs c hc
    obtain ⟨p, hp, hlt, hinner⟩ := hU c hin A alt dot hk
    refine ⟨p, hp, ih fun d hd => ⟨(hinner d hd).1, ?_⟩⟩
    have := (hinner d hd).2
    omega

/-- Some right-hand side is looked at, where intermediate nodes have alternatives all the way down. -/
theorem sequencesOf_ne_nil (hrank : ∀ id, rank id ≤ nodes.size) (hcs : ∀ c ∈ cs, U c) :
    sequencesOf nodes cap cs ≠ [] :=
  expandChildren_ne_nil hU hcap nodes.size fun c hc => ⟨hcs c hc, hrank c⟩

end

/-! ## How many are looked at -/

theorem length_joinUpTo_le (room : Nat) (fronts backs : List Sequence) :
    (joinUpTo room fronts backs).length ≤ room := by
  induction backs generalizing room with
  | nil => exact Nat.zero_le room
  | cons back backs ih =>
    rw [joinUpTo]
    split
    · exact Nat.zero_le room
    · have hrest := ih (room - ((fronts.take room).map (· ++ back)).length)
      simp only [List.length_append, List.length_map, List.length_take] at hrest ⊢
      omega

theorem length_continueUpTo_le (expand : NodeId → List Sequence) (room : Nat) (fronts : List Sequence)
    (ps : List NodeId) : (continueUpTo expand room fronts ps).length ≤ room := by
  induction ps generalizing room with
  | nil => exact Nat.zero_le room
  | cons p ps ih =>
    rw [continueUpTo]
    split
    · exact Nat.zero_le room
    · have hfirst := length_joinUpTo_le room fronts (expand p)
      have hrest := ih (room - (joinUpTo room fronts (expand p)).length)
      rw [List.length_append]
      omega

theorem length_extend_le {expand : NodeId → List Sequence} {cap : Nat} {fronts : List Sequence}
    (h : fronts.length ≤ cap) (child : NodeId) : (extend nodes expand cap fronts child).length ≤ cap := by
  rw [extend]
  split
  · exact length_continueUpTo_le expand cap fronts _
  · rwa [List.length_map]
  · exact h
  · rwa [List.length_map]

/-- No more right-hand sides are looked at than the cap allows. -/
theorem length_sequencesOf_le {cap : Nat} (hcap : cap ≠ 0) (cs : List NodeId) :
    (sequencesOf nodes cap cs).length ≤ cap :=
  List.foldlRecOn (motive := fun (fronts : List Sequence) => fronts.length ≤ cap) cs _
    (Nat.one_le_iff_ne_zero.2 hcap) fun _ h child _ => length_extend_le h child

/-! ## Growing and shrinking -/

theorem Flattens.grows (hclosed : ∀ id, ∀ c ∈ childrenOf nodes id, c < nodes.size)
    (hpacked : ∀ id, (node nodes id).isChoice = true → ∀ p ∈ childrenOf nodes id,
      (node nodes p).isPacked = true) (hg : nodes.Grows nodes') {cs : List NodeId} {s : Sequence}
    (h : nodes.Flattens cs s) (hcs : ∀ c ∈ cs, c < nodes.size) : nodes'.Flattens cs s := by
  induction h with
  | nil => exact .nil
  | @epsilon c cs s hk _ ih =>
    have hc := hcs c (.head _)
    exact .epsilon ((hg.kind_eq c hc).trans hk) (ih fun d hd => hcs d (.tail _ hd))
  | @nulled c cs s A alt dot hk _ ih =>
    have hc := hcs c (.head _)
    have hnode := hg.node_eq c hc (by simp [Node.isChoice, hk])
    have := @Flattens.nulled nodes' c _ _ _ _ _ (by rw [hnode, hk])
      (ih fun d hd => hcs d (.tail _ hd))
    rwa [childrenOf, hnode] at this
  | @intermediate c p cs s s' A alt dot hk hp _ _ ih ih' =>
    have hc := hcs c (.head _)
    have hchoice : (node nodes c).isChoice = true := by rw [Node.isChoice, hk]
    have hnode := hg.node_eq p (hclosed c p hp) (by
      have := hpacked c hchoice p hp
      rw [Node.isPacked_iff] at this
      obtain ⟨B, alt', hk'⟩ := this
      simp [Node.isChoice, hk'])
    refine .intermediate ((hg.kind_eq c hc).trans hk) (hg.mem_children hp) ?_
      (ih' fun d hd => hcs d (.tail _ hd))
    rw [childrenOf, hnode]
    exact ih fun d hd => hclosed p d hd
  | @single c cs s hk hne _ ih =>
    have hc := hcs c (.head _)
    refine .single ?_ (by rw [hg.kind_eq c hc]; exact hne) (ih fun d hd => hcs d (.tail _ hd))
    rw [IsPart, hg.kind_eq c hc]
    exact hk

/-- What is left of an arena stands for no other right-hand sides than before. -/
theorem Flattens.of_trims (hl : nodes.Layered) (ht : Trims nodes nodes') {cs : List NodeId}
    {s : Sequence} (h : nodes'.Flattens cs s) : nodes.Flattens cs s := by
  induction h with
  | nil => exact .nil
  | epsilon hk _ ih => exact .epsilon ((ht.kind_eq _).symm.trans hk) ih
  | @nulled c cs s A alt dot hk _ ih =>
    have hk' := (ht.kind_eq c).symm.trans hk
    rw [ht.children_eq c (by simp [Node.isChoice, hk'])]
    exact .nulled hk' ih
  | @intermediate c p cs s s' A alt dot hk hp _ _ ih ih' =>
    have hk' := (ht.kind_eq c).symm.trans hk
    rw [ht.childrenOf_packed hl (by rw [Node.isChoice, hk']) hp] at ih
    exact .intermediate hk' (ht.mem_children hp) ih ih'
  | single hk hne _ ih =>
    exact .single (fun hpart => hk (ht.isPart_iff.2 hpart)) (by rwa [← ht.kind_eq]) ih

theorem NulledRules.trims (h : nodes.NulledRules) (ht : Trims nodes nodes') : nodes'.NulledRules := by
  intro id A alt dot hk c hc
  have hk' := (ht.kind_eq id).symm.trans hk
  rw [ht.children_eq id (by simp [Node.isChoice, hk'])] at hc
  rw [ht.kind_eq]
  exact h id A alt dot hk' c hc

/-! ## Along which trees are read -/

/-- The nodes of symbols stand for themselves. -/
theorem Flattens.eq_self {cs : List NodeId} {s : Sequence} (h : nodes.Flattens cs s)
    (hcs : ∀ c ∈ cs, ¬ nodes.IsPart c ∧ (node nodes c).kind ≠ .epsilon) : s = cs := by
  induction h with
  | nil => rfl
  | epsilon hk _ _ => exact absurd hk (hcs _ (.head _)).2
  | nulled hk _ _ => exact absurd (.inr ⟨_, _, _, hk⟩) (hcs _ (.head _)).1
  | intermediate hk _ _ _ _ _ => exact absurd (.inl ⟨_, _, _, hk⟩) (hcs _ (.head _)).1
  | single _ _ _ ih => rw [ih fun d hd => hcs d (.tail _ hd)]

theorem Flattens.mem {cs : List NodeId} {s : Sequence} (h : nodes.Flattens cs s) {c : NodeId}
    (hc : c ∈ cs) (hpart : ¬ nodes.IsPart c) (hne : (node nodes c).kind ≠ .epsilon) : c ∈ s := by
  induction h with
  | nil => cases hc
  | epsilon hk _ ih =>
    rcases List.mem_cons.1 hc with rfl | hc
    · exact absurd hk hne
    · exact ih hc
  | nulled hk _ ih =>
    rcases List.mem_cons.1 hc with rfl | hc
    · exact absurd (.inr ⟨_, _, _, hk⟩) hpart
    · exact List.mem_append_right _ (ih hc)
  | intermediate hk _ _ _ _ ih =>
    rcases List.mem_cons.1 hc with rfl | hc
    · exact absurd (.inl ⟨_, _, _, hk⟩) hpart
    · exact List.mem_append_right _ (ih hc)
  | single _ _ _ ih =>
    rcases List.mem_cons.1 hc with rfl | hc
    · exact .head _
    · exact .tail _ (ih hc)

/-- The trees for which children stand are those of the nodes of some right-hand side. -/
theorem ReadsAll.exists_flattens (hnulled : nodes.NulledRules) {cs : List NodeId} {ts : List Tree}
    (h : nodes.ReadsAll g tokens cs ts) :
    ∃ s, nodes.Flattens cs s ∧ List.Forall₂ (nodes.Reads g tokens) s ts := by
  refine (reads_induction (P := fun _ _ => True)
    (Q := fun cs ts => ∃ s, nodes.Flattens cs s ∧ List.Forall₂ (nodes.Reads g tokens) s ts)
    (fun _ _ _ _ _ => trivial) (fun _ _ _ _ _ _ _ _ _ _ => trivial) ⟨[], .nil, .nil⟩ ?epsilon
    ?nulled ?intermediate ?tree).2 cs ts h
  case epsilon =>
    rintro c cs ts hk ⟨s, hs, hts⟩
    exact ⟨s, .epsilon hk hs, hts⟩
  case nulled =>
    rintro c cs us ts A alt dot hk ⟨s, hs, hus⟩ - ⟨s', hs', hts⟩
    obtain rfl := hs.eq_self fun d hd => not_isPart_of_kind (.inr (hnulled c A alt dot hk d hd))
    exact ⟨_, .nulled hk hs', List.rel_append hus hts⟩
  case intermediate =>
    rintro c p cs us ts A alt dot hk hp ⟨s, hs, hus⟩ - ⟨s', hs', hts⟩
    exact ⟨_, .intermediate hk hp hs hs', List.rel_append hus hts⟩
  case tree =>
    rintro c cs t ts ht - ⟨s, hs, hts⟩
    obtain ⟨hpart, hne⟩ := not_isPart_of_kind ht.kind_cases
    exact ⟨c :: s, .single hpart hne hs, .cons ht hts⟩

theorem readsAll_of_forall₂ {s : Sequence} {ts : List Tree}
    (h : List.Forall₂ (nodes.Reads g tokens) s ts) : nodes.ReadsAll g tokens s ts := by
  induction h with
  | nil => exact .nil
  | cons ht _ ih => exact .tree ht ih

/-- What the nodes of a right-hand side stand for is read from the children. -/
theorem Flattens.readsAll {cs : List NodeId} {s : Sequence} (h : nodes.Flattens cs s) {ts : List Tree}
    (hts : List.Forall₂ (nodes.Reads g tokens) s ts) : nodes.ReadsAll g tokens cs ts := by
  induction h generalizing ts with
  | nil =>
    cases hts
    exact .nil
  | epsilon hk _ ih => exact .epsilon hk (ih hts)
  | nulled hk _ ih =>
    obtain ⟨us, vs, rfl, hus, hvs⟩ := List.forall₂_append_left_iff.1 hts
    exact .nulled hk (readsAll_of_forall₂ hus) (ih hvs)
  | intermediate hk hp _ _ ih ih' =>
    obtain ⟨us, vs, rfl, hus, hvs⟩ := List.forall₂_append_left_iff.1 hts
    exact .intermediate hk hp (ih hus) (ih' hvs)
  | single _ _ _ ih =>
    obtain ⟨t, us, ht, hus, rfl⟩ := List.forall₂_cons_left_iff.1 hts
    exact .tree ht (ih hus)

/-! ## One node per symbol -/

/-- The nodes stand for the symbols one after the other, from `l` to `r`. -/
inductive StandsAll (m : TerminalMatcher) (tokens : TokenStream) (nodes : Arena) :
    List Symbol → Nat → Nat → Sequence → Prop
  | nil (l : Nat) : StandsAll m tokens nodes [] l l []
  | cons {x : Symbol} {xs : List Symbol} {l k r : Nat} {c : NodeId} {s : Sequence}
      (hc : nodes.Stands m tokens x l k c) (h : StandsAll m tokens nodes xs k r s) :
      StandsAll m tokens nodes (x :: xs) l r (c :: s)

/-- What covers symbols with the nodes of rules has one node per symbol. -/
theorem Covers.standsAll {A : RuleId} {alt dot l r : Nat} {cs : List NodeId}
    (hcs : ∀ c ∈ cs, ¬ nodes.IsPart c ∧ (node nodes c).kind ≠ .epsilon)
    (h : Covers g m tokens nodes A alt dot l r cs) :
    StandsAll m tokens nodes ((g.alternative A alt).symbols.drop dot) l r cs := by
  induction h with
  | done l =>
    rw [Alternative.length, List.drop_length]
    exact .nil l
  | epsilon hk _ _ => exact absurd hk (hcs _ (.head _)).2
  | symbol hx hc _ ih =>
    rw [drop_eq_cons hx]
    exact .cons hc (ih fun d hd => hcs d (.tail _ hd))
  | intermediate hk _ => exact absurd (.inl ⟨_, _, _, hk⟩) (hcs _ (.head _)).1
  | nulled hk => exact absurd (.inr ⟨_, _, _, hk⟩) (hcs _ (.head _)).1

/-- The right-hand sides of a sound arena have one node per symbol. -/
theorem Flattens.standsAll (hs : Sound g m tokens nodes) (hnulled : nodes.NulledRules)
    {cs : List NodeId} {s : Sequence} (h : nodes.Flattens cs s) {A : RuleId} {alt dot l r : Nat}
    (hc : Covers g m tokens nodes A alt dot l r cs) :
    StandsAll m tokens nodes ((g.alternative A alt).symbols.drop dot) l r s := by
  induction h generalizing dot l r with
  | nil => exact hc.standsAll (by simp)
  | @epsilon c cs s hk _ ih => exact ih (hc.of_epsilon hk)
  | @nulled c cs s B alt' dot' hk h ih =>
    obtain ⟨hk', rfl, rfl⟩ := hc.of_nulled hk
    cases h
    rw [List.append_nil]
    exact (hs.nulled c A alt dot l hk').standsAll fun d hd =>
      not_isPart_of_kind (.inr (hnulled c A alt dot hk' d hd))
  | @intermediate c p cs s s' B alt' dot' hk hp _ h ih _ =>
    obtain ⟨hk', hspan, rfl⟩ := hc.of_intermediate hk
    cases h
    rw [List.append_nil]
    exact ih (hs.intermediate c A alt dot l r hk' hspan p hp).2
  | @single c cs s hpart hne _ ih =>
    rcases hc.cons_cases with ⟨hk', -⟩ | ⟨x, k, hx, hst, hc⟩ | ⟨hk', -, -⟩ | ⟨hk', -, -⟩
    · exact absurd hk' hne
    · rw [drop_eq_cons hx]
      exact .cons hst (ih hc)
    · exact absurd (.inl ⟨_, _, _, hk'⟩) hpart
    · exact absurd (.inr ⟨_, _, _, hk'⟩) hpart

namespace StandsAll

variable {xs : List Symbol} {l r : Nat} {s s' : Sequence}

theorem length_eq (h : StandsAll m tokens nodes xs l r s) : s.length = xs.length := by
  induction h with
  | nil => rfl
  | cons _ _ ih => rw [List.length_cons, List.length_cons, ih]

theorem forall₂ {R : Symbol → NodeId → Prop} (h : StandsAll m tokens nodes xs l r s)
    (hR : ∀ {x l r c}, nodes.Stands m tokens x l r c → R x c) : List.Forall₂ R xs s := by
  induction h with
  | nil => exact .nil
  | cons hc _ ih => exact .cons (hR hc) ih

/-- Terminals stand for one token each. -/
theorem eq_add_length (h : StandsAll m tokens nodes xs l r s)
    (hxs : ∀ x ∈ xs, x.rule? = none) : r = l + xs.length := by
  induction h with
  | nil => rfl
  | @cons x xs l k r c s hc _ ih =>
    cases x with
    | rule A => exact absurd (hxs _ (.head _)) (by simp [Symbol.rule?])
    | terminal t =>
      obtain ⟨-, rfl, -⟩ := hc
      rw [ih fun x hx => hxs x (.tail _ hx), List.length_cons]
      omega

/-- Symbols of which one is a rule stand over tokens in one way. -/
theorem unique (hunique : ∀ {x l r c c'}, nodes.Stands m tokens x l r c →
      nodes.Stands m tokens x l r c' → c = c')
    (h : StandsAll m tokens nodes xs l r s) (h' : StandsAll m tokens nodes xs l r s')
    (hxs : (xs.filterMap Symbol.rule?).length ≤ 1) : s = s' := by
  induction h generalizing s' with
  | nil =>
    cases h'
    rfl
  | @cons x xs l k r c s hc h ih =>
    cases h' with
    | @cons _ _ _ k' _ c' s' hc' h' =>
      obtain rfl : k = k' := by
        cases x with
        | terminal t => exact hc.2.1.trans hc'.2.1.symm
        | rule A =>
          -- the other symbols are terminals, so they tell where the rule ends
          have hnone : ∀ x ∈ xs, x.rule? = none := by
            simpa [List.filterMap_cons, Symbol.rule?, List.filterMap_eq_nil_iff] using hxs
          have hk := h.eq_add_length hnone
          have hk' := h'.eq_add_length hnone
          omega
      rw [hunique hc hc', ih h' (Nat.le_trans ?_ hxs)]
      exact (((List.sublist_cons_self x xs).filterMap _).length_le)

/-- A node of the sequence stands for the symbol in its place, between those before and after it. -/
theorem split (h : StandsAll m tokens nodes xs l r s) {i : Nat} {c : NodeId} (hi : s[i]? = some c) :
    ∃ x p q, xs[i]? = some x ∧ nodes.Stands m tokens x p q c ∧
      StandsAll m tokens nodes (xs.take i) l p (s.take i) ∧
      StandsAll m tokens nodes (xs.drop (i + 1)) q r (s.drop (i + 1)) := by
  induction h generalizing i with
  | nil => cases hi
  | @cons x xs l k r d s hc h ih =>
    cases i with
    | zero =>
      obtain rfl := Option.some.inj hi
      exact ⟨x, l, k, rfl, hc, .nil l, h⟩
    | succ i =>
      obtain ⟨y, p, q, hy, hst, hbefore, hafter⟩ := ih (List.getElem?_cons_succ ▸ hi)
      exact ⟨y, p, q, hy, hst, .cons hc hbefore, hafter⟩

/-- The nodes of a sequence span what lies between its ends. -/
theorem exists_stands (hle : ∀ {x l r c}, nodes.Stands m tokens x l r c → l ≤ r)
    (h : StandsAll m tokens nodes xs l r s) : l ≤ r ∧ ∀ c ∈ s, ∃ x p q,
      nodes.Stands m tokens x p q c ∧ l ≤ p ∧ p ≤ q ∧ q ≤ r := by
  induction h with
  | nil l => exact ⟨Nat.le_refl l, by simp⟩
  | @cons x xs l k r c s hc _ ih =>
    obtain ⟨hkr, hmem⟩ := ih
    refine ⟨Nat.le_trans (hle hc) hkr, List.forall_mem_cons.2
      ⟨⟨x, l, k, hc, Nat.le_refl l, hle hc, hkr⟩, fun d hd => ?_⟩⟩
    obtain ⟨y, p, q, hst, hp, hpq, hq⟩ := hmem d hd
    exact ⟨y, p, q, hst, Nat.le_trans (hle hc) hp, hpq, hq⟩

end StandsAll

end Arena

end ParseForest
