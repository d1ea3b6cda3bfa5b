import ParseForest.Proofs.Automaton.Traversal

/-!
# Nodes that lead to each other

When the node of a call leads no lower than to itself, the nodes above it lead to it and to no node
that is not above it or done (`leads_of_above`, `has_of_leads_above`), and its set is right for all of
them. So the invariant of the traversal is kept by every step, and by whole runs.
-/

namespace ParseForest

namespace Traversal

section Invariant

variable {relation : Array (List Nat)} {init : Array LookaheadSet} {P : LookaheadSet → Prop}
  {t t' : Traversal}

/-! ## Leaving a node for good -/

/-- The nodes above another one on the stack, and the nodes below it. -/
theorem Stacked.parts (h : t.Stacked relation) {x : Nat} {above below : List Nat}
    (hstack : t.stack = above ++ x :: below) :
    x ∉ above ∧ (∀ v ∈ below, ¬ (v ∈ above ∨ v = x)) ∧ ∀ v, v ∈ above ∨ v = x → v ∈ t.stack := by
  have hnodup := h.nodup
  rw [hstack, List.nodup_append, List.nodup_cons] at hnodup
  obtain ⟨-, ⟨hxbelow, -⟩, hdisj⟩ := hnodup
  refine ⟨fun hmem => hdisj x hmem x (.head _) rfl, ?_, ?_⟩
  · rintro v hv (hmem | rfl)
    · exact hdisj v hmem v (.tail _ hv) rfl
    · exact hxbelow hv
  · rintro v (hv | rfl)
    · exact hstack ▸ List.mem_append_left _ hv
    · exact hstack ▸ List.mem_append_right _ (.head _)

theorem Sound.popped (h : t.Sound relation init P) {x : Nat} {above below : List Nat}
    (hstack : t.stack = above ++ x :: below) :
    Popped t (Traversal.popTo x t.stack t) above x below := by
  obtain ⟨hxabove, -, hactive⟩ := h.parts hstack
  rw [hstack]
  exact popped_popTo above hxabove t fun v hv => h.lt_size (hactive v (.inl hv))

theorem Popped.stacked {x : Nat} {above below : List Nat} (hpop : Popped t t' above x below)
    (h : t.Stacked relation) (hstack : t.stack = above ++ x :: below) : t'.Stacked relation := by
  obtain ⟨hxabove, hbelow, -⟩ := h.parts hstack
  have hmem : ∀ v ∈ below, v ∈ t.stack := fun v hv => hstack ▸ List.mem_append_right _ (.tail _ hv)
  have hheight : ∀ v ∈ below, heightIn t.stack v = heightIn below v := by
    intro v hv
    have hnot := hbelow v hv
    have heq : above ++ x :: below = (above ++ [x]) ++ below := by simp
    rw [hstack, heq, heightIn_append]
    simpa using hnot
  have hlow : ∀ v ∈ below, t'.low v = t.low v := fun v hv =>
    low_congr (by rw [hpop.state, if_neg (hbelow v hv)])
  refine ⟨hpop.size_progress.trans h.size_progress, ?_, fun v => ?_, fun v hv => ?_, fun v hv => ?_⟩
  · have hnodup := h.nodup
    rw [hstack, List.nodup_append, List.nodup_cons] at hnodup
    exact hpop.stack ▸ hnodup.2.1.2
  · rw [hpop.stack, hpop.state]
    by_cases hv : v ∈ above ∨ v = x
    · rw [if_pos hv]
      exact ⟨fun hmem => absurd hv (hbelow v hmem), fun ⟨l, hl⟩ => nomatch hl⟩
    · rw [if_neg hv, ← h.mem_stack_iff, hstack]
      rw [not_or] at hv
      simp [hv]
  · rw [hpop.stack] at hv ⊢
    rw [hlow v hv, ← hheight v hv]
    exact h.low_le v (hmem v hv)
  · rw [hpop.stack] at hv ⊢
    obtain ⟨u, hu, heq, hlead⟩ := h.leads_low v (hmem v hv)
    have hule : heightIn t.stack u ≤ below.length := by
      rw [heq]
      exact Nat.le_trans (h.low_le v (hmem v hv)) (hheight v hv ▸ heightIn_le below v)
    have hubelow : u ∈ below := by
      by_contra hnot
      rw [hstack] at hu hule
      rcases List.mem_append.1 hu with hu | hu
      · have hlt : (x :: below).length < _ := lt_heightIn_append hu
        rw [List.length_cons] at hlt
        omega
      · obtain rfl := (List.mem_cons.1 hu).resolve_right hnot
        rw [heightIn_append hxabove, heightIn_cons_self] at hule
        exact Nat.not_succ_le_self _ hule
    exact ⟨u, hubelow, by rw [← hheight u hubelow, heq, hlow v hv], hlead⟩

section Pop

variable {x : Nat} {above below : List Nat} (h : t.Sound relation init P)
  (hstack : t.stack = above ++ x :: below)
  (hsettled : ∀ v ∈ above, Settled relation t t.stack x v)
  (hexamined : ∀ w ∈ relation.getD x [], Examined t t.stack x w)
  (hlow : t.low x = below.length + 1)
include h hstack hsettled hlow

/-- The nodes above lead to the node: each leads to a lower one that is not below it. -/
theorem Sound.leads_of_above {v : Nat} (hv : v ∈ above) : Leads relation v x := by
  induction hk : heightIn t.stack v using Nat.strongRecOn generalizing v with
  | ind k ih =>
    have hs := hsettled v hv
    obtain ⟨u, hu, heq, hlead⟩ := h.leads_low v (hstack ▸ List.mem_append_left _ hv)
    have hge : below.length < heightIn t.stack u := by
      have := hs.low_le
      omega
    rw [hstack] at hge
    rcases mem_of_length_lt_heightIn hge with hu' | rfl
    · exact hlead.trans (ih _ (by have := hs.low_lt; omega) hu' rfl)
    · exact hlead

include hexamined

omit h in
/-- Where the node and those above it lead in one step is done or above or the node. -/
theorem next_of_above {v : Nat} (hv : v ∈ above ∨ v = x) {w : Nat}
    (hw : w ∈ relation.getD v []) :
    (t.state w = .done ∧ ∀ i, Has t.sets w i → Has t.sets v i) ∨ w ∈ above ∨ w = x := by
  have hex : Examined t t.stack v w ∧ t.low x ≤ t.low v := by
    rcases hv with hv | rfl
    · exact ⟨(hsettled v hv).examined w hw, (hsettled v hv).low_le⟩
    · exact ⟨hexamined w hw, Nat.le_refl _⟩
  rcases hex.1 with hdone | ⟨hmem, hle⟩
  · exact .inl hdone
  · refine .inr ?_
    have hge : below.length < heightIn t.stack w := by
      have := hex.2
      omega
    rw [hstack] at hge
    exact mem_of_length_lt_heightIn hge

/-- The node has all that it or those above it lead to. -/
theorem Sound.has_of_leads_above {v : Nat} (hv : v ∈ above ∨ v = x) {w : Nat}
    (hvw : Leads relation v w) {i : Nat} (hi : Has init w i) : Has t.sets x i := by
  have hcover : ∀ v, v ∈ above ∨ v = x → ∀ i, Has t.sets v i → Has t.sets x i := by
    rintro v (hv | rfl) i hi
    · exact (hsettled v hv).has i hi
    · exact hi
  induction hvw using Relation.ReflTransGen.head_induction_on with
  | refl => exact hcover w hv i (h.has_init w i hi)
  | @head v y hnext hlead ih =>
    rcases next_of_above hstack hsettled hexamined hlow hv hnext with ⟨hdone, hsub⟩ | hy
    · exact hcover v hv i (hsub i (h.has_of_leads y hdone w hlead i hi))
    · exact ih hy

theorem Sound.popTo {t' : Traversal} (hpop : Popped t t' above x below) :
    t'.Sound relation init P := by
  obtain ⟨hxabove, -, hactive⟩ := h.parts hstack
  have hdone : ∀ v, t'.state v = .done ↔ (v ∈ above ∨ v = x) ∨ t.state v = .done := by
    intro v
    rw [hpop.state]
    split <;> simp_all
  have hhas : ∀ v i, Has t'.sets v i ↔ if v ∈ above then Has t.sets x i else Has t.sets v i := by
    intro v i
    rw [Has, hpop.sets]
    split <;> rfl
  have hold : ∀ v, t.state v = .done → v ∉ above := fun v hv hmem =>
    h.not_mem_of_done hv (hactive v (.inl hmem))
  refine ⟨hpop.stacked h.toStacked hstack, ⟨hpop.size_sets.trans h.size_sets, fun v hv => ?_,
    fun v i hi => ?_, fun v i hi => ?_, fun v hv w hw => ?_, fun v hv w hvw i hi => ?_,
    fun v w hv hw hvw hwv => ?_⟩⟩
  · rw [hpop.sets]
    split
    · exact h.kind x (h.lt_size (hactive x (.inr rfl)))
    · exact h.kind v (hpop.size_sets ▸ hv)
  · rw [hhas]
    split
    · rename_i hv
      exact (hsettled v hv).has i (h.has_init v i hi)
    · exact h.has_init v i hi
  · rw [hhas] at hi
    split at hi
    · rename_i hv
      obtain ⟨w, hw, hinit⟩ := h.init_of_has x i hi
      exact ⟨w, (h.leads_of_above hstack hsettled hlow hv).trans hw, hinit⟩
    · exact h.init_of_has v i hi
  · rw [hdone] at hv ⊢
    rcases hv with hv | hv
    · rcases next_of_above hstack hsettled hexamined hlow hv hw with ⟨hw', -⟩ | hw'
      · exact .inr hw'
      · exact .inl hw'
    · exact .inr (h.done_next v hv w hw)
  · rw [hhas]
    rcases (hdone v).1 hv with hv | hv
    · have hx := h.has_of_leads_above hstack hsettled hexamined hlow hv hvw hi
      rcases hv with hv | rfl
      · rwa [if_pos hv]
      · rwa [if_neg hxabove]
    · rw [if_neg (hold v hv)]
      exact h.has_of_leads v hv w hvw i hi
  · -- a done node does not lead to one that has just been done
    have hmixed : ∀ v w, t.state v = .done → w ∈ above ∨ w = x → ¬ Leads relation v w :=
      fun v w hv hw hvw => h.not_mem_of_done (h.done_of_leads hv hvw) (hactive w hw)
    have hset : ∀ v, v ∈ above ∨ v = x → t'.sets.getD v default = t.sets.getD x default := by
      rintro v (hv | rfl)
      · rw [hpop.sets, if_pos hv]
      · rw [hpop.sets, if_neg hxabove]
    rcases (hdone v).1 hv with hv | hv <;> rcases (hdone w).1 hw with hw | hw
    · rw [hset v hv, hset w hw]
    · exact absurd hwv (hmixed w v hw hv)
    · exact absurd hvw (hmixed v w hv hw)
    · rw [hpop.sets, if_neg (hold v hv), hpop.sets, if_neg (hold w hw)]
      exact h.eq_of_leads v w hv hw hvw hwv

end Pop

theorem Popped.agrees {x : Nat} {above below : List Nat} (h : t.Stacked relation)
    (hstack : t.stack = above ++ x :: below) (hpop : Popped t t' above x below) :
    Agrees t t' below := by
  obtain ⟨-, hbelow, hactive⟩ := h.parts hstack
  have hsame : ∀ v, ¬ (v ∈ above ∨ v = x) →
      t'.state v = t.state v ∧ ∀ i, Has t'.sets v i ↔ Has t.sets v i := by
    intro v hv
    refine ⟨by rw [hpop.state, if_neg hv], fun i => ?_⟩
    rw [Has, hpop.sets, if_neg fun hmem => hv (.inl hmem)]
    rfl
  refine ⟨fun v hv => low_congr (hsame v (hbelow v hv)).1, fun v hv => (hsame v (hbelow v hv)).2,
    fun v hv => ?_⟩
  obtain ⟨hs, hh⟩ := hsame v fun hmem => h.not_mem_of_done hv (hactive v hmem)
  exact ⟨hs.trans hv, hh⟩

/-! ## Steps -/

/-- The invariant. -/
structure Invariant (relation : Array (List Nat)) (init : Array LookaheadSet)
    (P : LookaheadSet → Prop) (t : Traversal) : Prop where
  sound : t.Sound relation init P
  nested : Nested relation t none t.calls t.stack

theorem Sound.withCalls (h : t.Sound relation init P) (calls : List Frame) :
    ({ t with calls } : Traversal).Sound relation init P :=
  ⟨⟨h.size_progress, h.nodup, h.mem_stack_iff, h.low_le, h.leads_low⟩, ⟨h.size_sets, h.kind,
    h.has_init, h.init_of_has, h.done_next, h.has_of_leads, h.eq_of_leads⟩⟩

theorem Nested.withCalls {callee : Option Nat} {calls : List Frame} {stack : List Nat}
    (h : Nested relation t callee calls stack) (calls' : List Frame) :
    Nested relation { t with calls := calls' } callee calls stack :=
  h.agrees ⟨fun _ _ => rfl, fun _ _ _ => Iff.rfl, fun _ hv => ⟨hv, fun _ => Iff.rfl⟩⟩

theorem Nested.eq_nil {callee : Option Nat} {stack : List Nat}
    (h : Nested relation t callee [] stack) : stack = [] := by
  cases h
  rfl

theorem Nested.uncons {callee : Option Nat} {x height : Nat} {rest : List Nat} {calls : List Frame}
    {stack : List Nat} (h : Nested relation t callee (⟨x, height, rest⟩ :: calls) stack) :
    ∃ above below, stack = above ++ x :: below ∧ height = below.length + 1 ∧
      (∀ v ∈ above, Settled relation t stack x v) ∧ (∀ w ∈ rest, w ∈ relation.getD x []) ∧
      (∀ w, callee = some w → w ∈ relation.getD x []) ∧
      (∀ w ∈ relation.getD x [], w ∈ rest ∨ callee = some w ∨ Examined t stack x w) ∧
      Nested relation t (some x) calls below := by
  cases h with
  | cons hheight hsettled hrest hcallee hexamined h =>
    exact ⟨_, _, rfl, hheight, hsettled, hrest, hcallee, hexamined, h⟩

/-- After the node of the latest call has absorbed a neighbour the invariant holds again. -/
theorem Sound.invariant_absorb (hP : Uniting P) (h : t.Sound relation init P) {x y height : Nat}
    {rest : List Nat} {calls : List Frame} {above below : List Nat}
    (hcalls : t.calls = ⟨x, height, rest⟩ :: calls) (hstack : t.stack = above ++ x :: below)
    (hheight : height = below.length + 1)
    (hsettled : ∀ v ∈ above, Settled relation t t.stack x v ∨
      (y ∈ t.stack ∧ Settled relation t t.stack y v))
    (hrest : ∀ w ∈ rest, w ∈ relation.getD x []) (hxy : y ∈ relation.getD x [])
    (hy : t.state y ≠ .fresh)
    (hexamined : ∀ w ∈ relation.getD x [], w ∈ rest ∨ w = y ∨ Examined t t.stack x w)
    (hn : Nested relation t (some x) calls below) :
    Invariant relation init P (t.absorb x y) where
  sound := h.absorb hP (hstack ▸ List.mem_append_right _ (.head _)) hxy hy
  nested := by
    change Nested relation (t.absorb x y) none t.calls t.stack
    rw [hcalls]
    exact .absorb hP h hstack hheight hsettled hrest hy hexamined hn

theorem Invariant.step_neighbour (hP : Uniting P) (h : Invariant relation init P t)
    {x y height : Nat} {rest : List Nat} {calls : List Frame}
    (hcalls : t.calls = ⟨x, height, y :: rest⟩ :: calls) :
    Invariant relation init P (t.step relation) := by
  have hnested : Nested relation t none (⟨x, height, y :: rest⟩ :: calls) t.stack :=
    hcalls ▸ h.nested
  have hsound := h.sound.withCalls (⟨x, height, rest⟩ :: calls)
  replace hnested := hnested.withCalls (⟨x, height, rest⟩ :: calls)
  unfold step
  rw [hcalls]
  dsimp only
  generalize hu : ({ t with calls := ⟨x, height, rest⟩ :: calls } : Traversal) = u at hsound hnested
  have hucalls : u.calls = ⟨x, height, rest⟩ :: calls := hu ▸ rfl
  have hustack : t.stack = u.stack := hu ▸ rfl
  rw [hustack] at hnested
  obtain ⟨above, below, hstack, hheight, hsettled, hrest, -, hexamined, hn⟩ := hnested.uncons
  have hxy := hrest y (.head _)
  have hrest' : ∀ w ∈ rest, w ∈ relation.getD x [] := fun w hw => hrest w (.tail _ hw)
  have hexamined' : ∀ w ∈ relation.getD x [], w ∈ rest ∨ w = y ∨ Examined u u.stack x w := by
    intro w hw
    rcases hexamined w hw with hw | hw | hw
    · exact (List.mem_cons.1 hw).elim (fun he => .inr (.inl he)) .inl
    · cases hw
    · exact .inr (.inr hw)
  split
  · rename_i hy
    refine ⟨hsound.enter hy, Nested.enter hsound.toStacked hy ?_⟩
    rw [hucalls]
    rw [hstack] at hsettled hexamined' ⊢
    refine .cons hheight hsettled hrest' (fun w hw => ?_) (fun w hw => ?_) hn
    · exact Option.some.inj hw ▸ hxy
    · exact (hexamined' w hw).imp_right (Or.imp_left fun he => by rw [he])
  · rename_i hy
    exact hsound.invariant_absorb hP hucalls hstack hheight (fun v hv => .inl (hsettled v hv)) hrest'
      hxy hy hexamined' hn

/-- What the caller of an ended call, if there is one, takes over from its node. -/
def returnTo (x : Nat) (t : Traversal) : List Frame → Traversal
  | [] => t
  | caller :: _ => t.absorb caller.node x

section Return

variable {x : Nat} {above below : List Nat} {calls : List Frame} (hP : Uniting P)
  (h : t.Sound relation init P) (hcalls : t.calls = calls) (hstack : t.stack = above ++ x :: below)
  (hsettled : ∀ v ∈ above, Settled relation t t.stack x v)
  (hexamined : ∀ w ∈ relation.getD x [], Examined t t.stack x w)
  (hn : Nested relation t (some x) calls below)
include hP h hcalls hstack hsettled hexamined hn

/-- A node that leads no lower is left for good with those above it, and its caller finds it done. -/
theorem Sound.invariant_popTo (hlow : t.low x = below.length + 1) :
    Invariant relation init P ((Traversal.popTo x t.stack t).returnTo x calls) := by
  have hpop := h.popped hstack
  have hpcalls : (Traversal.popTo x t.stack t).calls = calls :=
    (freshCount_popTo x t.stack t).2.trans hcalls
  generalize Traversal.popTo x t.stack t = v at hpop hpcalls
  have hvsound := h.popTo hstack hsettled hexamined hlow hpop
  have hdone : v.state x = .done := by rw [hpop.state, if_pos (.inr rfl)]
  have hst := hpop.stack
  replace hn := hn.agrees (hpop.agrees h.toStacked hstack)
  cases calls with
  | nil => exact ⟨hvsound, by rw [returnTo, hpcalls, hst, hn.eq_nil]; exact .nil none⟩
  | cons caller calls =>
    obtain ⟨p, height, rest⟩ := caller
    obtain ⟨above', below', rfl, hheight, hsettled', hrest, hcallee, hexamined', hn'⟩ := hn.uncons
    refine hvsound.invariant_absorb hP hpcalls hst hheight (fun v hv => .inl ?_) hrest (hcallee x rfl)
      (hdone ▸ fun he => nomatch he) (fun w hw => ?_) hn'
    · exact hst ▸ hsettled' v hv
    · rw [hst]
      exact (hexamined' w hw).imp_right (Or.imp_left fun he => (Option.some.inj he).symm)

/-- A node that leads lower stays on the stack, settled there with respect to its caller. -/
theorem Sound.invariant_returnTo (hlow : t.low x < below.length + 1) :
    Invariant relation init P (t.returnTo x calls) := by
  have hx : x ∈ t.stack := hstack ▸ List.mem_append_right _ (.head _)
  cases calls with
  | nil =>
    -- nothing is below the node, so that it cannot lead lower
    obtain rfl := hn.eq_nil
    obtain ⟨w, hw, heq, -⟩ := h.leads_low x hx
    have hpos := heightIn_pos hw
    rw [List.length_nil] at hlow
    omega
  | cons caller calls =>
    obtain ⟨p, height, rest⟩ := caller
    have hxheight : heightIn t.stack x = below.length + 1 := by
      rw [hstack, heightIn_append (h.parts hstack).1, heightIn_cons_self]
    obtain ⟨above', below', rfl, hheight, hsettled', hrest, hcallee, hexaminedp, hn'⟩ := hn.uncons
    have hstack' : t.stack = (above ++ x :: above') ++ p :: below' := by simp [hstack]
    have hsplit : t.stack = (above ++ [x]) ++ (above' ++ p :: below') := by simp [hstack]
    have hnodup := hsplit ▸ h.nodup
    refine h.invariant_absorb hP hcalls hstack' hheight (fun v hv => ?_) hrest (hcallee x rfl)
      (h.active hx ▸ fun he => nomatch he) (fun w hw => ?_) hn'
    · rcases List.mem_append.1 hv with hv | hv
      · exact .inr ⟨hx, hsettled v hv⟩
      · rcases List.mem_cons.1 hv with rfl | hv
        · exact .inr ⟨hx, fun _ hi => hi, Nat.le_refl _, hxheight ▸ hlow, hexamined⟩
        · rw [hsplit]
          exact .inl ((hsettled' v hv).append hnodup (List.mem_append_left _ hv))
    · rcases hexaminedp w hw with hw | hw | hw
      · exact .inl hw
      · exact .inr (.inl (Option.some.inj hw).symm)
      · rw [hsplit]
        exact .inr (.inr (hw.append hnodup))

end Return

/-- When the latest call ends, its node is done, or it leads lower and is settled below the
caller. -/
theorem Invariant.step_end (hP : Uniting P) (h : Invariant relation init P t) {x height : Nat}
    {calls : List Frame} (hcalls : t.calls = ⟨x, height, []⟩ :: calls) :
    Invariant relation init P (t.step relation) := by
  have hnested : Nested relation t none (⟨x, height, []⟩ :: calls) t.stack := hcalls ▸ h.nested
  have hsound := h.sound.withCalls calls
  replace hnested := hnested.withCalls calls
  have hstep : t.step relation = ((leave x height { t with calls }).returnTo x calls) := by
    unfold step
    rw [hcalls]
    cases calls <;> rfl
  rw [hstep]
  generalize hu : ({ t with calls } : Traversal) = u at hsound hnested
  have hucalls : u.calls = calls := hu ▸ rfl
  have hustack : t.stack = u.stack := hu ▸ rfl
  rw [hustack] at hnested
  obtain ⟨above, below, hstack, hheight, hsettled, -, -, hexamined, hn⟩ := hnested.uncons
  have hexamined' : ∀ w ∈ relation.getD x [], Examined u u.stack x w := by
    intro w hw
    rcases hexamined w hw with hw | hw | hw
    · cases hw
    · cases hw
    · exact hw
  have hx : x ∈ u.stack := hstack ▸ List.mem_append_right _ (.head _)
  have hxheight : heightIn u.stack x = below.length + 1 := by
    rw [hstack, heightIn_append (hsound.parts hstack).1, heightIn_cons_self]
  unfold Traversal.leave
  by_cases hlow : u.low x = height
  · rw [if_pos (hlow ▸ hsound.active hx)]
    exact hsound.invariant_popTo hP hucalls hstack hsettled hexamined' hn (hlow.trans hheight)
  · have hle := hsound.low_le x hx
    rw [if_neg fun he => hlow (low_of_active he)]
    exact hsound.invariant_returnTo hP hucalls hstack hsettled hexamined' hn (by omega)

theorem Invariant.step (hP : Uniting P) (h : Invariant relation init P t) :
    Invariant relation init P (t.step relation) := by
  match hcalls : t.calls with
  | [] =>
    have hstep : t.step relation = t := by
      unfold Traversal.step
      rw [hcalls]
    rw [hstep]
    exact h
  | ⟨x, height, y :: rest⟩ :: calls => exact h.step_neighbour hP hcalls
  | ⟨x, height, []⟩ :: calls => exact h.step_end hP hcalls

/-! ## Runs -/

theorem state_popTo_ne_fresh {x v : Nat} (stack : List Nat) {t : Traversal} (hv : t.state v ≠ .fresh) :
    (popTo x stack t).state v ≠ .fresh := by
  induction stack generalizing t with
  | nil => exact hv
  | cons top stack ih =>
    have hset : (t.progress.setIfInBounds top .done).getD v .done ≠ .fresh := by
      rw [Array.getD_setIfInBounds]
      split
      · exact fun he => nomatch he
      · exact hv
    simp only [popTo]
    split
    · exact hset
    · exact ih hset

/-- What has been entered stays entered. -/
theorem state_step_ne_fresh {v : Nat} (hv : t.state v ≠ .fresh) :
    (t.step relation).state v ≠ .fresh := by
  have habsorb : ∀ {t : Traversal} {x y : Nat}, t.state v ≠ .fresh →
      (t.absorb x y).state v ≠ .fresh := by
    intro t x y hv
    rw [state_absorb]
    split
    · rename_i he
      subst he
      revert hv
      cases t.state v <;> cases t.state y <;> simp [Progress.lower]
    · exact hv
  have hleave : ∀ {t : Traversal} {x height : Nat}, t.state v ≠ .fresh →
      (t.leave x height).state v ≠ .fresh := by
    intro t x height hv
    unfold Traversal.leave
    split
    · exact state_popTo_ne_fresh t.stack hv
    · exact hv
  unfold step
  split
  · exact hv
  · dsimp only
    split
    · rename_i hy
      rw [state_enter hy]
      split
      · simp
      · exact hv
    · exact habsorb hv
  · dsimp only
    split
    · exact hleave hv
    · exact habsorb (hleave hv)

theorem Invariant.run (hP : Uniting P) (h : Invariant relation init P t) :
    Invariant relation init P (t.run relation) ∧ (t.run relation).calls = [] ∧
      ∀ v, t.state v ≠ .fresh → (t.run relation).state v ≠ .fresh := by
  induction t using run.induct relation with
  | case1 t hcalls =>
    rw [Traversal.run, if_pos hcalls]
    exact ⟨h, hcalls, fun _ hv => hv⟩
  | case2 t hcalls ih =>
    rw [Traversal.run, if_neg hcalls]
    obtain ⟨hinv, hnil, hfresh⟩ := ih (h.step hP)
    exact ⟨hinv, hnil, fun v hv => hfresh v (state_step_ne_fresh hv)⟩

/-- A visit that begins between two runs ends between two runs, and the node has been entered. -/
theorem Invariant.visit (hP : Uniting P) (h : Invariant relation init P t) (hcalls : t.calls = [])
    (x : Nat) :
    Invariant relation init P (t.visit relation x) ∧ (t.visit relation x).calls = [] ∧
      (t.visit relation x).state x ≠ .fresh ∧
      ∀ v, t.state v ≠ .fresh → (t.visit relation x).state v ≠ .fresh := by
  unfold Traversal.visit
  split
  · rename_i hx
    have hnil : t.stack = [] := (hcalls ▸ h.nested : Nested relation t none [] t.stack).eq_nil
    have henter : Invariant relation init P (t.enter relation x) := by
      refine ⟨h.sound.enter hx, Nested.enter h.sound.toStacked hx ?_⟩
      rw [hcalls, hnil]
      exact .nil _
    obtain ⟨hinv, hcalls', hfresh⟩ := henter.run hP
    have hstate := @state_enter relation t x hx
    refine ⟨hinv, hcalls', hfresh x ?_, fun v hv => hfresh v ?_⟩
    · rw [hstate, if_pos rfl]
      exact fun he => nomatch he
    · rw [hstate]
      split
      · exact fun he => nomatch he
      · exact hv
  · rename_i hx
    exact ⟨h, hcalls, hx, fun _ hv => hv⟩

theorem Invariant.foldl_visit (hP : Uniting P) (xs : List Nat) (h : Invariant relation init P t)
    (hcalls : t.calls = []) :
    Invariant relation init P (xs.foldl (Traversal.visit relation) t) ∧
      (xs.foldl (Traversal.visit relation) t).calls = [] ∧
      (∀ x ∈ xs, (xs.foldl (Traversal.visit relation) t).state x ≠ .fresh) ∧
      ∀ v, t.state v ≠ .fresh → (xs.foldl (Traversal.visit relation) t).state v ≠ .fresh := by
  induction xs generalizing t with
  | nil => exact ⟨h, hcalls, by simp, fun _ hv => hv⟩
  | cons x xs ih =>
    obtain ⟨hinv, hcalls', hx, hfresh⟩ := h.visit hP hcalls x
    obtain ⟨hinv', hcalls'', hxs, hfresh'⟩ := ih hinv hcalls'
    exact ⟨hinv', hcalls'', List.forall_mem_cons.2 ⟨hfresh' x hx, hxs⟩,
      fun v hv => hfresh' v (hfresh v hv)⟩

/-- Nothing is next to what is no node. -/
theorem eq_of_leads_of_size_le {v w : Nat} (hv : relation.size ≤ v) (h : Leads relation v w) :
    v = w := by
  rcases Relation.ReflTransGen.cases_head h with he | ⟨y, hy, -⟩
  · exact he
  · rw [Array.getD_of_size_le hv] at hy
    cases hy

theorem invariant_start (hsize : init.size = relation.size)
    (hinit : ∀ v < init.size, P (init.getD v default)) :
    Invariant relation init P ⟨init, Array.replicate relation.size .fresh, [], []⟩ := by
  have hout : ∀ v, (⟨init, Array.replicate relation.size .fresh, [], []⟩ : Traversal).state v = .done →
      relation.size ≤ v := by
    intro v hv
    by_contra hlt
    simp [state, Array.getD, Nat.not_le.1 hlt] at hv
  refine ⟨⟨⟨by simp, .nil, fun v => ?_, by simp, by simp⟩, ⟨hsize, hinit, fun v i hi => hi,
    fun v i hi => ⟨v, .refl, hi⟩, fun v hv w hw => ?_, fun v hv w hvw i hi => ?_,
    fun v w hv hw hvw _ => ?_⟩⟩, .nil none⟩
  · constructor
    · intro hmem
      cases hmem
    · rintro ⟨l, hl⟩
      by_cases hlt : v < relation.size <;> simp [state, Array.getD, hlt] at hl
  · rw [Array.getD_of_size_le (hout v hv)] at hw
    cases hw
  · exact eq_of_leads_of_size_le (hout v hv) hvw ▸ hi
  · rw [eq_of_leads_of_size_le (hout v hv) hvw]

end Invariant

end Traversal

end ParseForest
