import ParseForest.Forest.Tree
import ParseForest.Proofs.Forest.Linking
import Mathlib.Data.List.Perm.Subperm

/-!
# Surveying a forest

The survey goes depth first, and what it has entered and not yet left is the way from the root down to
where it is (`Arena.Path`). A child that is entered already closes a cycle. An alternative belongs to one
choice (`Arena.Owned`), so the choice of an entered alternative is entered as well, and no choice has a
child that is: what has one is an alternative, which is left out, or derives nothing.

So when a node is left, either everything below it has been counted, and its count is made of those of its
children, or its count is zero and there is a cycle (`TreeIndex.Settled`). This is what each step of the
survey preserves (`TreeIndex.Surveyed`), and what holds of all that can be reached when it ends
(`TreeIndex.surveyed_ofArena`).
-/

namespace ParseForest

namespace Arena

/-- The node is below the other one, over one child or more. -/
def Below (nodes : Arena) (a id : NodeId) : Prop :=
  Relation.TransGen (fun a c => c ∈ childrenOf nodes a) a id

/-- Some node that can be reached from the root is below itself. -/
def Cyclic (nodes : Arena) (root : NodeId) : Prop := ∃ id, nodes.Reachable root id ∧ nodes.Below id id

/-- An alternative that leads back to its choice belongs to no other. -/
def Owned (nodes : Arena) : Prop := ∀ id p, (node nodes id).isChoice = true → p ∈ childrenOf nodes id →
  nodes.Below p id → ∀ owner, (node nodes owner).isChoice = true → p ∈ childrenOf nodes owner → owner = id

/-- The nodes on the way from the root down to a node, the next one first. -/
inductive Path (nodes : Arena) (root : NodeId) : NodeId → List NodeId → Prop
  | here : Path nodes root root []
  | child {id c : NodeId} {above : List NodeId} (h : Path nodes root id above)
      (hc : c ∈ childrenOf nodes id) : Path nodes root c (id :: above)

variable {nodes : Arena} {root id c : NodeId} {above : List NodeId}

theorem Path.reachable (h : nodes.Path root id above) : nodes.Reachable root id := by
  induction h with
  | here => exact .refl
  | child _ hc ih => exact ih.child hc

/-- What is on the way to a node is above it. -/
theorem Path.below_of_mem (h : nodes.Path root id above) : ∀ a ∈ above, nodes.Below a id := by
  induction h with
  | here => exact fun a ha => by cases ha
  | child _ hc ih =>
    intro a ha
    rcases List.mem_cons.1 ha with rfl | ha
    · exact .single hc
    · exact .tail (ih a ha) hc

/-- A child that is on the way closes a cycle. -/
theorem Path.cyclic (h : nodes.Path root id above) (hc : c ∈ childrenOf nodes id)
    (hmem : c ∈ id :: above) : nodes.Cyclic root :=
  ⟨c, h.reachable.child hc, (h.child hc).below_of_mem c hmem⟩

/-- The choice of an alternative on the way is on the way. -/
theorem Path.exists_owner (hl : nodes.Layered) (hroot : (node nodes root).isPacked = false)
    (h : nodes.Path root id above) : ∀ p ∈ id :: above, (node nodes p).isPacked = true →
      ∃ owner ∈ above, (node nodes owner).isChoice = true ∧ p ∈ childrenOf nodes owner := by
  induction h with
  | here =>
    intro p hp hpacked
    rw [List.mem_singleton.1 hp, hroot] at hpacked
    cases hpacked
  | child _ hc ih =>
    intro p hp hpacked
    rcases List.mem_cons.1 hp with rfl | hp
    · exact ⟨_, .head _, hl.owner _ p hc hpacked, hc⟩
    · obtain ⟨owner, hmem, howner⟩ := ih p hp hpacked
      exact ⟨owner, .tail _ hmem, howner⟩

/-- No child of a choice is on the way to it. -/
def ChoicesFree (nodes : Arena) (root : NodeId) : Prop := ∀ {id c above}, nodes.Path root id above →
  id ∉ above → (node nodes id).isChoice = true → c ∈ childrenOf nodes id → c ∉ id :: above

theorem choicesFree_of_owned (hl : nodes.Layered) (howned : nodes.Owned)
    (hroot : (node nodes root).isPacked = false) : nodes.ChoicesFree root := by
  intro id c above h hnodup hchoice hc hmem
  have hpacked := hl.isPacked id hchoice c hc
  rcases List.mem_cons.1 hmem with rfl | hmem
  · rw [Node.not_isPacked_of_isChoice hchoice] at hpacked
    cases hpacked
  · -- the choice is the one that is on the way already
    obtain ⟨owner, hmem', hchoice', hc'⟩ := h.exists_owner hl hroot c (.tail _ hmem) hpacked
    exact hnodup (howned id c hchoice hc (h.below_of_mem c hmem) owner hchoice' hc' ▸ hmem')

theorem choicesFree_of_acyclic (hacyclic : ¬ nodes.Cyclic root) : nodes.ChoicesFree root :=
  fun hpath _ _ hc hmem => hacyclic (hpath.cyclic hc hmem)

end Arena

namespace TreeIndex

open Arena

/-! ## Marks and counts -/

/-- How far the survey has come with a node of the arena. -/
def mark (index : TreeIndex) (id : NodeId) : Mark := index.marks.getD id .finished

section

variable {nodes : Arena} {index : TreeIndex} {id i : NodeId}

theorem mark_enter (h : id < index.marks.size) :
    (index.enter id).mark i = if i = id then .entered else index.mark i := by
  rw [mark, enter, Array.getD_setIfInBounds, mark]
  simp only [h, and_true]

theorem mark_leave (h : id < index.marks.size) :
    (index.leave nodes id).mark i = if i = id then .finished else index.mark i := by
  rw [mark, leave, Array.getD_setIfInBounds, mark]
  simp only [h, and_true]

theorem count_leave (h : id < index.counts.size) :
    (index.leave nodes id).count i = if i = id then index.countOf nodes id else index.count i := by
  rw [count, leave, Array.getD_setIfInBounds, count]
  simp only [h, and_true]

theorem isCyclic_leaveOut (h : id < index.cyclic.size) :
    (index.leaveOut (some id)).isCyclic i = if i = id then true else index.isCyclic i := by
  simp only [isCyclic, leaveOut, Array.getD_setIfInBounds, h, and_true]

theorem cappedProduct_eq_zero {counts : List Nat} (h : 0 ∈ counts) : cappedProduct counts = 0 := by
  have hzero : ∀ counts : List Nat, counts.foldl (fun acc n => capped (acc * n)) 0 = 0 := by
    intro counts
    induction counts with
    | nil => rfl
    | cons n counts ih => rwa [List.foldl_cons, Nat.zero_mul, show capped 0 = 0 from rfl]
  have hfold : ∀ (counts : List Nat) (acc : Nat), 0 ∈ counts →
      counts.foldl (fun acc n => capped (acc * n)) acc = 0 := by
    intro counts
    induction counts with
    | nil => exact fun _ h => by cases h
    | cons n counts ih =>
      intro acc h
      rw [List.foldl_cons]
      rcases List.mem_cons.1 h with rfl | h
      · rw [Nat.mul_zero, show capped 0 = 0 from rfl, hzero]
      · exact ih _ h
  exact hfold counts 1 h

/-- The count of a node depends on those of its children, and on which are left out. -/
theorem countOf_congr {index' : TreeIndex} (hid : index'.isCyclic id = index.isCyclic id)
    (hcount : ∀ c ∈ childrenOf nodes id, index'.count c = index.count c)
    (hcyclic : ∀ c ∈ childrenOf nodes id, index'.isCyclic c = index.isCyclic c) :
    index'.countOf nodes id = index.countOf nodes id := by
  have hmap : (childrenOf nodes id).map index'.count = (childrenOf nodes id).map index.count :=
    List.map_congr_left hcount
  have hfilter : ((childrenOf nodes id).filter (!index'.isCyclic ·)).map index'.count =
      ((childrenOf nodes id).filter (!index.isCyclic ·)).map index.count := by
    rw [List.filter_congr fun c hc => by rw [hcyclic c hc]]
    exact List.map_congr_left fun c hc => hcount c (List.mem_filter.1 hc).1
  rw [childrenOf] at hmap hfilter
  simp only [countOf, hid, hmap, hfilter]

end

/-! ## What the survey preserves -/

section

variable (nodes : Arena) (root : NodeId) (index : TreeIndex)

/-- A node that has been left: its count is made of those of its children, which have been left as well;
or there is a cycle, and it is a leaf or its count is zero. -/
inductive Settled : NodeId → Prop
  | leaf {id : NodeId} (hk : (∃ i, (node nodes id).kind = .terminal i) ∨ (node nodes id).kind = .epsilon)
      (hcount : index.count id = 1) (hcyclic : nodes.Cyclic root) : Settled id
  | whole {id : NodeId} (hcyclic : index.isCyclic id = false)
      (hcount : index.count id = index.countOf nodes id)
      (hmark : ∀ c ∈ childrenOf nodes id, index.mark c = .finished)
      (h : ∀ c ∈ childrenOf nodes id, Settled c) : Settled id
  | none {id : NodeId} (hchoice : (node nodes id).isChoice = false) (hcount : index.count id = 0)
      (hcyclic : nodes.Cyclic root) : Settled id

/-- The survey is on the way from the root over the nodes `above`. These are entered; what has been left is
settled, and nothing else is counted; and only alternatives are left out, for a cycle. -/
structure Surveyed (above : List NodeId) : Prop where
  marks_size : index.marks.size = nodes.size
  counts_size : index.counts.size = nodes.size
  cyclic_size : index.cyclic.size = nodes.size
  nodup : above.Nodup
  mark_entered_iff : ∀ id, index.mark id = .entered ↔ id ∈ above
  count_eq_zero : ∀ id, index.mark id ≠ .finished → index.count id = 0
  settled : ∀ id < nodes.size, index.mark id = .finished → index.Settled nodes root id
  cyclic : ∀ p, index.isCyclic p = true → (node nodes p).isPacked = true ∧ nodes.Cyclic root ∧
    (index.mark p = .finished → index.count p = 0)

/-- The child of a node has been left; or it is on the way to the node and closes a cycle, for which the
node is left out if it is an alternative. -/
def ChildDone (id c : NodeId) : Prop := index.mark c = .finished ∨
  (nodes.Cyclic root ∧ (node nodes id).isChoice = false ∧
    ((node nodes id).isPacked = true → index.isCyclic id = true))

end

/-- More has been surveyed; what had been left has not been touched. -/
structure Advances (index index' : TreeIndex) : Prop where
  mark : ∀ id, index.mark id = .finished → index'.mark id = .finished
  count : ∀ id, index.mark id = .finished → index'.count id = index.count id
  isCyclic : ∀ id, index.mark id = .finished → index'.isCyclic id = index.isCyclic id
  cyclic : ∀ id, index.isCyclic id = true → index'.isCyclic id = true

theorem Advances.refl (index : TreeIndex) : index.Advances index :=
  ⟨fun _ h => h, fun _ _ => rfl, fun _ _ => rfl, fun _ h => h⟩

theorem Advances.trans {index index' index'' : TreeIndex} (h : index.Advances index')
    (h' : index'.Advances index'') : index.Advances index'' where
  mark id hid := h'.mark id (h.mark id hid)
  count id hid := (h'.count id (h.mark id hid)).trans (h.count id hid)
  isCyclic id hid := (h'.isCyclic id (h.mark id hid)).trans (h.isCyclic id hid)
  cyclic id hid := h'.cyclic id (h.cyclic id hid)

variable {nodes : Arena} {root id c : NodeId} {above : List NodeId} {index index' : TreeIndex}

/-- What is settled stays so. -/
theorem Settled.advances (h : index.Settled nodes root id) (hadv : index.Advances index')
    (hmark : index.mark id = .finished) : index'.Settled nodes root id := by
  induction h with
  | leaf hk hcount hcyclic => exact .leaf hk ((hadv.count _ hmark).trans hcount) hcyclic
  | whole hcyclic hcount hmarks _ ih =>
    refine .whole ((hadv.isCyclic _ hmark).trans hcyclic) ?_ (fun c hc => hadv.mark c (hmarks c hc))
      fun c hc => ih c hc (hmarks c hc)
    rw [hadv.count _ hmark, hcount]
    exact (countOf_congr (hadv.isCyclic _ hmark) (fun c hc => hadv.count c (hmarks c hc)) fun c hc =>
      hadv.isCyclic c (hmarks c hc)).symm
  | none hchoice hcount hcyclic => exact .none hchoice ((hadv.count _ hmark).trans hcount) hcyclic

theorem ChildDone.advances (h : index.ChildDone nodes root id c) (hadv : index.Advances index') :
    index'.ChildDone nodes root id c := by
  refine h.imp (hadv.mark c) ?_
  rintro ⟨hcyclic, hchoice, hflag⟩
  exact ⟨hcyclic, hchoice, fun hpacked => hadv.cyclic id (hflag hpacked)⟩

namespace Surveyed

/-- There are no more nodes on the way than in the arena. -/
theorem length_le (h : index.Surveyed nodes root above) : above.length ≤ nodes.size := by
  have hlt : ∀ i ∈ above, i < nodes.size := by
    intro i hi
    by_contra hge
    have hmark := (h.mark_entered_iff i).2 hi
    rw [mark, Array.getD_of_size_le (by rw [h.marks_size]; exact Nat.not_lt.1 hge)] at hmark
    cases hmark
  simpa using (h.nodup.subperm fun i hi => List.mem_range.2 (hlt i hi)).length_le

/-- A fresh node is entered. -/
theorem enter (h : index.Surveyed nodes root above) (hid : id < nodes.size)
    (hfresh : index.mark id = .fresh) :
    (index.enter id).Surveyed nodes root (id :: above) ∧ index.Advances (index.enter id) := by
  have hmark : ∀ i, (index.enter id).mark i = if i = id then .entered else index.mark i := fun i =>
    mark_enter (h.marks_size ▸ hid)
  have hne : ∀ {i}, index.mark i = .finished → i ≠ id := by
    rintro i hi rfl
    rw [hfresh] at hi
    cases hi
  have hadv : index.Advances (index.enter id) := by
    refine ⟨fun i hi => ?_, fun _ _ => rfl, fun _ _ => rfl, fun _ hi => hi⟩
    rw [hmark, if_neg (hne hi), hi]
  have hfinished : ∀ {i}, (index.enter id).mark i = .finished → index.mark i = .finished := by
    intro i hi
    rw [hmark] at hi
    split at hi
    · cases hi
    · exact hi
  refine ⟨⟨by simp [TreeIndex.enter, h.marks_size], h.counts_size, h.cyclic_size, ?_, fun i => ?_,
    fun i hi => ?_, fun i hlt hi => ?_, fun p hp => ?_⟩, hadv⟩
  · refine List.nodup_cons.2 ⟨fun hmem => ?_, h.nodup⟩
    rw [(h.mark_entered_iff id).2 hmem] at hfresh
    cases hfresh
  · rw [hmark, List.mem_cons, ← h.mark_entered_iff]
    split <;> simp [*]
  · by_cases he : index.mark i = .finished
    · exact absurd (hadv.mark i he) hi
    · exact h.count_eq_zero i he
  · exact (h.settled i hlt (hfinished hi)).advances hadv (hfinished hi)
  · obtain ⟨hpacked, hcyclic, hcount⟩ := h.cyclic p hp
    exact ⟨hpacked, hcyclic, fun hm => hcount (hfinished hm)⟩

/-- The last alternative on the way is left out. -/
theorem leaveOut (h : index.Surveyed nodes root above) (hcyclic : nodes.Cyclic root)
    {innermost : Option NodeId}
    (hin : ∀ p, innermost = some p → p ∈ above ∧ (node nodes p).isPacked = true) :
    (index.leaveOut innermost).Surveyed nodes root above ∧
      index.Advances (index.leaveOut innermost) ∧
      ∀ p, innermost = some p → (index.leaveOut innermost).isCyclic p = true := by
  cases innermost with
  | none => exact ⟨h, .refl index, fun p hp => by cases hp⟩
  | some p =>
    obtain ⟨hmem, hpacked⟩ := hin p rfl
    have hentered := (h.mark_entered_iff p).2 hmem
    have hcyc : ∀ i, (index.leaveOut (some p)).isCyclic i = if i = p then true else index.isCyclic i :=
      fun i => isCyclic_leaveOut (by rw [h.cyclic_size]; exact lt_size_of_isPacked hpacked)
    have hadv : index.Advances (index.leaveOut (some p)) := by
      refine ⟨fun i hi => hi, fun _ _ => rfl, fun i hi => ?_, fun i hi => ?_⟩
      · rw [hcyc, if_neg]
        rintro rfl
        rw [hentered] at hi
        cases hi
      · rw [hcyc, hi, ite_self]
    refine ⟨⟨h.marks_size, h.counts_size, ?_, h.nodup, h.mark_entered_iff, h.count_eq_zero,
      fun i hlt hi => (h.settled i hlt hi).advances hadv hi, fun i hi => ?_⟩, hadv, fun q hq => ?_⟩
    · simp [TreeIndex.leaveOut, h.cyclic_size]
    · rw [hcyc] at hi
      split at hi
      · rename_i he
        subst he
        exact ⟨hpacked, hcyclic, fun hm => by cases hentered.symm.trans hm⟩
      · exact h.cyclic i hi
    · rw [hcyc, if_pos (Option.some.inj hq).symm]

/-- Leaving a node touches nothing that has been left before. -/
theorem advances_leave (h : index.Surveyed nodes root (id :: above)) (hid : id < nodes.size) :
    index.Advances (index.leave nodes id) := by
  have hne : ∀ {i}, index.mark i = .finished → i ≠ id := by
    rintro i hi rfl
    cases ((h.mark_entered_iff i).2 (.head _)).symm.trans hi
  refine ⟨fun i hi => ?_, fun i hi => ?_, fun _ _ => rfl, fun _ hi => hi⟩
  · rw [mark_leave (h.marks_size ▸ hid), hi, ite_self]
  · rw [count_leave (h.counts_size ▸ hid), if_neg (hne hi)]

section

variable (hl : nodes.Layered) (hid : id < nodes.size)
  (hdone : ∀ c ∈ childrenOf nodes id, index.ChildDone nodes root id c)
include hl hid hdone

/-- A node is settled when it is left, if each child has been left or closes a cycle. -/
theorem settled_leave (h : index.Surveyed nodes root (id :: above)) :
    (index.leave nodes id).Settled nodes root id := by
  have hcount : (index.leave nodes id).count id = index.countOf nodes id := by
    rw [count_leave (h.counts_size ▸ hid), if_pos rfl]
  by_cases hall : ∀ c ∈ childrenOf nodes id, index.mark c = .finished
  · cases hflag : index.isCyclic id with
    | true =>
      obtain ⟨hpacked, hcyclic, -⟩ := h.cyclic id hflag
      obtain ⟨A, alt, hk⟩ := Node.isPacked_iff.1 hpacked
      refine .none (by rw [Node.isChoice, hk]) ?_ hcyclic
      simp [hcount, countOf, hk, hflag]
    | false =>
      have hadv := h.advances_leave hid
      have hsame : (index.leave nodes id).countOf nodes id = index.countOf nodes id :=
        countOf_congr rfl (fun c hc => hadv.count c (hall c hc)) fun _ _ => rfl
      exact .whole hflag (hcount.trans hsame.symm) (fun c hc => hadv.mark c (hall c hc)) fun c hc =>
        (h.settled c (hl.closed id c hc) (hall c hc)).advances hadv (hall c hc)
  · -- a child is on the way, and has no count yet
    obtain ⟨c, hc, hmark⟩ : ∃ c ∈ childrenOf nodes id, index.mark c ≠ .finished := by
      simpa using hall
    obtain ⟨hcyclic, hchoice, hflag⟩ := (hdone c hc).resolve_left hmark
    have hzero : cappedProduct ((node nodes id).children.toList.map index.count) = 0 :=
      cappedProduct_eq_zero (List.mem_map.2 ⟨c, hc, h.count_eq_zero c hmark⟩)
    cases hk : (node nodes id).kind with
    | symbol A => simp [Node.isChoice, hk] at hchoice
    | intermediate A alt dot => simp [Node.isChoice, hk] at hchoice
    | packed A alt =>
      refine .none hchoice ?_ hcyclic
      simp [hcount, countOf, hk, hflag (by rw [Node.isPacked, hk])]
    | nulled A alt dot =>
      refine .none hchoice ?_ hcyclic
      simp [hcount, countOf, hk, hzero]
    | terminal i => exact .leaf (.inl ⟨i, hk⟩) (by simp [hcount, countOf, hk]) hcyclic
    | epsilon => exact .leaf (.inr hk) (by simp [hcount, countOf, hk]) hcyclic

/-- The last node on the way is left. -/
theorem leave (h : index.Surveyed nodes root (id :: above)) :
    (index.leave nodes id).Surveyed nodes root above := by
  have hadv := h.advances_leave hid
  have hmark : ∀ i, (index.leave nodes id).mark i = if i = id then .finished else index.mark i :=
    fun i => mark_leave (h.marks_size ▸ hid)
  have hcount : ∀ i, (index.leave nodes id).count i =
      if i = id then index.countOf nodes id else index.count i :=
    fun i => count_leave (h.counts_size ▸ hid)
  obtain ⟨hnot, hnodup⟩ := List.nodup_cons.1 h.nodup
  refine ⟨by simp [TreeIndex.leave, h.marks_size], by simp [TreeIndex.leave, h.counts_size],
    h.cyclic_size, hnodup, fun i => ?_, fun i hi => ?_, fun i hlt hi => ?_, fun p hp => ?_⟩
  · by_cases he : i = id
    · subst he
      simp [hmark, hnot]
    · rw [hmark, if_neg he, h.mark_entered_iff, List.mem_cons, or_iff_right he]
  · rw [hmark] at hi
    rw [hcount]
    split at hi
    · exact absurd rfl hi
    · rename_i he
      rw [if_neg he]
      exact h.count_eq_zero i hi
  · by_cases he : i = id
    · rw [he]
      exact h.settled_leave hl hid hdone
    · rw [hmark, if_neg he] at hi
      exact (h.settled i hlt hi).advances hadv hi
  · have hflag : index.isCyclic p = true := hp
    obtain ⟨hpacked, hcyclic, hzero⟩ := h.cyclic p hflag
    refine ⟨hpacked, hcyclic, fun hm => ?_⟩
    rw [hcount]
    split
    · rename_i he
      subst he
      obtain ⟨A, alt, hk⟩ := Node.isPacked_iff.1 hpacked
      simp [countOf, hk, hflag]
    · rename_i he
      rw [hmark, if_neg he] at hm
      exact hzero hm

end

/-- One child after the other is dealt with. -/
theorem foldl {step : TreeIndex → NodeId → TreeIndex} {cs : List NodeId}
    (hstep : ∀ c ∈ cs, ∀ current, current.Surveyed nodes root above →
      (step current c).Surveyed nodes root above ∧ current.Advances (step current c) ∧
      (step current c).ChildDone nodes root id c)
    (h : index.Surveyed nodes root above) :
    (cs.foldl step index).Surveyed nodes root above ∧ index.Advances (cs.foldl step index) ∧
      ∀ c ∈ cs, (cs.foldl step index).ChildDone nodes root id c := by
  induction cs generalizing index with
  | nil => exact ⟨h, .refl index, fun c hc => by cases hc⟩
  | cons c cs ih =>
    obtain ⟨hs, hadv, hdone⟩ := hstep c (.head _) index h
    obtain ⟨hs', hadv', hdone'⟩ := ih (fun d hd => hstep d (.tail _ hd)) hs
    refine ⟨hs', hadv.trans hadv', fun d hd => ?_⟩
    rcases List.mem_cons.1 hd with rfl | hd
    · exact hdone.advances hadv'
    · exact hdone' d hd

end Surveyed

/-! ## The survey -/

/-- What the survey does with a child. -/
def surveyChild (nodes : Arena) (fuel : Nat) (innermost : Option NodeId) (index : TreeIndex)
    (c : NodeId) : TreeIndex :=
  match index.mark c with
  | .fresh => survey nodes fuel innermost c index
  | .entered => index.leaveOut innermost
  | .finished => index

theorem survey_succ (fuel : Nat) (innermost : Option NodeId) (id : NodeId) (index : TreeIndex) :
    survey nodes (fuel + 1) innermost id index =
      ((childrenOf nodes id).foldl
        (surveyChild nodes fuel (if (node nodes id).isPacked then some id else innermost))
        (index.enter id)).leave nodes id := rfl

/-- Surveying a fresh node below the way finishes it. -/
theorem survey_spec (hl : nodes.Layered) (hfree : nodes.ChoicesFree root) (fuel : Nat)
    {innermost : Option NodeId} (hfuel : nodes.size < fuel + above.length)
    (hpath : nodes.Path root id above) (hid : id < nodes.size) (h : index.Surveyed nodes root above)
    (hfresh : index.mark id = .fresh)
    (hin : ∀ p, innermost = some p → p ∈ above ∧ (node nodes p).isPacked = true) :
    (survey nodes fuel innermost id index).Surveyed nodes root above ∧
      index.Advances (survey nodes fuel innermost id index) ∧
      (survey nodes fuel innermost id index).mark id = .finished := by
  induction fuel generalizing innermost id above index with
  | zero =>
    have := h.length_le
    omega
  | succ fuel ih =>
    rw [survey_succ]
    generalize hin' : (if (node nodes id).isPacked then some id else innermost) = innermost'
    have hin'' : ∀ p, innermost' = some p → p ∈ id :: above ∧ (node nodes p).isPacked = true := by
      intro p hp
      rw [← hin'] at hp
      split at hp
      · rename_i hpacked
        obtain rfl := Option.some.inj hp
        exact ⟨.head _, hpacked⟩
      · exact ⟨.tail _ (hin p hp).1, (hin p hp).2⟩
    obtain ⟨hentered, hadv⟩ := h.enter hid hfresh
    have hnodup := (List.nodup_cons.1 hentered.nodup).1
    have hchild : ∀ c ∈ childrenOf nodes id, ∀ current, current.Surveyed nodes root (id :: above) →
        (surveyChild nodes fuel innermost' current c).Surveyed nodes root (id :: above) ∧
        current.Advances (surveyChild nodes fuel innermost' current c) ∧
        (surveyChild nodes fuel innermost' current c).ChildDone nodes root id c := by
      intro c hc current hcur
      unfold surveyChild
      cases hm : current.mark c with
      | fresh =>
        obtain ⟨hs, ha, hdone⟩ := ih (by rw [List.length_cons]; omega) (hpath.child hc)
          (hl.closed id c hc) hcur hm hin''
        exact ⟨hs, ha, .inl hdone⟩
      | finished => exact ⟨hcur, .refl current, .inl hm⟩
      | entered =>
        have hmem := (hcur.mark_entered_iff c).1 hm
        have hcyclic := hpath.cyclic hc hmem
        obtain ⟨hs, ha, hflag⟩ := hcur.leaveOut hcyclic hin''
        refine ⟨hs, ha, .inr ⟨hcyclic, ?_, fun hpacked => hflag id ?_⟩⟩
        · by_contra hchoice
          exact hfree hpath hnodup (by simpa using hchoice) hc hmem
        · rw [← hin', if_pos hpacked]
    obtain ⟨hs, ha, hdone⟩ := hentered.foldl hchild
    have hleave := hs.advances_leave hid
    refine ⟨hs.leave hl hid hdone, (hadv.trans ha).trans hleave, ?_⟩
    rw [mark_leave (hs.marks_size ▸ hid), if_pos rfl]

/-- When the survey ends, the root and what is below it has been left. -/
theorem surveyed_of_free (hl : nodes.Layered) (hfree : nodes.ChoicesFree root) (hlt : root < nodes.size) :
    (ofArena nodes root).Surveyed nodes root [] ∧ (ofArena nodes root).mark root = .finished := by
  have hmark : ∀ i, (empty nodes.size).mark i = if i < nodes.size then .fresh else .finished := by
    intro i
    rw [mark, empty, Array.getD_eq_getD_getElem?, Array.getElem?_replicate]
    split <;> rfl
  have hempty : (empty nodes.size).Surveyed nodes root [] := by
    refine ⟨by simp [empty], by simp [empty], by simp [empty], .nil, fun i => ?_, fun i _ => ?_,
      fun i hi hm => ?_, fun p hp => ?_⟩
    · rw [hmark]
      split <;> simp
    · simp only [count, empty, Array.getD_eq_getD_getElem?, Array.getElem?_replicate]
      split <;> rfl
    · rw [hmark, if_pos hi] at hm
      cases hm
    · simp only [isCyclic, empty, Array.getD_eq_getD_getElem?, Array.getElem?_replicate] at hp
      split at hp <;> cases hp
  have hfresh : (empty nodes.size).mark root = .fresh := by rw [hmark, if_pos hlt]
  have hspec := survey_spec hl hfree (nodes.size + 1) (by simp) .here hlt hempty hfresh
    fun p (hp : none = some p) => by cases hp
  exact ⟨hspec.1, hspec.2.2⟩

/-- The survey of an arena in which alternatives are owned once. -/
theorem surveyed_ofArena (hl : nodes.Layered) (howned : nodes.Owned)
    (hroot : (node nodes root).isPacked = false) (hlt : root < nodes.size) :
    (ofArena nodes root).Surveyed nodes root [] ∧ (ofArena nodes root).mark root = .finished :=
  surveyed_of_free hl (choicesFree_of_owned hl howned hroot) hlt

/-- The survey of an arena in which no cycle can be reached. -/
theorem surveyed_of_acyclic (hl : nodes.Layered) (hacyclic : ¬ nodes.Cyclic root) (hlt : root < nodes.size) :
    (ofArena nodes root).Surveyed nodes root [] ∧ (ofArena nodes root).mark root = .finished :=
  surveyed_of_free hl (choicesFree_of_acyclic hacyclic) hlt

end TreeIndex

end ParseForest
