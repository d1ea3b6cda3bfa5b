import ParseForest.Proofs.Parser.Sharing

/-!
# Parts of right-hand sides come from walks

The node of a part of a right-hand side is made for a walk: when a reduction begins with a part that derives
nothing, and when a walk goes on after an edge. The walk is noted then, if it has not been at this level
(`Engine.NotesWalks`), and what is noted is pending when the step is over. So a run that has made such a node
has been in a state with a pending walk (`Engine.Reaches.exists_walk`).
-/

namespace ParseForest

variable {σ : Type}

namespace Engine

variable {input : ParseInput σ} {e e' e'' : Engine σ} {start : StackId} {ph : Phase} {user : σ} {l : Nat}

/-- Nothing that is pending or noted is forgotten. A walk that has been noted is pending, and where the node
of a part has been made some walk is noted. -/
structure NotesWalks (e e' : Engine σ) : Prop where
  mem_pending : ∀ p ∈ e.pending, p ∈ e'.pending
  mem_walks : ∀ w ∈ e.walks, w ∈ e'.walks
  pending_of_noted : ∀ w ∈ e'.walks, w ∈ e.walks ∨ .walk w ∈ e'.pending
  noted_of_made : ∀ key ∈ e'.intermediates, key ∈ e.intermediates ∨ ∃ w, w ∈ e'.walks

theorem NotesWalks.of_eq (hp : ∀ p ∈ e.pending, p ∈ e'.pending) (hw : e'.walks = e.walks)
    (hi : e'.intermediates = e.intermediates) : NotesWalks e e' :=
  ⟨hp, fun _ h => hw ▸ h, fun _ h => .inl (hw ▸ h), fun _ h => .inl (hi ▸ h)⟩

theorem NotesWalks.refl (e : Engine σ) : NotesWalks e e := .of_eq (fun _ => id) rfl rfl

theorem NotesWalks.trans (h : NotesWalks e e') (h' : NotesWalks e' e'') : NotesWalks e e'' where
  mem_pending p hp := h'.mem_pending p (h.mem_pending p hp)
  mem_walks w hw := h'.mem_walks w (h.mem_walks w hw)
  pending_of_noted w hw := (h'.pending_of_noted w hw).elim
    (fun hw => (h.pending_of_noted w hw).imp_right (h'.mem_pending _)) .inr
  noted_of_made key hkey := (h'.noted_of_made key hkey).elim
    (fun hkey => (h.noted_of_made key hkey).imp_right fun ⟨w, hw⟩ => ⟨w, h'.mem_walks w hw⟩) .inr

/-- The parts that are made for a walk are made when it is noted. -/
theorem NotesWalks.of_noted (hp : e'.pending = e.pending) (hw : e'.walks = e.walks)
    (h : NotesWalks e' e'') {w : Walk} (hmem : w ∈ e''.walks) : NotesWalks e e'' :=
  ⟨hp ▸ h.mem_pending, hw ▸ h.mem_walks, hw ▸ h.pending_of_noted, fun _ _ => .inr ⟨w, hmem⟩⟩

/-- A loop notes walks if its body does. -/
theorem notesWalks_forM {α : Type} {f : α → EngineM σ Unit} (xs : List α)
    (h : ∀ x e, Ends (f x) (fun _ => NotesWalks e) (fun _ => True) e) :
    Ends (xs.forM f) (fun _ => NotesWalks e) (fun _ => True) e :=
  Ends.forM (I := fun _ => NotesWalks e) xs (.refl e) fun x _ e' _ hI => (h x e').imp fun _ _ => hI.trans

theorem push_notesWalks (p : Pending) : Ends (push p) (fun _ => NotesWalks e) (fun _ => True) e :=
  .of_eq (fun _ => .tail _) rfl rfl

theorem pushWalk_notesWalks (w : Walk) :
    Ends (pushWalk w) (fun _ e' => NotesWalks e e' ∧ w ∈ e'.walks) (fun _ => True) e := by
  simp only [pushWalk, push, ends_bind, ends_get]
  split
  · simp only [ends_bind, ends_modify]
    have hinsert := @mem_insert_iff _ _ _ _ e.walks w
    refine ⟨⟨fun _ => .tail _, fun _ hw' => (hinsert _).2 (.inl hw'), fun w' hw' => ?_, fun _ => .inl⟩,
      (hinsert _).2 (.inr rfl)⟩
    rcases (hinsert w').1 hw' with hw' | rfl
    · exact .inl hw'
    · exact .inr (.head _)
  · rename_i hw
    exact ⟨.refl e, by simpa using hw⟩

/-- The node of a part is made, and nothing is queued. -/
theorem intermediate_same (A : RuleId) (alt dot left : Nat) (first second : NodeId) :
    Ends (intermediate A alt dot left first second)
      (fun _ e' => e'.pending = e.pending ∧ e'.walks = e.walks) (fun _ => True) e := by
  simp only [intermediate, intermediateNode, newNode, pack, ends_bind, ends_get]
  split <;> simp only [ends_bind, ends_pure, ends_modify, ends_modifyGet] <;> split <;> simp

theorem queueNode_notesWalks (u : StackId) :
    Ends (queueNode input u) (fun _ => NotesWalks e) (fun _ => True) e := by
  simp only [queueNode, nodeActions, ends_bind, ends_get, ends_pure]
  refine notesWalks_forM _ fun a e => ?_
  rw [ends_modify]
  cases a with
  | shift target =>
    rw [queueAction]
    split <;> exact .of_eq (fun _ => id) rfl rfl
  | reduce A alt n =>
    cases n with
    | zero =>
      rw [queueAction]
      split
      · exact .refl e
      · exact .of_eq (fun _ => .tail _) rfl rfl
    | succ n => exact .refl e
  | _ => exact .refl e

theorem queueReduction_notesWalks (edge : StackEdge) (A : RuleId) (alt length : Nat) :
    Ends (queueReduction input edge A alt length) (fun _ => NotesWalks e) (fun _ => True) e := by
  have hnulled : Ends (nulledTail input A alt length) (fun _ e' => e' = e) (fun _ => True) e := by
    rw [nulledTail]
    split
    · rfl
    · split <;> simp
  rw [queueReduction, ends_bind]
  refine hnulled.imp ?_
  rintro part _ rfl
  split
  · exact push_notesWalks _
  · cases part with
    | none => exact (pushWalk_notesWalks _).imp fun _ _ => And.left
    | some part =>
      dsimp only
      simp only [levelOf, ends_bind, ends_get, ends_pure]
      refine (intermediate_same ..).imp fun tail e₁ hsame => ?_
      exact (pushWalk_notesWalks _).imp fun _ _ h => .of_noted hsame.1 hsame.2 h.1 h.2

theorem queueEdge_notesWalks (u : StackId) (edge : StackEdge) :
    Ends (queueEdge input u edge) (fun _ => NotesWalks e) (fun _ => True) e := by
  simp only [queueEdge, nodeActions, ends_bind, ends_get, ends_pure]
  refine notesWalks_forM _ fun a e => ?_
  unfold queueEdgeAction
  split
  · exact queueReduction_notesWalks ..
  · exact .refl e

theorem queueFirst_notesWalks (u : StackId) :
    Ends (queueFirst input l u) (fun _ => NotesWalks e) (fun _ => True) e := by
  rw [queueFirst]
  split
  · exact queueNode_notesWalks u
  · simp only [queueShifted, ends_bind, ends_get]
    exact (queueNode_notesWalks u).imp fun _ e₁ h =>
      (notesWalks_forM _ fun edge _ => queueEdge_notesWalks u edge).imp fun _ _ => h.trans

theorem internStack_notesWalks (state : StateId) :
    Ends (internStack l state) (fun _ => NotesWalks e) (fun _ => True) e := by
  simp only [internStack, ends_bind, ends_get]
  split
  · exact .of_eq (fun _ => id) rfl rfl
  · trivial

theorem addEdge_notesWalks (u : StackId) (edge : StackEdge) :
    Ends (addEdge u edge) (fun _ => NotesWalks e) (fun _ => True) e := by
  rw [addEdge, ends_modifyGet]
  split <;> exact .of_eq (fun _ => id) rfl rfl

theorem gotoState_same (u : StackId) (A : RuleId) :
    Ends (gotoState input u A) (fun _ e' => e' = e) (fun _ => True) e := by
  simp only [gotoState, ends_bind, ends_get]
  split <;> simp

theorem reduceEmpty_notesWalks (u : StackId) (A : RuleId) :
    Ends (reduceEmpty input u A) (fun _ => NotesWalks e) (fun _ => True) e := by
  rw [reduceEmpty]
  split
  · trivial
  · simp only [ends_bind, ends_get]
    refine (gotoState_same u A).imp ?_
    rintro state _ rfl
    refine (internStack_notesWalks state).imp fun x e₁ h₁ => ?_
    refine (addEdge_notesWalks ..).imp fun isNew e₂ h₂ => ?_
    split
    · split
      · exact (queueNode_notesWalks _).imp fun _ _ h₃ => h₁.trans (h₂.trans h₃)
      · exact h₁.trans h₂
    · exact h₁.trans h₂

theorem symbolNode_notesWalks (A : RuleId) (left : Nat) :
    Ends (symbolNode A left) (fun _ => NotesWalks e) (fun _ => True) e := by
  simp only [symbolNode, newNode, ends_bind, ends_get]
  split <;> exact .of_eq (fun _ => id) rfl rfl

theorem terminalNode_notesWalks (i : Nat) :
    Ends (terminalNode i) (fun _ => NotesWalks e) (fun _ => True) e := by
  simp only [terminalNode, newNode, ends_bind, ends_get]
  split <;> exact .of_eq (fun _ => id) rfl rfl

theorem addAlternative_notesWalks (d : Deferred) :
    Ends (addAlternative input d) (fun _ => NotesWalks e) (fun _ => True) e := by
  simp only [addAlternative, judge, pack, bury, reject, ends_bind, ends_get]
  split
  · exact .refl e
  · split
    · exact .of_eq (fun _ => id) rfl rfl
    · rw [ends_bind, ends_modifyGet]
      split <;> exact .of_eq (fun _ => id) rfl rfl

theorem settleOne_notesWalks (d : Deferred) :
    Ends (settleOne input d) (fun _ => NotesWalks e) (fun _ => True) e := by
  simp only [settleOne, judge, pack, bury, reject, ends_bind, ends_get]
  split
  · exact .of_eq (fun _ => id) rfl rfl
  · rw [ends_bind, ends_modifyGet]
    split <;> exact .of_eq (fun _ => id) rfl rfl

theorem complete_notesWalks (u : StackId) (A : RuleId) (alt : Nat) (children : Children) :
    Ends (complete input u A alt children) (fun _ => NotesWalks e) (fun _ => True) e := by
  simp only [complete, levelOf, ends_bind, ends_get, ends_pure]
  refine (symbolNode_notesWalks A _).imp fun id e₁ h₁ => ?_
  refine (addAlternative_notesWalks _).imp fun _ e₂ h₂ => ?_
  have h := h₁.trans h₂
  split
  · exact h
  · simp only [ends_bind]
    refine (gotoState_same u A).imp ?_
    rintro state _ rfl
    refine (internStack_notesWalks state).imp fun x e₃ h₃ => ?_
    refine (addEdge_notesWalks ..).imp fun isNew e₄ h₄ => ?_
    have h := h.trans (h₃.trans h₄)
    split
    · split
      · rw [ends_bind]
        exact (queueNode_notesWalks _).imp fun _ e₅ h₅ =>
          (queueEdge_notesWalks ..).imp fun _ _ h₆ => h.trans (h₅.trans h₆)
      · exact (queueEdge_notesWalks ..).imp fun _ _ => h.trans
    · exact h

theorem work_notesWalks (p : Pending) :
    Ends (work input p) (fun _ => NotesWalks e) (fun _ => True) e := by
  cases p with
  | zero u A =>
    simp only [work, countReduction, ends_bind, ends_modify]
    exact (reduceEmpty_notesWalks u A).imp fun _ _ => .trans (.of_eq (fun _ => id) rfl rfl)
  | complete u A alt children =>
    simp only [work, countReduction, ends_bind, ends_modify]
    exact (complete_notesWalks u A alt children).imp fun _ _ => .trans (.of_eq (fun _ => id) rfl rfl)
  | walk w =>
    simp only [work, ends_bind, ends_get]
    refine notesWalks_forM _ fun edge e => ?_
    rw [walkEdge]
    split
    · exact push_notesWalks _
    · simp only [levelOf, ends_bind, ends_get, ends_pure]
      refine (intermediate_same ..).imp fun tail e₁ hsame => ?_
      exact (pushWalk_notesWalks _).imp fun _ _ h => .of_noted hsame.1 hsame.2 h.1 h.2

/-- What a step notes is pending after it, and where it makes the node of a part it notes a walk. -/
theorem next_notesWalks (start : StackId) (ph : Phase) :
    Ends (next input start ph) (fun _ e' => (∀ w ∈ e'.walks, w ∈ e.walks ∨ .walk w ∈ e'.pending) ∧
      ∀ key ∈ e'.intermediates, key ∈ e.intermediates ∨ ∃ w, w ∈ e'.walks) (fun _ => True) e := by
  have hof : ∀ {e'}, NotesWalks e e' → (∀ w ∈ e'.walks, w ∈ e.walks ∨ .walk w ∈ e'.pending) ∧
      ∀ key ∈ e'.intermediates, key ∈ e.intermediates ∨ ∃ w, w ∈ e'.walks :=
    fun h => ⟨h.pending_of_noted, h.noted_of_made⟩
  have hrefl := hof (.refl e)
  cases ph with
  | begin l =>
    have hnone : ∀ w, w ∉ (∅ : Std.HashSet Walk) := fun w => Std.HashSet.not_mem_empty
    simp only [next, beginLevel, ends_bind, ends_modify]
    split <;> exact ⟨fun w hw => absurd hw (hnone w), fun _ => .inl⟩
  | queue l nodes =>
    cases nodes with
    | nil => exact hrefl
    | cons u nodes =>
      simp only [next, ends_bind, ends_pure]
      exact (queueFirst_notesWalks u).imp fun _ _ => hof
  | reduce l =>
    simp only [next, ends_bind, ends_get]
    split
    · simp only [takeDeferred, ends_bind, ends_get]
      split <;> exact hrefl
    · simp only [ends_bind, ends_modify, ends_pure]
      exact (work_notesWalks _).imp fun _ _ h => ⟨h.pending_of_noted, h.noted_of_made⟩
  | settle l ds =>
    cases ds with
    | nil =>
      simp only [next, ends_bind, ends_get]
      split
      · exact hrefl
      · split
        · trivial
        · simp only [takeShifts, ends_bind, ends_get, ends_modify, ends_pure]
          exact (terminalNode_notesWalks _).imp fun _ _ h => ⟨h.pending_of_noted, h.noted_of_made⟩
    | cons d ds =>
      simp only [next, ends_bind, ends_pure]
      exact (settleOne_notesWalks d).imp fun _ _ => hof
  | shift l label xs =>
    cases xs with
    | nil => exact hrefl
    | cons x xs =>
      simp only [next, shiftOne, ends_bind, ends_pure, ends_discard]
      exact (internStack_notesWalks _).imp fun _ _ h₁ =>
        (addEdge_notesWalks ..).imp fun _ _ h₂ => hof (h₁.trans h₂)
  | stop => exact hrefl

/-- Where a run has made the node of a part, a walk has been pending. -/
theorem Reaches.exists_walk (hr : input.Ready) (h : Reaches input user start ph e) {id : NodeId}
    {A : RuleId} {alt dot : Nat} {s : Span} (hk : (Arena.node e.nodes id).kind = .intermediate A alt dot)
    (hs : (Arena.node e.nodes id).span = some s) :
    ∃ ph' e' w, Reaches input user start ph' e' ∧ .walk w ∈ e'.pending := by
  by_contra hno
  have hnone : ∀ {ph' e' w}, Reaches input user start ph' e' → .walk w ∉ e'.pending :=
    fun hreach hw => hno ⟨_, _, _, hreach, hw⟩
  have hmade : (∀ w, w ∉ e.walks) ∧ ∀ key, key ∉ e.intermediates := by
    clear hk hs
    induction h with
    | @start isNew e h =>
      have hnotes := internStack_notesWalks (l := 0) (e := initial input user) Automaton.start
      rw [Ends, h] at hnotes
      have hwalks : ∀ w, w ∉ e.walks := fun w hw => (hnotes.pending_of_noted w hw).elim
        Std.HashSet.not_mem_empty (hnone (.start h))
      exact ⟨hwalks, fun key hkey => (hnotes.noted_of_made key hkey).elim Std.HashMap.not_mem_empty
        fun hnoted => hnoted.elim hwalks⟩
    | @step ph ph' e e' h hs ih =>
      have hnotes := @next_notesWalks σ input e start ph
      rw [Ends, hs.2] at hnotes
      have hwalks : ∀ w, w ∉ e'.walks := fun w hw => (hnotes.1 w hw).elim (ih.1 w) (hnone (.step h hs))
      exact ⟨hwalks, fun key hkey => (hnotes.2 key hkey).elim (ih.2 key) fun hnoted => hnoted.elim hwalks⟩
  obtain ⟨st, ds, hforest⟩ := (h.between hr).forest
  refine hmade.2 (A, alt, dot, s) (Std.HashMap.mem_iff_isSome_getElem?.2 ?_)
  rw [(hforest.intermediate_iff A alt dot s id).2 ⟨hk, hs⟩]
  rfl

end Engine

end ParseForest
