import ParseForest.Proofs.Parser.Machine

/-!
# Every alternative belongs to one choice

A packed node is made together with its place under a choice, and is never put under another
(`Arena.Parented`). The choice is one that the parse has found in its tables or has just made, so it is
there (`Engine.Parented`). This holds between any two steps of a run (`Engine.Reaches.parented`).
-/

namespace ParseForest

variable {σ α β : Type}

/-! ## Steps that keep a property -/

namespace Engine

/-- What holds before the step holds after it, unless it fails. -/
def Keeps (I : Engine σ → Prop) (m : EngineM σ α) : Prop :=
  ∀ e, I e → Ends m (fun _ e' => I e') (fun _ => True) e

namespace Keeps

variable {I : Engine σ → Prop} {m : EngineM σ α} {f : α → EngineM σ β}

theorem pure (a : α) : Keeps I (pure a) := fun _ h => h

theorem throw (err : ParseError) : Keeps I (throw err : EngineM σ α) := fun _ _ => trivial

theorem bind (hm : Keeps I m) (hf : ∀ a, Keeps I (f a)) : Keeps I (m >>= f) := fun e h =>
  (ends_bind m f).2 ((hm e h).imp fun a e' => hf a e')

theorem get_bind {f : Engine σ → EngineM σ β} (hf : ∀ e, Keeps I (f e)) : Keeps I (get >>= f) :=
  fun e h => hf e e h

theorem modify {f : Engine σ → Engine σ} (hf : ∀ e, I e → I (f e)) :
    Keeps I (modify f : EngineM σ Unit) := hf

theorem modifyGet {f : Engine σ → α × Engine σ} (hf : ∀ e, I e → I (f e).2) :
    Keeps I (modifyGet f : EngineM σ α) := hf

theorem discard (hm : Keeps I m) : Keeps I (discard m) := fun e h => (ends_discard m).2 (hm e h)

theorem forM {f : α → EngineM σ Unit} (hf : ∀ a, Keeps I (f a)) (as : List α) :
    Keeps I (as.forM f) := fun _ h =>
  Ends.forM (I := fun _ => I) as h fun a _ _ _ => hf a _

end Keeps

end Engine

/-! ## Arenas -/

namespace Arena

/-- The node is among the alternatives of the choice. -/
def Packs (nodes : Arena) (id p : NodeId) : Prop :=
  (node nodes id).isChoice = true ∧ p ∈ childrenOf nodes id

/-- Whatever has been packed after the first `base` nodes is an alternative of exactly one choice. -/
structure Parented (base : Nat) (nodes : Arena) : Prop where
  lt_size : ∀ id p, nodes.Packs id p → p < nodes.size
  owner : ∀ p, base ≤ p → (node nodes p).isPacked = true → ∃! id, nodes.Packs id p

variable {nodes : Arena} {base : Nat} {n : Node} {id p owner : NodeId} {A : RuleId} {alt : Nat}
  {children : Children}

theorem packs_push_iff (hn : n.children = #[]) : Packs (nodes.push n) id p ↔ nodes.Packs id p := by
  rcases Nat.lt_trichotomy id nodes.size with hlt | rfl | hgt
  · rw [Packs, Packs, childrenOf, childrenOf, node_push_lt hlt]
  · simp [Packs, childrenOf, node_push_size, hn, node_of_size_le (Nat.le_refl nodes.size), Node.isChoice,
      show (default : Node).kind = .epsilon from rfl]
  · rw [Packs, Packs, childrenOf, childrenOf, node_of_size_le (by rw [Array.size_push]; exact hgt),
      node_of_size_le (Nat.le_of_lt hgt)]

theorem packs_withAlternative_iff (ho : (node nodes owner).isChoice = true) :
    (withAlternative nodes owner A alt children).Packs id p ↔
      nodes.Packs id p ∨ (id = owner ∧ p = nodes.size) := by
  rw [Packs, Packs, isChoice_withAlternative]
  constructor
  · rintro ⟨hc, hp⟩
    exact ((mem_children_withAlternative_iff (lt_size_of_isChoice ho) hc).1 hp).imp_left fun hp => ⟨hc, hp⟩
  · rintro (⟨hc, hp⟩ | ⟨rfl, rfl⟩)
    · exact ⟨hc, (mem_children_withAlternative_iff (lt_size_of_isChoice ho) hc).2 (.inl hp)⟩
    · exact ⟨ho, (mem_children_withAlternative_iff (lt_size_of_isChoice ho) ho).2 (.inr ⟨rfl, rfl⟩)⟩

/-- A choice without alternatives or a leaf is made. -/
theorem Parented.push (h : Parented base nodes) (hn : n.children = #[]) (hp : n.isPacked = false) :
    Parented base (nodes.push n) := by
  refine ⟨fun id p hpacks => ?_, fun p hbase hpacked => ?_⟩
  · rw [Array.size_push]
    exact Nat.lt_succ_of_lt (h.lt_size id p ((packs_push_iff hn).1 hpacks))
  · simp only [packs_push_iff hn]
    refine h.owner p hbase ?_
    rcases Nat.lt_trichotomy p nodes.size with hlt | rfl | hgt
    · rwa [node_push_lt hlt] at hpacked
    · rw [node_push_size, hp] at hpacked
      cases hpacked
    · rw [node_of_size_le (by rw [Array.size_push]; exact hgt)] at hpacked
      cases hpacked

/-- A choice gets an alternative, which is a new node. -/
theorem Parented.withAlternative (h : Parented base nodes) (ho : (node nodes owner).isChoice = true) :
    Parented base (withAlternative nodes owner A alt children) := by
  refine ⟨fun id p hpacks => ?_, fun p hbase hpacked => ?_⟩
  · rw [size_withAlternative]
    rcases (packs_withAlternative_iff ho).1 hpacks with hpacks | ⟨-, rfl⟩
    · exact Nat.lt_succ_of_lt (h.lt_size id p hpacks)
    · exact Nat.lt_succ_self _
  · simp only [packs_withAlternative_iff ho]
    by_cases hp : p = nodes.size
    · subst hp
      refine ⟨owner, .inr ⟨rfl, rfl⟩, fun id hid => ?_⟩
      exact hid.elim (fun hpacks => absurd (h.lt_size id _ hpacks) (Nat.lt_irrefl _)) And.left
    · have hlt : p < nodes.size := by
        have hle := lt_size_of_isPacked hpacked
        rw [size_withAlternative] at hle
        exact Nat.lt_of_le_of_ne (Nat.le_of_lt_succ hle) hp
      have hne : owner ≠ p := by
        rintro rfl
        obtain ⟨B, b, hk⟩ := Node.isPacked_iff.1 hpacked
        rw [← @isChoice_withAlternative nodes A alt owner children, Node.isChoice, hk] at ho
        cases ho
      rw [node_withAlternative_ne hne hlt] at hpacked
      simpa only [hp, and_false, or_false] using h.owner p hbase hpacked

end Arena

/-! ## Engines -/

namespace Engine

/-- Whatever the parse has packed belongs to one choice, and its tables find choices. -/
structure Parented (input : ParseInput σ) (e : Engine σ) : Prop where
  nodes : Arena.Parented input.compiled.epsilon.nodes.size e.nodes
  symbols : ∀ (key : RuleId × Span) id, e.symbols[key]? = some id → (Arena.node e.nodes id).isChoice = true
  intermediates : ∀ (key : RuleId × Nat × Nat × Span) id, e.intermediates[key]? = some id →
    (Arena.node e.nodes id).isChoice = true

variable {input : ParseInput σ} {e e' : Engine σ} {E : ParseError → Prop}

theorem Parented.congr (h : e.Parented input) (hn : e'.nodes = e.nodes) (hs : e'.symbols = e.symbols)
    (hi : e'.intermediates = e.intermediates) : e'.Parented input :=
  ⟨hn ▸ h.nodes, hn ▸ hs ▸ h.symbols, hn ▸ hi ▸ h.intermediates⟩

/-- A step that leaves the forest alone. -/
theorem Keeps.of_same {f : Engine σ → α × Engine σ} (hn : ∀ e, (f e).2.nodes = e.nodes)
    (hs : ∀ e, (f e).2.symbols = e.symbols) (hi : ∀ e, (f e).2.intermediates = e.intermediates) :
    Keeps (Parented input) (MonadState.modifyGet f : EngineM σ α) := fun e h =>
  h.congr (hn e) (hs e) (hi e)

/-! ## Nodes -/

/-- An alternative is packed under a choice. -/
theorem Parented.pack (h : e.Parented input) {owner : NodeId}
    (ho : (Arena.node e.nodes owner).isChoice = true) (rule : RuleId) (alt : Nat) (children : Children) :
    Ends (pack owner rule alt children) (fun _ e' => e'.Parented input) E e := by
  refine ⟨h.nodes.withAlternative ho, fun key id hid => ?_, fun key id hid => ?_⟩
  · exact Arena.isChoice_withAlternative.trans (h.symbols key id hid)
  · exact Arena.isChoice_withAlternative.trans (h.intermediates key id hid)

/-- A node is made that is not packed. -/
theorem Parented.push (h : e.Parented input) {n : Node} (hn : n.children = #[])
    (hp : n.isPacked = false) : Parented input { e with nodes := e.nodes.push n } := by
  refine ⟨h.nodes.push hn hp, fun key id hid => ?_, fun key id hid => ?_⟩
  · have hc := h.symbols key id hid
    exact (congrArg Node.isChoice (Arena.node_push_lt (Arena.lt_size_of_isChoice hc))).trans hc
  · have hc := h.intermediates key id hid
    exact (congrArg Node.isChoice (Arena.node_push_lt (Arena.lt_size_of_isChoice hc))).trans hc

theorem keeps_terminalNode (token : Nat) : Keeps (Parented input) (terminalNode token) := by
  refine .get_bind fun e => ?_
  split
  · exact .pure _
  · refine .bind (fun e h => ?_) fun id => .bind (.of_same (fun _ => rfl) (fun _ => rfl) fun _ => rfl)
      fun _ => .pure _
    exact h.push rfl rfl

/-- The node of a rule is a choice. -/
theorem Parented.symbolNode (h : e.Parented input) (rule : RuleId) (left : Nat) :
    Ends (symbolNode rule left) (fun id e' => e'.Parented input ∧
      (Arena.node e'.nodes id).isChoice = true) E e := by
  simp only [Engine.symbolNode, ends_bind, ends_get]
  split
  · rename_i id hid
    exact ⟨h, h.symbols _ id hid⟩
  · simp only [newNode, ends_bind, ends_modifyGet, ends_modify, ends_pure]
    have hpush := h.push (n := .ofKind (.symbol rule) (some ⟨left, e.level⟩)) rfl rfl
    have hnew : (Arena.node (e.nodes.push (.ofKind (.symbol rule) (some ⟨left, e.level⟩)))
        e.nodes.size).isChoice = true := by
      rw [Arena.node_push_size]
      rfl
    refine ⟨⟨hpush.nodes, fun key id hid => ?_, hpush.intermediates⟩, hnew⟩
    rw [Std.HashMap.getElem?_insert] at hid
    split at hid
    · obtain rfl := Option.some.inj hid
      exact hnew
    · exact hpush.symbols key id hid

/-- The node of the rest of an alternative is a choice. -/
theorem Parented.intermediateNode (h : e.Parented input) (rule : RuleId) (alt dot left : Nat) :
    Ends (intermediateNode rule alt dot left) (fun id e' => e'.Parented input ∧
      (Arena.node e'.nodes id).isChoice = true) E e := by
  simp only [Engine.intermediateNode, ends_bind, ends_get]
  split
  · rename_i id hid
    exact ⟨h, h.intermediates _ id hid⟩
  · simp only [newNode, ends_bind, ends_modifyGet, ends_modify, ends_pure]
    have hpush := h.push (n := .ofKind (.intermediate rule alt dot) (some ⟨left, e.level⟩)) rfl rfl
    have hnew : (Arena.node (e.nodes.push (.ofKind (.intermediate rule alt dot) (some ⟨left, e.level⟩)))
        e.nodes.size).isChoice = true := by
      rw [Arena.node_push_size]
      rfl
    refine ⟨⟨hpush.nodes, hpush.symbols, fun key id hid => ?_⟩, hnew⟩
    rw [Std.HashMap.getElem?_insert] at hid
    split at hid
    · obtain rfl := Option.some.inj hid
      exact hnew
    · exact hpush.intermediates key id hid

theorem keeps_intermediate (rule : RuleId) (alt dot left : Nat) (first second : NodeId) :
    Keeps (Parented input) (intermediate rule alt dot left first second) := by
  intro e h
  simp only [intermediate, ends_bind, ends_get]
  refine (h.intermediateNode rule alt dot left).imp fun id e₁ hnode => ?_
  obtain ⟨h₁, hc⟩ := hnode
  split
  · simp only [ends_bind, ends_modify]
    have h₂ : Parented input { e₁ with packed := e₁.packed.insert ⟨id, alt, ⟨first, some second⟩⟩ } :=
      h₁.congr rfl rfl rfl
    exact h₂.pack hc _ _ _
  · exact h₁

/-! ## Candidates -/

/-- A derivation is offered to a choice. -/
theorem Parented.addAlternative (h : e.Parented input) {d : Deferred}
    (hd : (Arena.node e.nodes d.symbol).isChoice = true) :
    Ends (addAlternative input d) (fun _ e' => e'.Parented input) E e := by
  simp only [Engine.addAlternative, ends_bind, ends_get]
  split
  · exact h
  · split
    · exact h.congr rfl rfl rfl
    · simp only [judge, ends_bind, ends_modifyGet]
      split
      · simp only [ends_bind, ends_modify]
        refine Parented.pack ?_ ?_ _ _ _
        · exact h.congr rfl rfl rfl
        · exact hd
      · exact h.congr rfl rfl rfl
      · exact h.congr rfl rfl rfl

/-- A derivation that waits for a choice is judged. -/
theorem Parented.settleOne (h : e.Parented input) {d : Deferred}
    (hd : (Arena.node e.nodes d.symbol).isChoice = true) :
    Ends (settleOne input d) (fun _ e' => e'.Parented input) E e := by
  simp only [Engine.settleOne, ends_bind, ends_get]
  split
  · exact h.congr rfl rfl rfl
  · simp only [judge, ends_bind, ends_modifyGet]
    split
    · refine Parented.pack ?_ ?_ _ _ _
      · exact h.congr rfl rfl rfl
      · exact hd
    · exact h.congr rfl rfl rfl

/-! ## Work -/

theorem keeps_push (p : Pending) : Keeps (Parented input) (push p) :=
  .of_same (fun _ => rfl) (fun _ => rfl) fun _ => rfl

theorem keeps_queueNode (node : StackId) : Keeps (Parented input) (queueNode input node) := by
  refine .bind (.get_bind fun _ => .pure _) fun actions => .forM (fun action => .modify fun e h => ?_) _
  unfold queueAction
  split <;> try split
  all_goals exact h.congr rfl rfl rfl

theorem keeps_pushWalk (w : Walk) : Keeps (Parented input) (pushWalk w) := by
  refine .get_bind fun e => ?_
  split
  · exact .bind (.of_same (fun _ => rfl) (fun _ => rfl) fun _ => rfl) fun _ => keeps_push _
  · exact .pure _

theorem keeps_queueReduction (edge : StackEdge) (rule : RuleId) (alt length : Nat) :
    Keeps (Parented input) (queueReduction input edge rule alt length) := by
  have hnulled : Keeps (Parented input) (nulledTail input rule alt length) := by
    unfold nulledTail
    split
    · exact .pure _
    · split
      · exact .pure _
      · exact .throw _
  refine hnulled.bind fun nulled => ?_
  split
  · exact keeps_push _
  · cases nulled with
    | some part =>
      exact .get_bind fun _ => (keeps_intermediate _ _ _ _ _ _).bind fun _ => keeps_pushWalk _
    | none => exact keeps_pushWalk _

theorem keeps_queueEdge (node : StackId) (edge : StackEdge) :
    Keeps (Parented input) (queueEdge input node edge) := by
  refine .bind (.get_bind fun _ => .pure _) fun actions => .forM (fun action => ?_) _
  unfold queueEdgeAction
  split
  · exact keeps_queueReduction _ _ _ _
  · exact .pure _

theorem keeps_gotoState (node : StackId) (rule : RuleId) :
    Keeps (Parented input) (gotoState input node rule) := by
  refine .get_bind fun e => ?_
  dsimp only
  split
  · exact .pure _
  · exact .throw _

theorem keeps_internStack (level : Nat) (state : StateId) :
    Keeps (Parented input) (internStack level state) := by
  refine .get_bind fun e => ?_
  split
  · exact .bind (.of_same (fun _ => rfl) (fun _ => rfl) fun _ => rfl) fun _ => .pure _
  · exact .throw _

theorem keeps_addEdge (source : StackId) (edge : StackEdge) :
    Keeps (Parented input) (addEdge source edge) := by
  refine .modifyGet fun e h => ?_
  split
  · exact h
  · exact h.congr rfl rfl rfl

/-! ## Reducing -/

theorem keeps_reduceEmpty (node : StackId) (rule : RuleId) :
    Keeps (Parented input) (reduceEmpty input node rule) := by
  unfold reduceEmpty
  split
  · exact .throw _
  · refine (keeps_gotoState node rule).bind fun state => .get_bind fun e =>
      (keeps_internStack _ _).bind fun r => (keeps_addEdge _ _).bind fun isNew => ?_
    split
    · split
      · exact keeps_queueNode _
      · exact .pure _
    · exact .pure _

theorem keeps_complete (node : StackId) (rule : RuleId) (alt : Nat) (children : Children) :
    Keeps (Parented input) (complete input node rule alt children) := by
  refine .get_bind fun e₀ e h => ?_
  rw [ends_bind]
  refine (h.symbolNode rule _).imp fun symbol e₁ hnode => ?_
  obtain ⟨h₁, hc⟩ := hnode
  rw [ends_bind, ends_get, ends_bind]
  refine Ends.imp (Parented.addAlternative h₁ hc) fun _ e₂ h₂ => Keeps.get_bind (fun e => ?_) e₂ h₂
  split
  · exact .pure _
  · refine (keeps_gotoState node rule).bind fun state => (keeps_internStack _ _).bind fun r =>
      (keeps_addEdge _ _).bind fun isNew => ?_
    split
    · split
      · exact (keeps_queueNode _).bind fun _ => keeps_queueEdge _ _
      · exact keeps_queueEdge _ _
    · exact .pure _

theorem keeps_walkEdge (w : Walk) (edge : StackEdge) : Keeps (Parented input) (walkEdge w edge) := by
  unfold walkEdge
  split
  · exact keeps_push _
  · exact .get_bind fun _ => (keeps_intermediate _ _ _ _ _ _).bind fun _ => keeps_pushWalk _

theorem keeps_work (p : Pending) : Keeps (Parented input) (work input p) := by
  have hcount : Keeps (Parented input) (countReduction : EngineM σ Unit) :=
    .of_same (fun _ => rfl) (fun _ => rfl) fun _ => rfl
  cases p with
  | zero node rule => exact hcount.bind fun _ => keeps_reduceEmpty node rule
  | walk w => exact .get_bind fun e => .forM (keeps_walkEdge w) _
  | complete node rule alt children => exact hcount.bind fun _ => keeps_complete node rule alt children

theorem keeps_queueFirst (level : Nat) (node : StackId) :
    Keeps (Parented input) (queueFirst input level node) := by
  unfold queueFirst
  split
  · exact keeps_queueNode node
  · exact (keeps_queueNode node).bind fun _ => .get_bind fun _ => .forM (keeps_queueEdge node) _

/-! ## Runs -/

variable {user : σ} {start : StackId}

theorem parented_initial (hε : input.compiled.epsilon.Laid input.grammar) (user : σ) :
    (initial input user).Parented input := by
  refine ⟨⟨fun id p hpacks => ?_, fun p hbase hpacked => ?_⟩, fun key id hid => ?_, fun key id hid => ?_⟩
  · exact Arena.closed_epsilon hε hpacks.2
  · exact absurd (Arena.lt_size_of_isPacked hpacked) (Nat.not_lt.2 hbase)
  · simp [initial] at hid
  · simp [initial] at hid

/-- A step of the machine. The derivations that are judged wait for rule nodes. -/
theorem Parented.next {ph : Phase} (h : e.Parented input)
    (hb : Between input start ph e) :
    Ends (next input start ph) (fun _ e' => e'.Parented input) (fun _ => True) e := by
  cases ph with
  | begin level =>
    refine Keeps.bind (.of_same (fun _ => rfl) (fun _ => rfl) fun _ => rfl) (fun _ => ?_) e h
    split
    · exact .pure _
    · exact .get_bind fun _ => .pure _
  | queue level nodes =>
    cases nodes with
    | nil => exact h
    | cons node nodes => exact (keeps_queueFirst level node).bind (fun _ => .pure _) e h
  | reduce level =>
    refine Keeps.get_bind (fun e => ?_) e h
    split
    · refine .bind (.get_bind fun e => ?_) fun _ => .pure _
      dsimp only
      split
      · exact .pure _
      · exact .bind (.of_same (fun _ => rfl) (fun _ => rfl) fun _ => rfl) fun _ => .pure _
    · exact .bind (.of_same (fun _ => rfl) (fun _ => rfl) fun _ => rfl) fun _ =>
        (keeps_work _).bind fun _ => .pure _
  | settle level ds =>
    cases ds with
    | nil =>
      refine Keeps.get_bind (fun e => ?_) e h
      split
      · exact .pure _
      · split
        · exact .throw _
        · exact .bind (.get_bind fun e => (keeps_terminalNode _).bind fun label => .get_bind fun e =>
            .bind (.of_same (fun _ => rfl) (fun _ => rfl) fun _ => rfl) fun _ => .pure _) fun _ => .pure _
    | cons d ds =>
      obtain ⟨w, hf⟩ := Judges.forest hb
      simp only [Engine.next, ends_bind, ends_pure]
      exact h.settleOne (hf.waits d (.head _)).owns.isChoice
  | shift level label xs =>
    cases xs with
    | nil => exact h
    | cons x xs =>
      exact Keeps.bind (.bind (keeps_internStack _ _) fun r => (keeps_addEdge _ _).discard)
        (fun _ => .pure _) e h
  | stop => exact h

/-- In every state that a run comes to, whatever has been packed belongs to one choice. -/
theorem Reaches.parented (hr : input.Ready) {ph : Phase} (h : Reaches input user start ph e) :
    e.Parented input := by
  induction h with
  | start h =>
    have hends := keeps_internStack 0 Automaton.start _ (parented_initial hr.epsilon user)
    rw [Ends, h] at hends
    exact hends
  | step h hs ih =>
    have hends := ih.next (h.between hr)
    rw [Ends, hs.2] at hends
    exact hends

end Engine

end ParseForest
