import ParseForest.Proofs.Parser.Outcome
import Mathlib.Data.Prod.Lex

/-!
# A run step by step

A run as a machine that does one step at a time: a stack node is queued, a piece of work is done, a
derivation that waits is judged, or a stack is moved to the next level (`Engine.next`). The machine has
no limit on the work of a level. What holds between two steps is `Engine.Between`; it is kept by every
step (`Between.next`), and so holds in every state that a run comes to (`Reaches.between`). What the stage
of a phase has passed is left alone from then on (`Steps.advances`).

The machine does what a run does (`Between.runs`): it stops where a run ends, and fails where a run
fails. So it always comes to an end, and the limit on the work of a level is never what ends a level.
-/

namespace ParseForest

variable {σ : Type}

/-- What a run does next. -/
inductive Phase
  /-- A level is to be begun -/
  | begin (level : Nat)
  /-- The stack nodes with which the level begins are to be queued -/
  | queue (level : Nat) (nodes : List StackId)
  | reduce (level : Nat)
  /-- The derivations are to be judged -/
  | settle (level : Nat) (waiting : List Deferred)
  /-- The stacks are to be moved to the next level -/
  | shift (level : Nat) (label : NodeId) (shifts : List (StackId × StateId))
  | stop

/-- How far a run has come. While derivations are judged, everything narrower than the next is done. -/
def Phase.stage (input : ParseInput σ) : Phase → Stage
  | .begin l => ⟨l, 0⟩
  | .queue l _ => ⟨l, 0⟩
  | .reduce l => ⟨l, 0⟩
  | .settle l (d :: _) => ⟨l, d.span.width⟩
  | .settle l [] => ⟨l + 1, 0⟩
  | .shift l _ _ => ⟨l + 1, 0⟩
  | .stop => ⟨input.tokens.length + 1, 0⟩

namespace Engine

/-- Queues a stack node with which a level begins. -/
def queueFirst (input : ParseInput σ) (level : Nat) (node : StackId) : EngineM σ Unit :=
  if level = 0 then queueNode input node else queueShifted input node

/-- Moves a stack that can take the current token to the next level. -/
def shiftOne (level : Nat) (label : NodeId) (x : StackId × StateId) : EngineM σ Unit := do
  let (next, _) ← internStack (level + 1) x.2
  discard (addEdge next ⟨x.1, label⟩)

/-- Puts the derivations that wait in order. -/
def takeDeferred : EngineM σ (List Deferred) := do
  let deferred := (← get).deferred
  if deferred.isEmpty then pure []
  else
    modify fun e => { e with deferred := [], waiting := ∅ }
    pure (inOrder deferred)

/-- The stacks that can take the current token, and the node of the token. -/
def takeShifts : EngineM σ (NodeId × List (StackId × StateId)) := do
  let label ← terminalNode (← get).level
  let shifts := (← get).shifts
  modify fun e => { e with shifts := #[] }
  pure (label, shifts.toList)

/-- Does one step, and says what is to be done then. -/
def next (input : ParseInput σ) (start : StackId) : Phase → EngineM σ Phase
  | .begin level => do
    beginLevel input level
    if level = 0 then pure (.queue level [start])
    else return .queue level ((← get).stack.level level).toList
  | .queue level [] => pure (.reduce level)
  | .queue level (node :: nodes) => do
    queueFirst input level node
    pure (.queue level nodes)
  | .reduce level => do
    match (← get).pending with
    | [] => return .settle level (← takeDeferred)
    | p :: rest => do
      modify fun e => { e with pending := rest }
      work input p
      pure (.reduce level)
  | .settle level (d :: ds) => do
    settleOne input d
    pure (.settle level ds)
  | .settle level [] => do
    let e ← get
    if level = input.tokens.length then pure .stop
    else if e.shifts.isEmpty then throw (e.failure input level)
    else
      let (label, shifts) ← takeShifts
      pure (.shift level label shifts)
  | .shift level label (x :: xs) => do
    shiftOne level label x
    pure (.shift level label xs)
  | .shift level _ [] => pure (.begin (level + 1))
  | .stop => pure .stop

/-- A step leads from one state of a run to another. -/
def Step (input : ParseInput σ) (start : StackId) (x y : Phase × Engine σ) : Prop :=
  x.1 ≠ .stop ∧ next input start x.1 x.2 = .ok y.1 y.2

/-- Any number of steps. -/
def Steps (input : ParseInput σ) (start : StackId) : Phase × Engine σ → Phase × Engine σ → Prop :=
  Relation.ReflTransGen (Step input start)

/-- The steps of a run lead to where a step fails. -/
def StepsFail (input : ParseInput σ) (start : StackId) (x : Phase × Engine σ) (err : ParseError) :
    Prop :=
  ∃ y, Steps input start x y ∧ ∃ e, next input start y.1 y.2 = .error err e

/-- The states that a run comes to. -/
inductive Reaches (input : ParseInput σ) (user : σ) (start : StackId) : Phase → Engine σ → Prop
  | start {isNew : Bool} {e : Engine σ}
      (h : internStack 0 Automaton.start (initial input user) = .ok (start, isNew) e) :
      Reaches input user start (.begin 0) e
  | step {ph ph' : Phase} {e e' : Engine σ} (h : Reaches input user start ph e)
      (hs : Step input start (ph, e) (ph', e')) : Reaches input user start ph' e'

variable {input : ParseInput σ} {start : StackId} {e e' e'' : Engine σ} {user : σ}

theorem Reaches.steps {x y : Phase × Engine σ} (hs : Steps input start x y)
    (h : Reaches input user start x.1 x.2) : Reaches input user start y.1 y.2 := by
  induction hs with
  | refl => exact h
  | tail _ hstep ih => exact .step ih hstep

/-! ## What is left alone -/

/-- What the stage has passed is as it was: nodes of the forest, and levels of the stack. -/
structure Advances (st : Stage) (e e' : Engine σ) : Prop where
  nodes : e.nodes.GrowsAt st e'.nodes
  stack : e.stack.GrowsFrom st.level e'.stack

theorem GrowsAt.advances {l : Nat} (h : e.GrowsAt l e') : e.Advances ⟨l, 0⟩ e' :=
  ⟨h.nodes, h.stack.growsFrom (Nat.le_refl l)⟩

theorem Advances.of_eq (st : Stage) (hn : e'.nodes = e.nodes) (hs : e'.stack = e.stack) :
    e.Advances st e' := by
  constructor
  · rw [hn]
    exact .refl st e.nodes
  · rw [hs]
    exact .refl st.level e.stack

theorem Advances.mono {st st' : Stage} (h : e.Advances st' e') (hst : st ≤ st') : e.Advances st e' :=
  ⟨h.nodes.mono (Stage.before_of_le hst), h.stack.mono (Stage.level_le hst)⟩

theorem Advances.trans {st : Stage} (h : e.Advances st e') (h' : e'.Advances st e'') :
    e.Advances st e'' := ⟨h.nodes.trans h'.nodes, h.stack.trans h'.stack⟩

/-! ## Between two steps -/

/-- The state before a level. -/
structure Rests (input : ParseInput σ) (start : StackId) (l : Nat) (e : Engine σ) : Prop where
  forest : ForestValid input ⟨l, 0⟩ [] e
  stack : e.StackValid input
  deferred : e.deferred = []
  pending : e.pending = []
  shifts : e.shifts = #[]
  nodes_le : ∀ u < e.stack.nodes.size, (e.stack.node u).level ≤ l
  target_lt : ∀ u, (e.stack.node u).level = l → ∀ edge ∈ (e.stack.node u).edges,
    (e.stack.node edge.target).level < l
  start_level : l = 0 → start < e.stack.nodes.size ∧ (e.stack.node start).level = 0

/-- The state while a level is worked on. What is pending and what is still to be queued, at a cost of
`k`, is paid for. -/
structure Labours (input : ParseInput σ) (l k : Nat) (e : Engine σ) : Prop
    extends e.Valid input where
  level_eq : e.level = l
  nodes_le : ∀ u < e.stack.nodes.size, (e.stack.node u).level ≤ l
  paid : e.load input + allowance input + k ≤ workLimit input + e.spent input

/-- The state while the derivations that wait are judged. -/
structure Judges (input : ParseInput σ) (l : Nat) (ds : List Deferred) (e : Engine σ) : Prop
    extends WorkValid input e where
  level_eq : e.level = l
  nodes_le : ∀ u < e.stack.nodes.size, (e.stack.node u).level ≤ l
  forest : ∃ w, ForestValid input ⟨l, w⟩ ds e
  sorted : ds.Pairwise fun a b => a.span.width ≤ b.span.width
  deferred : e.deferred = []
  pending_eq : e.pending = []

/-- The state while stacks are moved to the next level. -/
structure Moves (input : ParseInput σ) (l : Nat) (label : NodeId) (xs : List (StackId × StateId))
    (e : Engine σ) : Prop extends WorkValid input e where
  level_eq : e.level = l
  lt_length : l < input.tokens.length
  nodes_le : ∀ u < e.stack.nodes.size, (e.stack.node u).level ≤ l + 1
  forest : ForestValid input ⟨l + 1, 0⟩ [] e
  label : (Arena.node e.nodes label).kind = .terminal l
  canShift : ∀ x ∈ xs, e.CanShift input x
  target_lt : ∀ u, (e.stack.node u).level = l + 1 → ∀ edge ∈ (e.stack.node u).edges,
    (e.stack.node edge.target).level < l + 1
  deferred : e.deferred = []
  pending_eq : e.pending = []
  shifts_eq : e.shifts = #[]

/-- What holds between two steps. -/
def Between (input : ParseInput σ) (start : StackId) : Phase → Engine σ → Prop
  | .begin l, e => l ≤ input.tokens.length ∧ Rests input start l e
  | .queue l nodes, e =>
    Labours input l (itemBound input * nodeBound input * nodes.length) e ∧
      ∀ u ∈ nodes, u < e.stack.nodes.size ∧ (e.stack.node u).level = l ∧
        ∀ edge ∈ (e.stack.node u).edges, (e.stack.node edge.target).level < l
  | .reduce l, e => Labours input l 0 e
  | .settle l ds, e => Judges input l ds e
  | .shift l label xs, e => Moves input l label xs e
  | .stop, e => Judges input input.tokens.length [] e

/-- What the work of a level comes to at most: what is pending, and what may be added to it. -/
def labour (input : ParseInput σ) (e : Engine σ) : Nat :=
  e.load input + (allowance input - e.spent input)

/-- What is left of a run: levels, parts of a level, and steps of a part. -/
def remaining (input : ParseInput σ) (x : Phase × Engine σ) : Nat ×ₗ Nat ×ₗ Nat :=
  match x.1 with
  | .begin l => toLex (input.tokens.length - l, toLex (5, 0))
  | .queue l nodes => toLex (input.tokens.length - l, toLex (4, nodes.length))
  | .reduce l => toLex (input.tokens.length - l, toLex (3, labour input x.2))
  | .settle l ds => toLex (input.tokens.length - l, toLex (2, ds.length))
  | .shift l _ xs => toLex (input.tokens.length - l, toLex (1, xs.length))
  | .stop => toLex (0, toLex (0, 0))

theorem remaining_lt_of_level {a a' b b' c c' : Nat} (h : a' < a) :
    toLex (a', toLex (b', c')) < toLex (a, toLex (b, c)) := Prod.Lex.toLex_lt_toLex.2 (.inl h)

theorem remaining_lt_of_part {a b b' c c' : Nat} (h : b' < b) :
    toLex (a, toLex (b', c')) < toLex (a, toLex (b, c)) :=
  Prod.Lex.toLex_lt_toLex.2 (.inr ⟨rfl, Prod.Lex.toLex_lt_toLex.2 (.inl h)⟩)

theorem remaining_lt_of_step {a b c c' : Nat} (h : c' < c) :
    toLex (a, toLex (b, c')) < toLex (a, toLex (b, c)) :=
  Prod.Lex.toLex_lt_toLex.2 (.inr ⟨rfl, Prod.Lex.toLex_lt_toLex.2 (.inr ⟨rfl, h⟩)⟩)

/-- Why a step fails: a limit of the stack, or a token that no stack can take. -/
def StepFails (input : ParseInput σ) (err : ParseError) : Prop :=
  input.MayFail err ∨ ∃ (e : Engine σ) (l : Nat), err = e.failure input l

/-- The state while nothing but the forest is built on. -/
theorem WorkValid.later (hr : input.Ready) (h : e.WorkValid input) {st : Stage}
    {ds : List Deferred} (hf : ForestValid input st ds e) (hs : SameWork e e')
    (hl : Later ⟨e.level, 0⟩ e e') : e.GrowsAt e.level e' ∧ e'.WorkValid input := by
  have hg : e.GrowsAt e.level e' :=
    ⟨hl, by rw [hs.stack]; exact .refl _ _, hs.level, hs.lookaheads⟩
  exact ⟨hg, h.sameWork hr hf.formed hg hs⟩

theorem GrowsAt.nodes_le {l : Nat} (h : e.GrowsAt l e')
    (hle : ∀ u < e.stack.nodes.size, (e.stack.node u).level ≤ l) :
    ∀ u < e'.stack.nodes.size, (e'.stack.node u).level ≤ l := by
  intro u hu
  by_cases hlt : u < e.stack.nodes.size
  · rw [h.stack.level_eq u hlt]
    exact hle u hlt
  · rw [h.stack.level_new u (Nat.not_lt.1 hlt) hu]

/-- A level is begun: what its stack nodes call for is paid for. -/
theorem Rests.begin {l : Nat} (h : Rests input start l e) (hl : l ≤ input.tokens.length)
    {E : ParseError → Prop} : Ends (next input start (.begin l)) (fun ph e' =>
      ∃ nodes, ph = .queue l nodes ∧ Between input start ph e' ∧ e.Advances ⟨l, 0⟩ e') E e := by
  have hv := h.stack.begin h.forest h.deferred h.pending h.shifts hl
  have hpaid : ∀ nodes : List StackId, nodes.length ≤ nodeBound input →
      load input { e with level := l, walks := ∅, zeros := ∅, lookaheads := lookaheadsAt input l } +
        allowance input + itemBound input * nodeBound input * nodes.length ≤ workLimit input +
        spent input { e with
          level := l, walks := ∅, zeros := ∅, lookaheads := lookaheadsAt input l } := by
    intro nodes hnodes
    have hcost := Nat.mul_le_mul_left (itemBound input * nodeBound input) hnodes
    rw [workLimit_eq, load, h.pending, ← Nat.mul_assoc]
    simp only [List.map_nil, List.sum_nil]
    omega
  simp only [next, beginLevel, ends_bind, ends_modify]
  split
  · rename_i h0
    obtain ⟨hlt, hlevel⟩ := h.start_level h0
    refine ⟨_, rfl, ⟨⟨hv, rfl, h.nodes_le, hpaid [start] ?_⟩, fun u hu => ?_⟩, .of_eq _ rfl rfl⟩
    · exact Nat.lt_of_le_of_lt (Nat.zero_le _) (Nat.lt_of_lt_of_le hlt hv.size_le_nodeBound)
    · obtain rfl := List.mem_singleton.1 hu
      exact ⟨hlt, hlevel.trans h0.symm, h.target_lt u (hlevel.trans h0.symm)⟩
  · simp only [ends_bind, ends_get, ends_pure]
    refine ⟨_, rfl, ⟨⟨hv, rfl, h.nodes_le, hpaid _ (by simpa using hv.size_level_le l)⟩,
      fun u hu => ?_⟩, .of_eq _ rfl rfl⟩
    obtain ⟨hlt, hlevel⟩ := (h.stack.indexed.mem_level_iff l u).1 (Array.mem_toList_iff.1 hu)
    exact ⟨hlt, hlevel, h.target_lt u hlevel⟩

section

variable (hr : input.Ready)
include hr

/-- A stack node is queued. -/
theorem Labours.queueFirst {l k : Nat} (h : Labours input l (itemBound input * nodeBound input + k) e)
    {u : StackId} (hu : u < e.stack.nodes.size) (hl : (e.stack.node u).level = l)
    (ht : ∀ edge ∈ (e.stack.node u).edges, (e.stack.node edge.target).level < l) :
    Ends (queueFirst input l u) (fun _ e' => Labours input l k e' ∧ e'.stack = e.stack ∧
      e.Advances ⟨l, 0⟩ e') input.MayFail e := by
  have hqueued : ∀ {k' e'}, k' ≤ itemBound input * nodeBound input → Queues input k' e e' →
      Labours input l k e' ∧ e'.stack = e.stack ∧ e.Advances ⟨l, 0⟩ e' := by
    intro k' e' hk' hq
    have hspends := hq.spends
    have hpaid := h.paid
    refine ⟨⟨hq.valid, hq.level_eq.trans h.level_eq, hq.stack_eq ▸ h.nodes_le, ?_⟩, hq.stack_eq,
      h.level_eq ▸ hq.toGrowsAt.advances⟩
    simp only [Spends] at hspends
    omega
  rw [← h.level_eq] at hl ht
  rw [Engine.queueFirst]
  split
  · exact (h.toValid.queueNode hr hu hl).imp fun _ e' h' => hqueued (Nat.zero_le _) h'.1
  · exact (h.toValid.queueShifted hr hu hl ht).imp fun _ e' h' => hqueued (Nat.le_refl _) h'.1

/-- A piece of work is done. -/
theorem Labours.work {l : Nat} (h : Labours input l 0 e) {p : Pending} {ps : List Pending}
    (hp : e.pending = p :: ps) :
    Ends (work input p) (fun _ e' => Labours input l 0 e' ∧ e'.labour input < e.labour input ∧
      e.Advances ⟨l, 0⟩ e') input.MayFail { e with pending := ps } := by
  refine (h.toValid.takeUp hr hp).imp fun _ e' ⟨hv, hg, hless, _⟩ => ?_
  have hpaid := h.paid
  have hspent := hv.spent_le hr
  refine ⟨⟨hv, hg.level_eq.trans h.level_eq, (h.level_eq ▸ hg).nodes_le h.nodes_le, by omega⟩, ?_,
    h.level_eq ▸ hg.advances⟩
  rw [labour, labour]
  omega

/-- When nothing is pending, what waits is put in order. -/
theorem Labours.takeDeferred {l k : Nat} (h : Labours input l k e) (hp : e.pending = [])
    {E : ParseError → Prop} :
    Ends takeDeferred (fun ds e' => Judges input l ds e' ∧ e.Advances ⟨l, 0⟩ e') E e := by
  simp only [Engine.takeDeferred, ends_bind, ends_get]
  split
  · rename_i hempty
    have hnil : e.deferred = [] := by simpa using hempty
    exact ⟨⟨h.toWorkValid, h.level_eq, h.nodes_le, ⟨0, h.level_eq ▸ hnil ▸ h.toForestValid⟩, .nil, hnil,
      hp⟩, .of_eq _ rfl rfl⟩
  · simp only [ends_bind, ends_modify, ends_pure]
    have hlater : Later ⟨e.level, 0⟩ e { e with deferred := [], waiting := ∅ } :=
      ⟨.refl _ _, fun _ => .inl, fun _ => id⟩
    have hsame : SameWork e { e with deferred := [], waiting := ∅ } := ⟨rfl, rfl, rfl, rfl, rfl, rfl, rfl⟩
    obtain ⟨-, hw⟩ := h.toWorkValid.later hr h.toForestValid hsame hlater
    exact ⟨⟨hw, h.level_eq, h.nodes_le, ⟨0, h.level_eq ▸ h.toForestValid.lineUp⟩,
      inOrder_pairwise _, rfl, hp⟩, .of_eq _ rfl rfl⟩

/-- A derivation that waits is judged. -/
theorem Judges.settleOne {l : Nat} {d : Deferred} {ds : List Deferred}
    (h : Judges input l (d :: ds) e) {E : ParseError → Prop} :
    Ends (settleOne input d) (fun _ e' => Judges input l ds e' ∧ e.Advances ⟨l, d.span.width⟩ e') E e := by
  obtain ⟨w, hf⟩ := h.forest
  have hlevel := h.level_eq
  subst hlevel
  refine (hf.settleNext hr.wellFormed hr.epsilon h.sorted).imp fun _ e' ⟨hf', hl, hs, hd⟩ => ?_
  obtain ⟨hg, hw⟩ := h.toWorkValid.later hr hf hs
    (hl.mono (Stage.before_of_width_le (Nat.zero_le _)))
  exact ⟨⟨hw, hs.level, hg.nodes_le h.nodes_le, ⟨_, hf'⟩, (List.pairwise_cons.1 h.sorted).2,
    hd.trans h.deferred, hs.pending.trans h.pending_eq⟩, hl.nodes, hg.stack.growsFrom (Nat.le_refl _)⟩

/-- The stacks that can take the token are taken. -/
theorem Judges.takeShifts {l : Nat} (h : Judges input l [] e) (hl : l < input.tokens.length) :
    Ends takeShifts (fun r e' => Moves input l r.1 r.2 e' ∧ e.Advances ⟨l + 1, 0⟩ e') input.MayFail e := by
  obtain ⟨w, hf⟩ := h.forest
  have hlevel := h.level_eq
  subst hlevel
  have hf' : ForestValid input ⟨e.level + 1, 0⟩ [] e :=
    hf.advance (Stage.before_next _ _ _) (by simp)
  simp only [Engine.takeShifts, ends_bind, ends_get]
  refine (h.toWorkValid.takeShifts hr hf' h.deferred h.pending_eq hl).imp ?_
  rintro label e₁ ⟨hshifts, hk, htaken⟩
  obtain ⟨hg, hw, hf₂, hstack, hd, hp⟩ := htaken _ rfl
  simp only [ends_modify, ends_pure]
  refine ⟨⟨hw, hg.level_eq, hl, ?_, hf₂, hk, fun x hx => ?_, fun u hu edge he => ?_, hd, hp, rfl⟩,
    hg.advances⟩
  · rw [hstack]
    exact fun u hu => Nat.le_succ_of_le (h.nodes_le u hu)
  · rw [CanShift, hstack, hg.level_eq]
    exact h.shifts x (hshifts ▸ Array.mem_toList_iff.1 hx)
  · rw [hstack] at hu he
    have := h.nodes_le u (GraphStack.lt_size_of_mem_edges he)
    omega

/-- A stack is moved to the next level. -/
theorem Moves.shiftOne {l : Nat} {label : NodeId} {x : StackId × StateId}
    {xs : List (StackId × StateId)} (h : Moves input l label (x :: xs) e) :
    Ends (shiftOne l label x) (fun _ e' => Moves input l label xs e' ∧ e.Advances ⟨l + 1, 0⟩ e')
      input.MayFail e := by
  have hlevel := h.level_eq
  subst hlevel
  have hx := h.canShift x (.head _)
  simp only [Engine.shiftOne, ends_bind, ends_discard]
  refine (h.toWorkValid.shiftOne hr h.forest.formed hx h.lt_length h.label).imp fun r e₁ hadd =>
    hadd.imp ?_
  rintro isNew e₂ ⟨hlink, he, hg, hw⟩
  refine ⟨⟨hw, hg.level_eq, h.lt_length, hg.nodes_le h.nodes_le, ?_, ?_, fun y hy =>
    (h.canShift y (.tail _ hy)).grows hg, fun u hu edge hedge => ?_, ?_, ?_, ?_⟩, hg.advances⟩
  · rw [he]
    exact h.forest.congr rfl rfl rfl rfl rfl rfl rfl rfl rfl
  · rw [he]
    exact h.label
  · rcases hlink.edge_cases u edge hedge with hold | ⟨-, -, rfl⟩
    · rw [hg.stack.level_eq _ (h.indexed.target_lt u edge hold)]
      exact h.target_lt u ((hg.stack.level_eq u (GraphStack.lt_size_of_mem_edges hold)).symm.trans hu)
        edge hold
    · rw [hg.stack.level_eq _ hx.1, hx.2.1]
      exact Nat.lt_succ_self _
  · rw [he]
    exact h.deferred
  · rw [he]
    exact h.pending_eq
  · rw [he]
    exact h.shifts_eq

/-- What holds between two steps is kept by every step, and less is left after it. What the stage has passed
is left alone, and the stage only advances. -/
theorem Between.next {ph : Phase} (h : Between input start ph e) :
    Ends (next input start ph) (fun ph' e' => Between input start ph' e' ∧
      (ph ≠ .stop → remaining input (ph', e') < remaining input (ph, e)) ∧
      e.Advances (ph.stage input) e' ∧ ph.stage input ≤ ph'.stage input) (StepFails input) e := by
  cases ph with
  | begin l =>
    refine (h.2.begin h.1).imp ?_
    rintro ph' e' ⟨nodes, rfl, h', hadvances⟩
    exact ⟨h', fun _ => remaining_lt_of_part (by decide), hadvances, Stage.le_rfl⟩
  | queue l nodes =>
    cases nodes with
    | nil => exact ⟨h.1, fun _ => remaining_lt_of_part (by decide), .of_eq _ rfl rfl, Stage.le_rfl⟩
    | cons u nodes =>
      obtain ⟨hlabours, hnodes⟩ := h
      obtain ⟨hu, hl, ht⟩ := hnodes u (.head _)
      rw [List.length_cons, Nat.mul_succ, Nat.add_comm] at hlabours
      simp only [Engine.next, ends_bind, ends_pure]
      refine (hlabours.queueFirst hr hu hl ht).mono ?_ fun _ => .inl
      rintro - e' ⟨h', hstack, hadvances⟩
      refine ⟨⟨h', fun v hv => ?_⟩, fun _ => remaining_lt_of_step (Nat.lt_succ_self _), hadvances,
        Stage.le_rfl⟩
      rw [hstack]
      exact hnodes v (.tail _ hv)
  | reduce l =>
    simp only [Engine.next, ends_bind, ends_get]
    cases hp : e.pending with
    | nil =>
      simp only [ends_bind, ends_pure]
      refine (Labours.takeDeferred hr h hp).imp ?_
      rintro ds e' ⟨h', hadvances⟩
      refine ⟨h', fun _ => remaining_lt_of_part (by decide), hadvances, ?_⟩
      cases ds with
      | nil => exact .inl (Nat.lt_succ_self l)
      | cons d ds => exact .inr ⟨rfl, Nat.zero_le _⟩
    | cons p ps =>
      simp only [ends_bind, ends_modify, ends_pure]
      refine (Labours.work hr h hp).mono ?_ fun _ => .inl
      rintro - e' ⟨h', hless, hadvances⟩
      exact ⟨h', fun _ => remaining_lt_of_step hless, hadvances, Stage.le_rfl⟩
  | settle l ds =>
    cases ds with
    | nil =>
      simp only [Engine.next, ends_bind, ends_get]
      split
      · rename_i hl
        subst hl
        refine ⟨h, fun _ => ?_, .of_eq _ rfl rfl, Stage.le_rfl⟩
        simp only [remaining, Nat.sub_self]
        exact remaining_lt_of_part (by decide)
      · split
        · exact .inr ⟨e, l, rfl⟩
        · simp only [ends_bind, ends_pure]
          have hlt : l < input.tokens.length :=
            Nat.lt_of_le_of_ne (h.level_eq ▸ h.toWorkValid.level_le) ‹_›
          refine (Judges.takeShifts hr h hlt).mono ?_ fun _ => .inl
          rintro r e' ⟨h', hadvances⟩
          exact ⟨h', fun _ => remaining_lt_of_part (by decide), hadvances, Stage.le_rfl⟩
    | cons d ds =>
      simp only [Engine.next, ends_bind, ends_pure]
      refine (Judges.settleOne hr h).imp ?_
      rintro - e' ⟨h', hadvances⟩
      refine ⟨h', fun _ => remaining_lt_of_step (Nat.lt_succ_self _), hadvances, ?_⟩
      cases ds with
      | nil => exact .inl (Nat.lt_succ_self l)
      | cons d' ds => exact .inr ⟨rfl, (List.pairwise_cons.1 (Judges.sorted h)).1 d' (.head _)⟩
  | shift l label xs =>
    cases xs with
    | nil =>
      refine ⟨⟨h.lt_length, h.forest, h.toStackValid, h.deferred, h.pending_eq, h.shifts_eq,
        h.nodes_le, h.target_lt, fun h0 => absurd h0 (Nat.succ_ne_zero l)⟩, fun _ =>
        remaining_lt_of_level ?_, .of_eq _ rfl rfl, Stage.le_rfl⟩
      have := h.lt_length
      omega
    | cons x xs =>
      simp only [Engine.next, ends_bind, ends_pure]
      refine (Moves.shiftOne hr h).mono ?_ fun _ => .inl
      rintro - e' ⟨h', hadvances⟩
      exact ⟨h', fun _ => remaining_lt_of_step (Nat.lt_succ_self _), hadvances, Stage.le_rfl⟩
  | stop => exact ⟨h, fun hne => absurd rfl hne, .of_eq _ rfl rfl, Stage.le_rfl⟩

theorem Between.step {x y : Phase × Engine σ} (h : Between input start x.1 x.2)
    (hs : Step input start x y) :
    Between input start y.1 y.2 ∧ remaining input y < remaining input x ∧
      x.2.Advances (x.1.stage input) y.2 ∧ x.1.stage input ≤ y.1.stage input := by
  have hnext := h.next hr
  rw [Ends, hs.2] at hnext
  exact ⟨hnext.1, hnext.2.1 hs.1, hnext.2.2⟩

/-- What the stage has passed is left alone by all steps that are still to come. -/
theorem Steps.advances {x y : Phase × Engine σ} (hs : Steps input start x y)
    (h : Between input start x.1 x.2) : Between input start y.1 y.2 ∧
      x.2.Advances (x.1.stage input) y.2 ∧ x.1.stage input ≤ y.1.stage input := by
  induction hs with
  | refl => exact ⟨h, .of_eq _ rfl rfl, Stage.le_rfl⟩
  | tail _ hstep ih =>
    obtain ⟨hb, hadvances, hle⟩ := ih
    obtain ⟨hb', -, hadvances', hle'⟩ := hb.step hr hstep
    exact ⟨hb', hadvances.trans (hadvances'.mono hle), Stage.le_trans hle hle'⟩

/-- No run goes on forever. -/
theorem Between.acc {x : Phase × Engine σ} (h : Between input start x.1 x.2) :
    Acc (fun y x => Step input start x y) x := by
  generalize hn : remaining input x = n
  induction n using WellFoundedLT.induction generalizing x with
  | ind n ih =>
    refine .intro x fun y hs => ?_
    obtain ⟨hy, hlt, -⟩ := h.step hr hs
    exact ih _ (hn ▸ hlt) hy rfl

/-! ## Runs of the machine -/

omit hr in
/-- The state before the first level. -/
theorem Awaits.rests {l : Nat} (h : Awaits input start l e) : Rests input start l e :=
  ⟨h.forest, h.stack, h.deferred, h.pending, h.shifts, h.level_le, h.target_lt,
    fun _ => ⟨h.start_lt, h.start_level⟩⟩

/-- What holds between two steps holds in every state that a run comes to. -/
theorem Reaches.between {ph : Phase} (h : Reaches input user start ph e) :
    Between input start ph e := by
  induction h with
  | start h =>
    have hinit := awaits_initial hr user
    rw [Ends, h] at hinit
    exact ⟨Nat.zero_le _, hinit.rests⟩
  | step _ hs ih => exact (Between.step hr (x := (_, _)) ih hs).1

/-! ## The machine does what a run does -/

omit hr in
/-- A step goes on, or fails. -/
theorem Steps.next {x : Phase × Engine σ} {ph : Phase} (h : Steps input start x (ph, e))
    (hne : ph ≠ .stop) : Ends (next input start ph) (fun ph' e' => Steps input start x (ph', e'))
      (StepsFail input start x) e := by
  rw [Ends]
  cases hnext : Engine.next input start ph e with
  | ok ph' e' => exact .tail h ⟨hne, hnext⟩
  | error err e' => exact ⟨_, h, e', hnext⟩

omit hr in
/-- A part of a level that goes through a list is a loop over the list. -/
theorem Steps.forM {α : Type} {x : Phase × Engine σ} (part : List α → Phase)
    {f : α → EngineM σ Unit} (hpart : ∀ a as, part (a :: as) ≠ .stop ∧
      Engine.next input start (part (a :: as)) = do f a; pure (part as)) (as : List α)
    (h : Steps input start x (part as, e)) : Ends (as.forM f)
      (fun _ e' => Steps input start x (part [], e')) (StepsFail input start x) e := by
  induction as generalizing e with
  | nil => exact h
  | cons a as ih =>
    obtain ⟨hne, heq⟩ := hpart a as
    have hnext := h.next hne
    simp only [heq, ends_bind, ends_pure] at hnext
    change Ends (f a >>= fun _ => as.forM f) _ _ e
    rw [ends_bind]
    exact hnext.imp fun _ _ => ih

/-- The limit on the work of a level is not what ends it. -/
theorem Steps.reduceWith {x : Phase × Engine σ} {l : Nat} (fuel : Nat)
    (h : Steps input start x (.reduce l, e)) (hv : e.Valid input)
    (hfuel : e.load input + allowance input ≤ fuel + e.spent input) :
    Ends (reduceWith input fuel) (fun _ e' => Steps input start x (.reduce l, e') ∧ e'.pending = [])
      (StepsFail input start x) e := by
  induction fuel generalizing e with
  | zero => exact ⟨h, hv.pending_eq_nil hr (by omega)⟩
  | succ fuel ih =>
    have hnext := h.next (by simp)
    simp only [Engine.reduceWith, Engine.next, ends_bind, ends_get] at hnext ⊢
    cases hp : e.pending with
    | nil => exact ⟨h, hp⟩
    | cons p ps =>
      simp only [hp] at hnext
      simp only [ends_bind, ends_modify, ends_pure] at hnext ⊢
      refine (hnext.and (hv.takeUp hr hp)).mono (fun _ e' h' => ?_) fun _ h => h.1
      obtain ⟨hs, hv', _, hless, _⟩ := h'
      exact ih hs hv' (by omega)

/-- All work of a level is done. -/
theorem Steps.reduceAll {x : Phase × Engine σ} {l : Nat} (hx : Reaches input user start x.1 x.2)
    (h : Steps input start x (.reduce l, e)) :
    Ends (reduceAll input) (fun _ e' => Steps input start x (.reduce l, e') ∧ e'.pending = [])
      (StepsFail input start x) e := by
  have hlab : Labours input l 0 e := (hx.steps h).between hr
  exact h.reduceWith hr _ hlab.toValid hlab.paid

omit hr in
/-- What waits is judged, when nothing is pending. -/
theorem Steps.settle {x : Phase × Engine σ} {l : Nat} (h : Steps input start x (.reduce l, e))
    (hp : e.pending = []) : Ends (Engine.settle input)
      (fun _ e' => Steps input start x (.settle l [], e')) (StepsFail input start x) e := by
  have hnext := h.next (by simp)
  simp only [Engine.next, takeDeferred, ends_bind, ends_get, hp] at hnext
  simp only [Engine.settle, ends_bind, ends_get, List.isEmpty_reverse]
  split at hnext
  · rename_i hempty
    rw [if_pos hempty]
    exact hnext
  · rename_i hempty
    rw [if_neg hempty]
    simp only [ends_bind, ends_modify, ends_pure] at hnext ⊢
    exact hnext.forM (.settle l) (fun d ds => ⟨by simp, rfl⟩) _

/-- A run of the machine through one level. -/
theorem Steps.runLevel {x : Phase × Engine σ} {l : Nat} (hx : Reaches input user start x.1 x.2)
    (h : Steps input start x (.begin l, e)) :
    Ends (runLevel input start l) (fun _ e' => Steps input start x (.settle l [], e'))
      (StepsFail input start x) e := by
  have hrest : ∀ {nodes e f}, queueFirst input l = f → Steps input start x (.queue l nodes, e) →
      Ends (nodes.forM f) (fun _ e₁ => Ends (Engine.reduceAll input)
        (fun _ e₂ => Ends (Engine.settle input) (fun _ e' => Steps input start x (.settle l [], e'))
          (StepsFail input start x) e₂) (StepsFail input start x) e₁) (StepsFail input start x) e := by
    rintro nodes e _ rfl h
    exact (h.forM (.queue l) (fun u us => ⟨by simp, rfl⟩) _).imp fun _ e₁ h₁ =>
      (Steps.reduceAll hr hx (h₁.next (by simp))).imp fun _ e₂ ⟨h₂, hp⟩ => h₂.settle hp
  have hnext := h.next (by simp)
  simp only [Engine.next, Engine.runLevel, beginLevel, ends_bind, ends_modify] at hnext ⊢
  split at hnext
  · rename_i h0
    simpa [h0] using hrest (funext fun u => if_pos h0) hnext
  · rename_i h0
    simpa [h0] using hrest (funext fun u => if_neg h0) hnext

omit hr in
/-- The stacks are moved to the next level. -/
theorem Steps.shift {x : Phase × Engine σ} {l : Nat} (h : Steps input start x (.settle l [], e))
    (hle : e.level = l) (hl : l ≠ input.tokens.length) (hs : ¬ e.shifts.isEmpty) :
    Ends Engine.shift (fun _ e' => Steps input start x (.begin (l + 1), e'))
      (StepsFail input start x) e := by
  have hnext := h.next (by simp)
  simp only [Engine.next, takeShifts, ends_bind, ends_get] at hnext
  rw [if_neg hl, if_neg hs] at hnext
  simp only [ends_bind, ends_get, ends_modify, ends_pure] at hnext
  simp only [Engine.shift, ends_bind, ends_get, ends_modify, hle] at hnext ⊢
  refine hnext.imp fun label e₁ h₁ => ?_
  exact (h₁.forM (.shift l label) (fun y ys => ⟨by simp, rfl⟩) _).imp
    fun _ e' h' => h'.next (by simp)

/-- A run of the machine through the levels. -/
theorem Steps.runLevels {x : Phase × Engine σ} {l : Nat} (hx : Reaches input user start x.1 x.2)
    (more : Nat) (h : Steps input start x (.begin l, e)) (hl : l + more = input.tokens.length) :
    Ends (runLevels input start more l) (fun _ e' => Steps input start x (.stop, e'))
      (StepsFail input start x) e := by
  induction more generalizing l e with
  | zero =>
    refine (Steps.runLevel hr hx h).imp fun _ e' h' => ?_
    have hnext := h'.next (by simp)
    simp only [Engine.next, ends_bind, ends_get] at hnext
    rwa [if_pos (by omega)] at hnext
  | succ more ih =>
    simp only [Engine.runLevels, ends_bind, ends_get]
    refine (Steps.runLevel hr hx h).imp fun _ e₁ h₁ => ?_
    have hlevel : e₁.level = l := Judges.level_eq ((hx.steps h₁).between hr)
    split
    · rename_i hs
      have hnext := h₁.next (by simp)
      simp only [Engine.next, ends_bind, ends_get] at hnext
      rw [if_neg (by omega), if_pos hs] at hnext
      exact hnext
    · rename_i hs
      simp only [ends_bind]
      exact (h₁.shift hlevel (by omega) hs).imp fun _ e₂ h₂ => ih h₂ (by omega)

/-- A parse that ends stops in a state that the machine comes to, with a root that has an alternative. -/
theorem parseTokens_reaches (user : σ) : Ends (parseTokens input)
    (fun root e => ∃ start, Reaches input user start .stop e ∧ e.acceptedRoot? input start = some root ∧
      Arena.childrenOf e.nodes root ≠ []) (fun _ => True) (initial input user) := by
  simp only [Engine.parseTokens, ends_bind, ends_get]
  rw [Ends]
  split
  · rename_i r e₀ hstart
    have hreach : Reaches input user r.1 (.begin 0) e₀ := .start hstart
    refine (Steps.runLevels hr (x := (_, e₀)) hreach _ .refl (Nat.zero_add _)).mono
      (fun _ e hsteps => ?_) fun _ _ => trivial
    split
    · trivial
    · rename_i root hroot
      split
      · trivial
      · rename_i hne
        exact ⟨r.1, hreach.steps (x := (_, e₀)) hsteps, hroot, fun hnil => hne
          (Array.isEmpty_iff.2 (Array.toList_eq_nil_iff.1 hnil))⟩
  · trivial

/-- Where a run answers a forest, the machine has stopped with the root of the parse, which stands for all
tokens, if there is more than the end of the input. -/
theorem reaches_of_run (ht : input.tokens.EndsOnce) (hlength : 1 < input.tokens.length) {f : Forest}
    (hf : (run input user).1 = .ok f) : ∃ start e root, Reaches input user start .stop e ∧
      Arrives input user e root ∧ finish input e root = .ok f ∧
      e.acceptedRoot? input start = some root ∧
      (Arena.node e.nodes root).kind = .symbol input.grammar.first ∧
      (Arena.node e.nodes root).span = some ⟨0, input.tokens.length - 1⟩ ∧
      Arena.childrenOf e.nodes root ≠ [] := by
  have hblank := not_isBlank_of_one_lt ht hlength
  have hends := (parseTokens_ends hr user).and (parseTokens_reaches hr user)
  rw [Ends] at hends
  rw [run, EStateM.run, parse, if_neg hblank] at hf
  split at hf
  · rename_i root e hparse
    split at hparse
    · cases hparse
    · rw [hparse] at hends
      obtain ⟨⟨_, hfinished, hroot, hne⟩, start, hreach, hroot', -⟩ := hends
      have harr : Arrives input user e root := .levels (Bool.eq_false_iff.2 hblank) hfinished hroot hne
      obtain ⟨hk, hspan | ⟨-, h0⟩⟩ := hfinished.stands_root hr hroot
      · exact ⟨start, e, root, hreach, harr, hf, hroot', hk, hspan, hne⟩
      · omega
  · cases hf

omit hr in
/-- Where a run answers a forest, its levels have been done, if there is more than the end of the input. -/
theorem exists_runLevels (ht : input.tokens.EndsOnce) (hlength : 1 < input.tokens.length) {f : Forest}
    (hf : (run input user).1 = .ok f) : ∃ start isNew e e',
      internStack 0 Automaton.start (initial input user) = .ok (start, isNew) e ∧
      runLevels input start input.tokens.length 0 e = .ok () e' := by
  have hblank := not_isBlank_of_one_lt ht hlength
  have hends : Ends (parseTokens input) (fun _ _ => ∃ start isNew e e',
      internStack 0 Automaton.start (initial input user) = .ok (start, isNew) e ∧
      runLevels input start input.tokens.length 0 e = .ok () e') (fun _ => True) (initial input user) := by
    simp only [Engine.parseTokens, ends_bind, ends_get]
    rw [Ends]
    split
    · rename_i r e hstart
      rw [Ends]
      split
      · rename_i e' hrun
        exact .of_forall (fun _ _ => ⟨r.1, r.2, e, e', hstart, hrun⟩) fun _ => trivial
      · trivial
    · trivial
  rw [run, EStateM.run, parse, if_neg hblank] at hf
  split at hf
  · rename_i root e hparse
    split at hparse
    · cases hparse
    · rwa [Ends, hparse] at hends
  · cases hf

end

end Engine

end ParseForest
