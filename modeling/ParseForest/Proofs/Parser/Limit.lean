import ParseForest.Proofs.Parser.Answer
import ParseForest.Proofs.Parser.Machine

/-!
# The limit of the stack

Of all that a parse does only one thing looks at the limit of the stack: the making of a stack node. So a
step does the same under any limit under which it does not fail for the limit (`Engine.Scales`), and the
stack never outgrows its limit. There is at most one stack node per level and state, which bounds the
limits that can be reached (`Parser.limit_only_stops`).
-/

namespace ParseForest

variable {σ α β : Type}

/-- There is no room for another node, or no number for it. -/
def GraphStack.IsFull (s : GraphStack) : Prop := s.limit ≤ s.nodes.size ∨ idLimit ≤ s.nodes.size

/-- Where there is room for a node, there is under a greater limit. -/
theorem GraphStack.intern_of_le {s : GraphStack} {limit : Nat} (hsize : s.nodes.size ≤ s.limit)
    (hle : s.limit ≤ limit) (l : Nat) (state : StateId) :
    match s.intern l state with
    | .ok (id, created, s') => s'.limit = s.limit ∧ s'.nodes.size ≤ s.limit ∧
        { s with limit := limit }.intern l state = .ok (id, created, { s' with limit := limit })
    | .error err => err = .stackLimit s.limit ∧ s.IsFull := by
  have hfind : { s with limit := limit }.find? l state = s.find? l state := rfl
  simp only [intern, hfind]
  cases s.find? l state with
  | some id => exact ⟨rfl, hsize, rfl⟩
  | none =>
    by_cases hfull : s.limit ≤ s.nodes.size ∨ idLimit ≤ s.nodes.size
    · simp only [if_pos hfull]
      exact ⟨trivial, hfull⟩
    · obtain ⟨hroom, hids⟩ := not_or.1 hfull
      have hroom' : ¬ (limit ≤ s.nodes.size ∨ idLimit ≤ s.nodes.size) := by omega
      simp only [if_neg hfull, if_neg hroom']
      refine ⟨rfl, ?_, rfl⟩
      rw [add, Array.size_push]
      exact Nat.not_le.1 hroom

/-- The input with another limit of the stack. -/
def ParseInput.withLimit (input : ParseInput σ) (limit : Nat) : ParseInput σ :=
  { input with config := { input.config with maxStackNodes := limit } }

namespace Engine

/-- The state with another limit of the stack. -/
def withLimit (e : Engine σ) (limit : Nat) : Engine σ :=
  { e with stack := { e.stack with limit := limit } }

/-- The stack has this limit, and keeps to it. -/
def KeepsTo (limit : Nat) (e : Engine σ) : Prop :=
  e.stack.limit = limit ∧ e.stack.nodes.size ≤ limit

/-- A step that keeps to the limit of the stack, and would do the same under a greater one, unless it
fails because the stack is full. -/
def Scales (m : EngineM σ α) : Prop :=
  ∀ ⦃e : Engine σ⦄ ⦃limit greater : Nat⦄, e.KeepsTo limit → limit ≤ greater →
    match m e with
    | .ok a e' => e'.KeepsTo limit ∧ m (e.withLimit greater) = .ok a (e'.withLimit greater)
    | .error err e' => e'.KeepsTo limit ∧
        ((m (e.withLimit greater) = .error err (e'.withLimit greater) ∧ ∀ k, err ≠ .stackLimit k) ∨
          (err = .stackLimit limit ∧ e'.stack.IsFull))

/-! ## Constructs -/

namespace Scales

variable {m : EngineM σ α} {f : α → EngineM σ β}

theorem pure (a : α) : Scales (pure a : EngineM σ α) := fun _ _ _ h _ => ⟨h, rfl⟩

theorem throw {err : ParseError} (herr : ∀ k, err ≠ .stackLimit k) :
    Scales (throw err : EngineM σ α) := fun _ _ _ h _ => ⟨h, .inl ⟨rfl, herr⟩⟩

theorem bind (hm : Scales m) (hf : ∀ a, Scales (f a)) : Scales (m >>= f) := by
  intro e limit greater h hle
  have h₁ := hm h hle
  change match EStateM.bind m f e with
    | .ok b e' => e'.KeepsTo limit ∧ EStateM.bind m f (e.withLimit greater) = .ok b (e'.withLimit greater)
    | .error err e' => e'.KeepsTo limit ∧
        ((EStateM.bind m f (e.withLimit greater) = .error err (e'.withLimit greater) ∧
          ∀ k, err ≠ .stackLimit k) ∨ (err = .stackLimit limit ∧ e'.stack.IsFull))
  simp only [EStateM.bind]
  cases hm₁ : m e with
  | ok a e₁ =>
    rw [hm₁] at h₁
    rw [h₁.2]
    exact hf a h₁.1 hle
  | error err e₁ =>
    rw [hm₁] at h₁
    refine ⟨h₁.1, h₁.2.imp_left fun h => ⟨?_, h.2⟩⟩
    rw [h.1]

/-- Whatever a step looks at but the limit. -/
theorem get_bind {f : Engine σ → EngineM σ β} (hsame : ∀ e limit, f (e.withLimit limit) = f e)
    (hf : ∀ e, Scales (f e)) : Scales (get >>= f) := by
  intro e limit greater h hle
  have h₁ := hf e h hle
  change match f e e with
    | .ok b e' => e'.KeepsTo limit ∧
        f (e.withLimit greater) (e.withLimit greater) = .ok b (e'.withLimit greater)
    | .error err e' => e'.KeepsTo limit ∧
        ((f (e.withLimit greater) (e.withLimit greater) = .error err (e'.withLimit greater) ∧
          ∀ k, err ≠ .stackLimit k) ∨ (err = .stackLimit limit ∧ e'.stack.IsFull))
  rwa [hsame]

/-- Whatever a step changes but the number of stack nodes. -/
theorem modifyGet {f : Engine σ → α × Engine σ}
    (hsame : ∀ e limit, f (e.withLimit limit) = ((f e).1, (f e).2.withLimit limit))
    (hlimit : ∀ e, (f e).2.stack.limit = e.stack.limit)
    (hsize : ∀ e, (f e).2.stack.nodes.size = e.stack.nodes.size) :
    Scales (modifyGet f : EngineM σ α) := by
  intro e limit greater h _
  refine ⟨⟨(hlimit e).trans h.1, (hsize e).trans_le h.2⟩, ?_⟩
  change EStateM.Result.ok (f (e.withLimit greater)).1 (f (e.withLimit greater)).2 = _
  rw [hsame]

/-- Whatever a step changes but the stack. -/
theorem modify {f : Engine σ → Engine σ}
    (hsame : ∀ e limit, f (e.withLimit limit) = (f e).withLimit limit)
    (hstack : ∀ e, (f e).stack = e.stack) : Scales (modify f : EngineM σ Unit) :=
  modifyGet (fun e limit => by rw [hsame]) (fun e => by rw [hstack]) fun e => by rw [hstack]

theorem map (hm : Scales m) (f : α → β) : Scales (f <$> m) := by
  rw [map_eq_pure_bind]
  exact hm.bind fun a => pure (f a)

theorem discard (hm : Scales m) : Scales (discard m) := hm.map _

theorem forM {f : α → EngineM σ Unit} (hf : ∀ a, Scales (f a)) (as : List α) : Scales (as.forM f) := by
  induction as with
  | nil => exact pure ()
  | cons a as ih => exact (hf a).bind fun _ => ih

end Scales

/-! ## Steps -/

section

variable (input : ParseInput σ)

theorem scales_newNode (n : Node) : Scales (newNode n : EngineM σ NodeId) :=
  .modifyGet (fun _ _ => rfl) (fun _ => rfl) fun _ => rfl

theorem scales_pack (owner : NodeId) (rule : RuleId) (alt : Nat) (children : Children) :
    Scales (pack owner rule alt children : EngineM σ Unit) :=
  .modify (fun _ _ => rfl) fun _ => rfl

theorem scales_terminalNode (token : Nat) : Scales (terminalNode token : EngineM σ NodeId) := by
  refine .get_bind (fun _ _ => rfl) fun e => ?_
  split
  · exact .pure _
  · exact (scales_newNode _).bind fun id =>
      .bind (.modify (fun _ _ => rfl) fun _ => rfl) fun _ => .pure _

theorem scales_symbolNode (rule : RuleId) (left : Nat) :
    Scales (symbolNode rule left : EngineM σ NodeId) := by
  refine .get_bind (fun _ _ => rfl) fun e => .get_bind (fun _ _ => rfl) fun e => ?_
  split
  · exact .pure _
  · exact (scales_newNode _).bind fun id =>
      .bind (.modify (fun _ _ => rfl) fun _ => rfl) fun _ => .pure _

theorem scales_intermediateNode (rule : RuleId) (alt dot left : Nat) :
    Scales (intermediateNode rule alt dot left : EngineM σ NodeId) := by
  refine .get_bind (fun _ _ => rfl) fun e => .get_bind (fun _ _ => rfl) fun e => ?_
  split
  · exact .pure _
  · exact (scales_newNode _).bind fun id =>
      .bind (.modify (fun _ _ => rfl) fun _ => rfl) fun _ => .pure _

theorem scales_intermediate (rule : RuleId) (alt dot left : Nat) (first second : NodeId) :
    Scales (intermediate rule alt dot left first second : EngineM σ NodeId) := by
  refine (scales_intermediateNode _ _ _ _).bind fun id => .get_bind (fun _ _ => rfl) fun e => ?_
  split
  · exact .bind (.modify (fun _ _ => rfl) fun _ => rfl) fun _ =>
      (scales_pack _ _ _ _).bind fun _ => .pure _
  · exact .pure _

theorem scales_judge (d : Deferred) (level : Nat) : Scales (judge input d level) :=
  .modifyGet (fun _ _ => rfl) (fun _ => rfl) fun _ => rfl

theorem scales_bury (key : PackedKey) : Scales (bury key : EngineM σ Unit) :=
  .modify (fun _ _ => rfl) fun _ => rfl

theorem scales_reject (key : PackedKey) : Scales (reject key : EngineM σ Unit) :=
  .modify (fun _ _ => rfl) fun _ => rfl

theorem scales_addAlternative (d : Deferred) : Scales (addAlternative input d) := by
  refine .get_bind (fun _ _ => rfl) fun e => ?_
  split
  · exact .pure _
  · split
    · exact scales_bury _
    · refine (scales_judge input d _).bind fun verdict => ?_
      cases verdict with
      | accept => exact .bind (.modify (fun _ _ => rfl) fun _ => rfl) fun _ => scales_pack _ _ _ _
      | defer => exact .modify (fun _ _ => rfl) fun _ => rfl
      | reject => exact scales_reject _

theorem scales_settleOne (d : Deferred) : Scales (settleOne input d) := by
  refine .get_bind (fun _ _ => rfl) fun e => ?_
  split
  · exact .bind (.modify (fun _ _ => rfl) fun _ => rfl) fun _ => scales_bury _
  · refine (scales_judge input d _).bind fun verdict => ?_
    split
    · exact scales_pack _ _ _ _
    · exact .bind (.modify (fun _ _ => rfl) fun _ => rfl) fun _ => scales_reject _

theorem scales_settle : Scales (settle input) := by
  refine .get_bind (fun _ _ => rfl) fun e => ?_
  dsimp only
  split
  · exact .pure _
  · exact .bind (.modify (fun _ _ => rfl) fun _ => rfl) fun _ => .forM (scales_settleOne input) _

theorem scales_push (p : Pending) : Scales (push p : EngineM σ Unit) :=
  .modify (fun _ _ => rfl) fun _ => rfl

theorem queueAction_withLimit (node : StackId) (action : Action) (e : Engine σ) (limit : Nat) :
    queueAction node action (e.withLimit limit) = (queueAction node action e).withLimit limit := by
  unfold queueAction
  split
  · rw [apply_ite fun e => withLimit e limit]
    rfl
  · rw [apply_ite fun e => withLimit e limit]
    rfl
  · rfl

theorem queueAction_stack (node : StackId) (action : Action) (e : Engine σ) :
    (queueAction node action e).stack = e.stack := by
  unfold queueAction
  split <;> try split
  all_goals rfl

theorem scales_queueNode (node : StackId) : Scales (queueNode input node) :=
  .bind (.get_bind (fun _ _ => rfl) fun _ => .pure _) fun _ => .forM (fun action =>
    .modify (queueAction_withLimit node action) (queueAction_stack node action)) _

theorem scales_nulledTail (rule : RuleId) (alt length : Nat) :
    Scales (nulledTail input rule alt length) := by
  unfold nulledTail
  split
  · exact .pure _
  · split
    · exact .pure _
    · exact .throw fun _ => nofun

theorem scales_pushWalk (w : Walk) : Scales (pushWalk w : EngineM σ Unit) := by
  refine .get_bind (fun _ _ => rfl) fun e => ?_
  split
  · exact .bind (.modify (fun _ _ => rfl) fun _ => rfl) fun _ => scales_push _
  · exact .pure _

theorem scales_levelOf (node : StackId) : Scales (levelOf node : EngineM σ Nat) :=
  .get_bind (fun _ _ => rfl) fun _ => .pure _

theorem scales_queueReduction (edge : StackEdge) (rule : RuleId) (alt length : Nat) :
    Scales (queueReduction input edge rule alt length) := by
  refine (scales_nulledTail input rule alt length).bind fun nulled => ?_
  split
  · exact scales_push _
  · cases nulled with
    | some part =>
      exact (scales_levelOf _).bind fun left =>
        (scales_intermediate _ _ _ _ _ _).bind fun _ => scales_pushWalk _
    | none => exact scales_pushWalk _

theorem scales_queueEdge (node : StackId) (edge : StackEdge) : Scales (queueEdge input node edge) := by
  refine .bind (.get_bind (fun _ _ => rfl) fun e => .pure _) fun actions => .forM (fun action => ?_) _
  unfold queueEdgeAction
  split
  · exact scales_queueReduction input _ _ _ _
  · exact .pure _

theorem scales_gotoState (node : StackId) (rule : RuleId) : Scales (gotoState input node rule) := by
  refine .get_bind (fun _ _ => rfl) fun e => ?_
  dsimp only
  split
  · exact .pure _
  · exact .throw fun _ => nofun

/-- Only here the limit is looked at. -/
theorem scales_internStack (level : Nat) (state : StateId) :
    Scales (internStack level state : EngineM σ (StackId × Bool)) := by
  intro e limit greater h hle
  obtain ⟨rfl, hsize⟩ := h
  have hintern := GraphStack.intern_of_le hsize hle level state
  simp only [internStack, bind, EStateM.bind, get, getThe, MonadStateOf.get, EStateM.get, withLimit]
  cases h : e.stack.intern level state with
  | ok r =>
    rw [h] at hintern
    obtain ⟨hlimit, hsize', hsame⟩ := hintern
    rw [hsame]
    exact ⟨⟨hlimit, hsize'⟩, rfl⟩
  | error err =>
    rw [h] at hintern
    exact ⟨⟨rfl, hsize⟩, .inr hintern⟩

theorem scales_addEdge (source : StackId) (edge : StackEdge) :
    Scales (addEdge source edge : EngineM σ Bool) := by
  refine .modifyGet (fun e limit => ?_) (fun e => ?_) fun e => ?_
  · have hedge : (e.withLimit limit).stack.hasEdge source edge = e.stack.hasEdge source edge := rfl
    rw [hedge]
    split <;> rfl
  · split <;> rfl
  · split
    · rfl
    · exact Array.size_modify

theorem scales_reduceEmpty (node : StackId) (rule : RuleId) : Scales (reduceEmpty input node rule) := by
  unfold reduceEmpty
  split
  · exact .throw fun _ => nofun
  · refine (scales_gotoState input node rule).bind fun state => .get_bind (fun _ _ => rfl) fun e =>
      (scales_internStack _ _).bind fun r => (scales_addEdge _ _).bind fun isNew => ?_
    split
    · split
      · exact scales_queueNode input _
      · exact .pure _
    · exact .pure _

theorem scales_complete (node : StackId) (rule : RuleId) (alt : Nat) (children : Children) :
    Scales (complete input node rule alt children) := by
  refine (scales_levelOf node).bind fun left => (scales_symbolNode rule left).bind fun symbol =>
    .get_bind (fun _ _ => rfl) fun e => (scales_addAlternative input _).bind fun _ =>
      .get_bind (fun _ _ => rfl) fun e => ?_
  split
  · exact .pure _
  · refine (scales_gotoState input node rule).bind fun state =>
      (scales_internStack _ _).bind fun r => (scales_addEdge _ _).bind fun isNew => ?_
    dsimp only
    split
    · split
      · exact (scales_queueNode input _).bind fun _ => scales_queueEdge input _ _
      · exact scales_queueEdge input _ _
    · exact .pure _

theorem scales_walkEdge (w : Walk) (edge : StackEdge) : Scales (walkEdge w edge : EngineM σ Unit) := by
  unfold walkEdge
  split
  · exact scales_push _
  · exact (scales_levelOf _).bind fun left =>
      (scales_intermediate _ _ _ _ _ _).bind fun _ => scales_pushWalk _

theorem scales_work (p : Pending) : Scales (work input p) := by
  have hcount : Scales (countReduction : EngineM σ Unit) := .modify (fun _ _ => rfl) fun _ => rfl
  cases p with
  | zero node rule => exact hcount.bind fun _ => scales_reduceEmpty input node rule
  | walk w => exact .get_bind (fun _ _ => rfl) fun e => .forM (scales_walkEdge w) _
  | complete node rule alt children =>
    exact hcount.bind fun _ => scales_complete input node rule alt children

theorem scales_reduceWith (fuel : Nat) : Scales (reduceWith input fuel) := by
  induction fuel with
  | zero => exact .pure _
  | succ fuel ih =>
    refine .get_bind (fun _ _ => rfl) fun e => ?_
    split
    · exact .pure _
    · exact .bind (.modify (fun _ _ => rfl) fun _ => rfl) fun _ => (scales_work input _).bind fun _ => ih

theorem scales_shift : Scales (shift : EngineM σ Unit) := by
  refine .get_bind (fun _ _ => rfl) fun e => (scales_terminalNode _).bind fun label =>
    .get_bind (fun _ _ => rfl) fun e => .bind (.modify (fun _ _ => rfl) fun _ => rfl) fun _ =>
      .forM (fun x => ?_) _
  exact (scales_internStack _ _).bind fun r => (scales_addEdge _ _).discard

theorem scales_beginLevel (level : Nat) : Scales (beginLevel input level) :=
  .modify (fun _ _ => rfl) fun _ => rfl

theorem scales_queueShifted (node : StackId) : Scales (queueShifted input node) :=
  (scales_queueNode input node).bind fun _ => .get_bind (fun _ _ => rfl) fun _ =>
    .forM (scales_queueEdge input node) _

theorem scales_runLevel (start : StackId) (level : Nat) : Scales (runLevel input start level) := by
  refine (scales_beginLevel input level).bind fun _ => ?_
  have hrest : Scales (do reduceAll input; settle input) :=
    (scales_reduceWith input _).bind fun _ => scales_settle input
  split
  · exact (scales_queueNode input start).bind fun _ => hrest
  · exact .get_bind (fun _ _ => rfl) fun e =>
      .bind (.forM (scales_queueShifted input) _) fun _ => hrest

theorem scales_runLevels (start : StackId) (more level : Nat) :
    Scales (runLevels input start more level) := by
  induction more generalizing level with
  | zero => exact scales_runLevel input start level
  | succ more ih =>
    refine (scales_runLevel input start level).bind fun _ => .get_bind (fun _ _ => rfl) fun e => ?_
    split
    · exact .throw fun _ => nofun
    · exact scales_shift.bind fun _ => ih _

/-- A whole parse. -/
theorem scales_parse : Scales (parse input) := by
  rw [parse]
  split
  · unfold parseBlank
    split
    · exact .pure _
    · exact .throw fun _ h => by cases h
  · split
    · exact .throw fun _ h => by cases h
    · refine (scales_internStack _ _).bind fun r => (scales_runLevels input _ _ _).bind fun _ =>
        .get_bind (fun _ _ => rfl) fun e => ?_
      split
      · exact .throw fun _ h => by cases h
      · split
        · exact .throw fun _ h => by cases h
        · exact .pure _

/-- A step of the machine. -/
theorem scales_next (start : StackId) (ph : Phase) : Scales (next input start ph) := by
  cases ph with
  | begin level =>
    refine (scales_beginLevel input level).bind fun _ => ?_
    split
    · exact .pure _
    · exact .get_bind (fun _ _ => rfl) fun _ => .pure _
  | queue level nodes =>
    cases nodes with
    | nil => exact .pure _
    | cons node nodes =>
      refine .bind ?_ fun _ => .pure _
      unfold queueFirst
      split
      · exact scales_queueNode input node
      · exact scales_queueShifted input node
  | reduce level =>
    refine .get_bind (fun _ _ => rfl) fun e => ?_
    split
    · refine .bind (.get_bind (fun _ _ => rfl) fun e => ?_) fun _ => .pure _
      dsimp only
      split
      · exact .pure _
      · exact .bind (.modify (fun _ _ => rfl) fun _ => rfl) fun _ => .pure _
    · exact .bind (.modify (fun _ _ => rfl) fun _ => rfl) fun _ =>
        (scales_work input _).bind fun _ => .pure _
  | settle level ds =>
    cases ds with
    | nil =>
      refine .get_bind (fun _ _ => rfl) fun e => ?_
      split
      · exact .pure _
      · split
        · exact .throw fun _ => nofun
        · exact .bind (.get_bind (fun _ _ => rfl) fun e => (scales_terminalNode _).bind fun label =>
            .get_bind (fun _ _ => rfl) fun e => .bind (.modify (fun _ _ => rfl) fun _ => rfl)
              fun _ => .pure _) fun _ => .pure _
    | cons d ds => exact (scales_settleOne input d).bind fun _ => .pure _
  | shift level label xs =>
    cases xs with
    | nil => exact .pure _
    | cons x xs =>
      exact .bind ((scales_internStack _ _).bind fun r => (scales_addEdge _ _).discard) fun _ => .pure _
  | stop => exact .pure _

end

/-! ## Runs -/

variable {input : ParseInput σ} {user : σ} {start : StackId} {e : Engine σ}

theorem reduceWith_withLimit (limit fuel : Nat) :
    reduceWith (input.withLimit limit) fuel = reduceWith input fuel := by
  induction fuel with
  | zero => rfl
  | succ fuel ih =>
    rw [reduceWith, reduceWith, ih]
    rfl

theorem runLevel_withLimit (limit level : Nat) :
    runLevel (input.withLimit limit) start level = runLevel input start level := by
  have hall : reduceAll (input.withLimit limit) = reduceAll input := reduceWith_withLimit limit _
  rw [runLevel, runLevel, hall]
  rfl

theorem runLevels_withLimit (limit more level : Nat) :
    runLevels (input.withLimit limit) start more level = runLevels input start more level := by
  induction more generalizing level with
  | zero => exact runLevel_withLimit limit level
  | succ more ih =>
    rw [runLevels, runLevels, runLevel_withLimit]
    simp only [ih]
    rfl

/-- What is done does not depend on the limit in the settings; only the state in which it begins does. -/
theorem parse_withLimit (limit : Nat) : parse (input.withLimit limit) = parse input := by
  have hlevels : ∀ start, runLevels (input.withLimit limit) start (input.withLimit limit).tokens.length 0 =
      runLevels input start input.tokens.length 0 := fun start => runLevels_withLimit limit _ 0
  have htokens : parseTokens (input.withLimit limit) = parseTokens input := by
    rw [parseTokens, parseTokens]
    simp only [hlevels]
    rfl
  rw [parse, parse, htokens]
  rfl

theorem initial_keepsTo (input : ParseInput σ) (user : σ) :
    (initial input user).KeepsTo input.config.maxStackNodes :=
  ⟨rfl, Nat.zero_le _⟩

/-- A run under a greater limit. -/
theorem run_withLimit {greater : Nat} (hle : input.config.maxStackNodes ≤ greater)
    (h : ∀ k, (run input user).1 ≠ .error (.stackLimit k)) :
    run (input.withLimit greater) user = run input user := by
  have hscales := scales_parse input (initial_keepsTo input user) hle
  have hinitial : initial (input.withLimit greater) user = (initial input user).withLimit greater := rfl
  rw [run, run, parse_withLimit, hinitial]
  rw [run] at h
  simp only [EStateM.run] at h ⊢
  cases hp : parse input (initial input user) with
  | ok root e =>
    rw [hp] at hscales
    rw [hscales.2]
    rfl
  | error err e =>
    rw [hp] at hscales h
    rcases hscales.2 with ⟨hsame, -⟩ | ⟨rfl, -⟩
    · rw [hsame]
      rfl
    · exact absurd rfl (h _)

/-- The state in which a run ends, with a root or an error. -/
def final (input : ParseInput σ) (user : σ) : Engine σ :=
  match parse input (initial input user) with
  | .ok _ e => e
  | .error _ e => e

/-- However a run ends, the stack keeps to its limit. -/
theorem final_keepsTo (input : ParseInput σ) (user : σ) :
    (final input user).KeepsTo input.config.maxStackNodes := by
  have hscales := scales_parse input (initial_keepsTo input user) (Nat.le_refl _)
  rw [final]
  cases hp : parse input (initial input user) <;> rw [hp] at hscales <;> exact hscales.1

/-- A run is stopped only if its stack is full. -/
theorem isFull_of_run {k : Nat} (h : (run input user).1 = .error (.stackLimit k)) :
    (final input user).stack.IsFull := by
  have hscales := scales_parse input (initial_keepsTo input user) (Nat.le_refl _)
  rw [run] at h
  rw [final]
  simp only [EStateM.run] at h
  cases hp : parse input (initial input user) with
  | ok root e =>
    rw [hp] at h
    dsimp only at h
    rw [finish_eq] at h
    split at h <;> cases h
  | error err e =>
    rw [hp] at hscales h
    rcases hscales.2 with ⟨-, hother⟩ | ⟨-, hfull⟩
    · exact absurd (Except.error.inj h) (hother k)
    · exact hfull

/-- In every state that a run comes to, the stack keeps to its limit. -/
theorem Reaches.keepsTo {ph : Phase} (h : Reaches input user start ph e) :
    e.KeepsTo input.config.maxStackNodes := by
  induction h with
  | start h =>
    have hscales := scales_internStack 0 Automaton.start (initial_keepsTo input user) (Nat.le_refl _)
    rw [h] at hscales
    exact hscales.1
  | @step ph _ _ _ _ hs ih =>
    have hscales := scales_next input start ph ih (Nat.le_refl _)
    rw [hs.2] at hscales
    exact hscales.1

end Engine

namespace Parser

variable {g : Grammar} {lexer : LexerDescription} {c : CompiledGrammar}

/-- The limit of the stack does nothing but stop a parse. Under a greater limit a parse that is not
stopped comes to the same: the forest with what was counted or the error, and the state of the
disambiguators. The stack keeps to its limit in every state that a parse comes to, and however it ends.
And if the limit leaves room for a node per level and state, it stops no parse: only one can be stopped
then that has given away all node numbers, where there are more levels and states than numbers. -/
theorem limit_only_stops (hg : g.Built) (hc : CompiledGrammar.ofGrammar g lexer = .ok c)
    (config : ParserConfig) (user : List (Disambiguator σ)) (tokens : TokenStream) (s : σ)
    {limit greater : Nat} (hle : limit ≤ greater) :
    ((∀ k, (parseTokens ⟨c, { config with maxStackNodes := limit }, user⟩ tokens s).1 ≠
        .error (.stackLimit k)) →
      parseTokens ⟨c, { config with maxStackNodes := greater }, user⟩ tokens s =
        parseTokens ⟨c, { config with maxStackNodes := limit }, user⟩ tokens s) ∧
    (∀ start ph e, Engine.Reaches ⟨c, { config with maxStackNodes := limit }, user, tokens.ensureEof⟩
      s start ph e → e.stack.nodes.size ≤ limit) ∧
    (Engine.final ⟨c, { config with maxStackNodes := limit }, user, tokens.ensureEof⟩ s).stack.nodes.size ≤
      limit ∧
    ((tokens.ensureEof.length + 1) * c.automaton.states.size ≤ limit →
      ∀ k, (parseTokens ⟨c, { config with maxStackNodes := limit }, user⟩ tokens s).1 =
          .error (.stackLimit k) →
        GraphStack.idLimit < (tokens.ensureEof.length + 1) * c.automaton.states.size ∧
        GraphStack.idLimit ≤ (Engine.final ⟨c, { config with maxStackNodes := limit }, user,
          tokens.ensureEof⟩ s).stack.nodes.size) := by
  have hr := CompiledGrammar.ready hg hc { config with maxStackNodes := limit } user tokens.ensureEof
  have hkeeps := Engine.final_keepsTo
    ⟨c, { config with maxStackNodes := limit }, user, tokens.ensureEof⟩ s
  refine ⟨Engine.run_withLimit hle, fun start ph e h => h.keepsTo.2, hkeeps.2, fun hbound k hk => ?_⟩
  have hnodes : Engine.nodeBound ⟨c, { config with maxStackNodes := limit }, user, tokens.ensureEof⟩ =
    (tokens.ensureEof.length + 1) * c.automaton.states.size := rfl
  obtain ⟨hlimit, hlt⟩ := Engine.mayFail_of_run hr hk
  have hfull := Engine.isFull_of_run hk
  rw [GraphStack.IsFull, hkeeps.1] at hfull
  rw [hlimit, hnodes] at hlt
  dsimp only at hlt hfull
  omega

theorem limit_only_stops_items : ∃ c, CompiledGrammar.ofGrammar .list .empty = .ok c ∧
    (∀ k, (parseTokens ⟨c, { ParserConfig.standard with maxStackNodes := 24 },
      ([] : List (Disambiguator Unit))⟩ (.items 2) ()).1 ≠ .error (.stackLimit k)) ∧
    parseTokens ⟨c, { ParserConfig.standard with maxStackNodes := 1000000 },
        ([] : List (Disambiguator Unit))⟩ (.items 2) () =
      parseTokens ⟨c, { ParserConfig.standard with maxStackNodes := 24 }, []⟩ (.items 2) () := by
  obtain ⟨c, hc, -, hsize⟩ := CompiledGrammar.exists_list
  obtain ⟨ht, -, hlen⟩ := TokenStream.items_endsOnce 2
  obtain ⟨hsame, -, -, hfree⟩ := limit_only_stops Grammar.list_built hc .standard
    ([] : List (Disambiguator Unit)) (.items 2) () (show 24 ≤ 1000000 by decide)
  rw [ht.ensureEof_eq, hlen, hsize] at hfree
  have hnot : ∀ k, (parseTokens ⟨c, { ParserConfig.standard with maxStackNodes := 24 },
      ([] : List (Disambiguator Unit))⟩ (.items 2) ()).1 ≠ .error (.stackLimit k) := fun k hk =>
    absurd (hfree (by decide) k hk).1 (by decide)
  exact ⟨c, hc, hnot, hsame hnot⟩

end Parser

end ParseForest
