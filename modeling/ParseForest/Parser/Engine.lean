import ParseForest.Compiled
import ParseForest.Disambiguation.Candidate
import ParseForest.Forest.Basic
import ParseForest.Parser.Config
import ParseForest.Parser.Stack

/-!
# The parsing engine

Generalised LR parsing with right-nulled reductions and binarised derivations (BRNGLR). The engine
works level by level over the tokens. At each level all pending reductions are done, then every
stack that can take the current token is moved to the next level. A reduction walks back over the
edges of the stack, one edge at a time, and makes an intermediate node per step, so that no path is
followed twice; the symbols after a shortened alternative are supplied by the fragments that derive
nothing.

Candidates with an operand that ends at the current level are deferred until the level has no
reductions left, and then judged from narrow to wide.
-/

namespace ParseForest

/-- The children of a packed node while the forest is built: one or two. -/
structure Children where
  first : NodeId
  second : Option NodeId
deriving DecidableEq, Hashable

/-- The children as a list. -/
def Children.toList (c : Children) : List NodeId := c.first :: c.second.toList

/-- What tells one derivation of a choice from another. -/
structure PackedKey where
  owner : NodeId
  alt : Nat
  children : Children
deriving DecidableEq, Hashable

/-- A walk that has `remaining` edges to go from a stack node; `tail` covers the symbols
after them. -/
structure Walk where
  node : StackId
  rule : RuleId
  alt : Nat
  remaining : Nat
  tail : NodeId
deriving DecidableEq, Hashable

/-- Work to be done at the current level. -/
inductive Pending
  /-- Reduce a rule to nothing on top of a stack node -/
  | zero (node : StackId) (rule : RuleId)
  | walk (w : Walk)
  /-- Every symbol has been collected; the goto starts at the stack node -/
  | complete (node : StackId) (rule : RuleId) (alt : Nat) (children : Children)

/-- A derivation that waits for the reductions of its level. -/
structure Deferred where
  symbol : NodeId
  rule : RuleId
  alt : Nat
  span : Span
  children : Children

/-- The key of a derivation. -/
def Deferred.key (d : Deferred) : PackedKey := ⟨d.symbol, d.alt, d.children⟩

/-- What a parse reads but does not change. -/
structure ParseInput (σ : Type) where
  compiled : CompiledGrammar
  config : ParserConfig
  user : List (Disambiguator σ)
  tokens : TokenStream

namespace ParseInput

variable {σ : Type} (input : ParseInput σ)

/-- The grammar. -/
def grammar : Grammar := input.compiled.grammar

/-- What candidates are judged by. -/
def pipeline : Pipeline σ := ⟨input.config.precedence, input.config.greedy, input.user⟩

end ParseInput

/-- The state of a parse. -/
structure Engine (σ : Type) where
  stack : GraphStack
  nodes : Arena
  /-- The symbol nodes, by rule and span -/
  symbols : Std.HashMap (RuleId × Span) NodeId
  /-- The intermediate nodes, by rule, alternative, dot and span -/
  intermediates : Std.HashMap (RuleId × Nat × Nat × Span) NodeId
  /-- The derivations that are packed or deferred -/
  packed : Std.HashSet PackedKey
  /-- The derivations that have been turned down -/
  rejected : Std.HashSet PackedKey
  deferred : List Deferred
  /-- The symbol nodes with deferred derivations -/
  waiting : Std.HashSet NodeId
  /-- The nodes of the tokens -/
  terminals : Array (Option NodeId)
  pending : List Pending
  /-- The walks of this level -/
  walks : Std.HashSet Walk
  /-- The empty reductions of this level -/
  zeros : Std.HashSet (StackId × RuleId)
  /-- The stack nodes that can take the current token, and where it leads -/
  shifts : Array (StackId × StateId)
  level : Nat
  lookaheads : List Lookahead
  reductionCount : Nat
  rejectedCount : Nat
  /-- The state of the disambiguators -/
  user : σ

/-- A step of a parse. When it fails, the state of the disambiguators is kept. -/
abbrev EngineM (σ : Type) := EStateM ParseError (Engine σ)

namespace Engine

variable {σ : Type}

/-- The engine before the first level. -/
def initial (input : ParseInput σ) (user : σ) : Engine σ where
  stack := .empty (input.tokens.length + 1) input.config.maxStackNodes
  nodes := input.compiled.epsilon.nodes
  symbols := ∅
  intermediates := ∅
  packed := ∅
  rejected := ∅
  deferred := []
  waiting := ∅
  terminals := Array.replicate input.tokens.length none
  pending := []
  walks := ∅
  zeros := ∅
  shifts := #[]
  level := 0
  lookaheads := []
  reductionCount := 0
  rejectedCount := 0
  user := user

/-! ## Nodes -/

/-- Makes a forest node. -/
def newNode (n : Node) : EngineM σ NodeId :=
  modifyGet fun e => (e.nodes.size, { e with nodes := e.nodes.push n })

/-- Makes a packed node and puts it under its owner. -/
def pack (owner : NodeId) (rule : RuleId) (alt : Nat) (children : Children) : EngineM σ Unit :=
  modify fun e =>
    let id := e.nodes.size
    let nodes := e.nodes.push ⟨.packed rule alt, none, children.toList.toArray, #[]⟩
    { e with nodes := Arena.addChild nodes owner id }

/-- The node of a token. -/
def terminalNode (token : Nat) : EngineM σ NodeId := do
  match (← get).terminals.getD token none with
  | some id => pure id
  | none =>
    let id ← newNode (.ofKind (.terminal token) (some ⟨token, token + 1⟩))
    modify fun e => { e with terminals := e.terminals.setIfInBounds token (some id) }
    pure id

/-- The node of a rule from `left` to the current level. -/
def symbolNode (rule : RuleId) (left : Nat) : EngineM σ NodeId := do
  let span : Span := ⟨left, (← get).level⟩
  match (← get).symbols[(rule, span)]? with
  | some id => pure id
  | none =>
    let id ← newNode (.ofKind (.symbol rule) (some span))
    modify fun e => { e with symbols := e.symbols.insert (rule, span) id }
    pure id

/-- The node of the symbols of an alternative from `dot` on, from `left` to the current level. -/
def intermediateNode (rule : RuleId) (alt dot left : Nat) : EngineM σ NodeId := do
  let span : Span := ⟨left, (← get).level⟩
  match (← get).intermediates[(rule, alt, dot, span)]? with
  | some id => pure id
  | none =>
    let id ← newNode (.ofKind (.intermediate rule alt dot) (some span))
    modify fun e => { e with intermediates := e.intermediates.insert (rule, alt, dot, span) id }
    pure id

/-- The same node, with two children packed under it. -/
def intermediate (rule : RuleId) (alt dot left : Nat) (first second : NodeId) : EngineM σ NodeId := do
  let id ← intermediateNode rule alt dot left
  let key : PackedKey := ⟨id, alt, ⟨first, some second⟩⟩
  if !(← get).packed.contains key then
    modify fun e => { e with packed := e.packed.insert key }
    pack id rule alt key.children
  pure id

/-! ## Candidates -/

/-- Whether a child is a symbol node that ended before `level` and has no derivation left. -/
def hasDeadChild (nodes : Arena) (children : Children) (level : Nat) : Bool :=
  children.toList.any fun child =>
    let n := Arena.node nodes child
    n.isSymbol && n.children.isEmpty && n.span.any (·.right < level)

/-- Judges a derivation when operands that end before `level` are settled. -/
def judge (input : ParseInput σ) (d : Deferred) (level : Nat) : EngineM σ Verdict :=
  modifyGet fun e =>
    let candidate : Candidate := {
      grammar := input.grammar, tokens := input.tokens, nodes := e.nodes, node := d.symbol
      rule := d.rule, alt := d.alt, span := d.span, level := level
      sequences := Arena.sequencesOf e.nodes sequenceCap d.children.toList }
    let (verdict, user) := input.pipeline.judge candidate e.user
    (verdict, { e with user })

/-- Remembers that a derivation can lead to nothing. -/
def bury (key : PackedKey) : EngineM σ Unit :=
  modify fun e => { e with rejected := e.rejected.insert key }

/-- Remembers and counts that a derivation has been turned down. -/
def reject (key : PackedKey) : EngineM σ Unit :=
  modify fun e => { e with
    rejected := e.rejected.insert key, rejectedCount := e.rejectedCount + 1 }

/-- Offers a derivation to its symbol node. It is packed or deferred, unless it is there already or
is turned down. -/
def addAlternative (input : ParseInput σ) (d : Deferred) : EngineM σ Unit := do
  let e ← get
  if e.packed.contains d.key || e.rejected.contains d.key then pure ()
  else if hasDeadChild e.nodes d.children e.level then bury d.key
  else
    match ← judge input d e.level with
    | .accept =>
      modify fun e => { e with packed := e.packed.insert d.key }
      pack d.symbol d.rule d.alt d.children
    | .defer =>
      modify fun e => { e with
        packed := e.packed.insert d.key
        waiting := e.waiting.insert d.symbol
        deferred := d :: e.deferred }
    | .reject => reject d.key

/-- Judges a deferred derivation when the level has no reductions left. -/
def settleOne (input : ParseInput σ) (d : Deferred) : EngineM σ Unit := do
  let e ← get
  if hasDeadChild e.nodes d.children (e.level + 1) then
    modify fun e => { e with packed := e.packed.erase d.key }
    bury d.key
  else
    match ← judge input d (e.level + 1) with
    | .accept => pack d.symbol d.rule d.alt d.children
    | _ =>
      modify fun e => { e with packed := e.packed.erase d.key }
      reject d.key

/-- Judges the deferred derivations, from narrow to wide. -/
def settle (input : ParseInput σ) : EngineM σ Unit := do
  let deferred := (← get).deferred.reverse
  if deferred.isEmpty then pure ()
  else
    modify fun e => { e with deferred := [], waiting := ∅ }
    (deferred.mergeSort fun a b => a.span.width ≤ b.span.width).forM (settleOne input)

/-! ## Work -/

/-- The different actions of a state under the current lookaheads. -/
def actions (input : ParseInput σ) (e : Engine σ) (state : StateId) : List Action :=
  (e.lookaheads.flatMap (input.compiled.automaton.state state).actions).eraseDups

/-- The actions of the state of a stack node. -/
def nodeActions (input : ParseInput σ) (node : StackId) : EngineM σ (List Action) := do
  let e ← get
  pure (e.actions input (e.stack.node node).state)

/-- Adds work. -/
def push (p : Pending) : EngineM σ Unit := modify fun e => { e with pending := p :: e.pending }

/-- Adds a shift or an empty reduction of a stack node to the work, unless it is there. -/
def queueAction (node : StackId) (action : Action) (e : Engine σ) : Engine σ :=
  match action with
  | .shift target =>
    if e.shifts.contains (node, target) then e
    else { e with shifts := e.shifts.push (node, target) }
  | .reduce rule _ 0 =>
    if e.zeros.contains (node, rule) then e
    else { e with
      zeros := e.zeros.insert (node, rule), pending := .zero node rule :: e.pending }
  | _ => e

/-- Queues the shifts and the empty reductions of a stack node that is new at this level. -/
def queueNode (input : ParseInput σ) (node : StackId) : EngineM σ Unit := do
  (← nodeActions input node).forM fun action => modify (queueAction node action)

/-- The fragment of the symbols of an alternative after the first `length`, if there are any. -/
def nulledTail (input : ParseInput σ) (rule : RuleId) (alt length : Nat) :
    EngineM σ (Option NodeId) :=
  if (input.grammar.alternative rule alt).length ≤ length then pure none
  else
    match input.compiled.epsilon.tail? rule alt length with
    | some id => pure (some id)
    | none => throw (.internal ("no nulled part for "
        ++ input.grammar.displayAlternative rule alt none ++ " at " ++ toString length))

/-- Queues a walk, unless it has been queued at this level. -/
def pushWalk (w : Walk) : EngineM σ Unit := do
  if !(← get).walks.contains w then
    modify fun e => { e with walks := e.walks.insert w }
    push (.walk w)

/-- The level of a stack node. -/
def levelOf (node : StackId) : EngineM σ Nat := return ((← get).stack.node node).level

/-- Queues the reduction of the first `length` symbols of an alternative that begins with an edge,
the last symbol first. -/
def queueReduction (input : ParseInput σ) (edge : StackEdge) (rule : RuleId) (alt length : Nat) :
    EngineM σ Unit := do
  let nulled ← nulledTail input rule alt length
  if length = 1 then push (.complete edge.target rule alt ⟨edge.label, nulled⟩)
  else
    let tail ← match nulled with
      | some part => intermediate rule alt (length - 1) (← levelOf edge.target) edge.label part
      | none => pure edge.label
    pushWalk ⟨edge.target, rule, alt, length - 1, tail⟩

/-- Queues the reduction of an action that begins with an edge, unless it is an empty one. -/
def queueEdgeAction (input : ParseInput σ) (edge : StackEdge) : Action → EngineM σ Unit
  | .reduce rule alt (length + 1) => queueReduction input edge rule alt (length + 1)
  | _ => pure ()

/-- Queues the reductions that begin with an edge that is new at this level, the empty ones left
out. -/
def queueEdge (input : ParseInput σ) (node : StackId) (edge : StackEdge) : EngineM σ Unit := do
  (← nodeActions input node).forM (queueEdgeAction input edge)

/-! ## Reducing -/

/-- Where a rule leads from the state of a stack node. -/
def gotoState (input : ParseInput σ) (node : StackId) (rule : RuleId) : EngineM σ StateId := do
  let state := ((← get).stack.node node).state
  match input.compiled.automaton.goto? state rule with
  | some target => pure target
  | none => throw (.internal ("state " ++ toString state ++ " has no goto on <"
      ++ (input.grammar.rule rule).name ++ ">"))

/-- The stack node of a state at a level, and whether it is new. -/
def internStack (level : Nat) (state : StateId) : EngineM σ (StackId × Bool) := do
  match (← get).stack.intern level state with
  | .ok (id, created, stack) =>
    modify fun e => { e with stack }
    pure (id, created)
  | .error err => throw err

/-- Adds an edge to the stack, and says whether it is new. -/
def addEdge (source : StackId) (edge : StackEdge) : EngineM σ Bool :=
  modifyGet fun e =>
    if e.stack.hasEdge source edge then (false, e)
    else (true, { e with stack := e.stack.addEdge source edge })

/-- Reduces a rule to nothing. No longer reduction begins with the edge of an empty one. -/
def reduceEmpty (input : ParseInput σ) (node : StackId) (rule : RuleId) : EngineM σ Unit := do
  match input.compiled.epsilon.symbol? rule with
  | none => throw (.internal ("<" ++ (input.grammar.rule rule).name
      ++ "> reduced to nothing but is not nullable"))
  | some label =>
    let state ← gotoState input node rule
    let (target, created) ← internStack (← get).level state
    if ← addEdge target ⟨node, label⟩ then
      if created then queueNode input target

/-- Completes a reduction: offers the derivation to the symbol node and, unless that has no
derivation, puts the symbol on the stack. -/
def complete (input : ParseInput σ) (node : StackId) (rule : RuleId) (alt : Nat)
    (children : Children) : EngineM σ Unit := do
  let left ← levelOf node
  let symbol ← symbolNode rule left
  addAlternative input ⟨symbol, rule, alt, ⟨left, (← get).level⟩, children⟩
  let e ← get
  if (Arena.node e.nodes symbol).children.isEmpty && !e.waiting.contains symbol then pure ()
  else
    let state ← gotoState input node rule
    let (target, created) ← internStack e.level state
    if ← addEdge target ⟨node, symbol⟩ then
      if created then queueNode input target
      queueEdge input target ⟨node, symbol⟩

/-- Takes a walk over one edge. -/
def walkEdge (w : Walk) (edge : StackEdge) : EngineM σ Unit := do
  if w.remaining = 1 then push (.complete edge.target w.rule w.alt ⟨edge.label, some w.tail⟩)
  else
    let left ← levelOf edge.target
    let tail ← intermediate w.rule w.alt (w.remaining - 1) left edge.label w.tail
    pushWalk ⟨edge.target, w.rule, w.alt, w.remaining - 1, tail⟩

/-- Counts a reduction. -/
def countReduction : EngineM σ Unit :=
  modify fun e => { e with reductionCount := e.reductionCount + 1 }

/-- Does one piece of work. -/
def work (input : ParseInput σ) : Pending → EngineM σ Unit
  | .zero node rule => do
    countReduction
    reduceEmpty input node rule
  | .walk w => do
    let edges := ((← get).stack.node w.node).edges
    edges.toList.forM (walkEdge w)
  | .complete node rule alt children => do
    countReduction
    complete input node rule alt children

/-- Works until nothing is pending, or the fuel is used up. -/
def reduceWith (input : ParseInput σ) : Nat → EngineM σ Unit
  | 0 => pure ()
  | fuel + 1 => do
    match (← get).pending with
    | [] => pure ()
    | p :: rest =>
      modify fun e => { e with pending := rest }
      work input p
      reduceWith input fuel

/-- The most stack nodes there can be: one per level and state. -/
def nodeBound (input : ParseInput σ) : Nat :=
  (input.tokens.length + 1) * input.compiled.automaton.states.size

/-- The most items there can be in a state. -/
def itemBound (input : ParseInput σ) : Nat := (allItems input.grammar).length

/-- As many pieces of work as there can be at one level. Each is an empty reduction, or follows from
an edge and an item, or from a walk and an edge. There is at most one edge between two stack nodes,
and one walk per stack node and item. -/
def workLimit (input : ParseInput σ) : Nat :=
  let nodes := nodeBound input
  let items := itemBound input
  nodes * input.grammar.rules.size + nodes * items * (nodes + 1) + 2 * (nodes * nodes * items)

/-- Does all the work of the level. -/
def reduceAll (input : ParseInput σ) : EngineM σ Unit := reduceWith input (workLimit input)

/-! ## Levels -/

/-- Moves every stack that can take the current token to the next level. -/
def shift : EngineM σ Unit := do
  let level := (← get).level
  let label ← terminalNode level
  let shifts := (← get).shifts
  modify fun e => { e with shifts := #[] }
  shifts.toList.forM fun (node, target) => do
    let (next, _) ← internStack (level + 1) target
    discard (addEdge next ⟨node, label⟩)

/-- The lookaheads at a level: the terminals of the token, or the end after the last one. -/
def lookaheadsAt (input : ParseInput σ) (level : Nat) : List Lookahead :=
  match input.tokens.get? level with
  | some t => (input.compiled.matcher.matching t).map Lookahead.terminal
  | none => [.finish]

/-- Begins a level. -/
def beginLevel (input : ParseInput σ) (level : Nat) : EngineM σ Unit :=
  modify fun e => { e with
    level := level, walks := ∅, zeros := ∅, lookaheads := lookaheadsAt input level }

/-- Queues the work of a stack node that the shifts have led to. -/
def queueShifted (input : ParseInput σ) (node : StackId) : EngineM σ Unit := do
  queueNode input node
  let edges := ((← get).stack.node node).edges
  edges.toList.forM (queueEdge input node)

/-- The names of the terminals that the states can take or reduce before, in order. -/
def expectedNames (input : ParseInput σ) (states : List StateId) : List String :=
  let g := input.grammar
  let names := (states.flatMap fun q => (input.compiled.automaton.state q).expected).filterMap
    fun l => match l with
      | .terminal t => some (if t = g.eof then "end of input" else (g.terminal t).display)
      | .finish => none
  (names.mergeSort fun a b => a ≤ b).eraseDups

/-- The error of a parse that cannot get past a token. -/
def failure (input : ParseInput σ) (e : Engine σ) (token : Nat) : ParseError :=
  let states := (e.stack.level token).toList.map fun id => (e.stack.node id).state
  let t := input.tokens.get? token
  .unexpectedToken ((t.map Token.position).getD ⟨0, 0, 0, 0⟩)
    ((t.map Token.describe).getD "end of input") (input.tokens.nearText token)
    (expectedNames input states)

/-- Does one level, up to the shifts. -/
def runLevel (input : ParseInput σ) (start : StackId) (level : Nat) : EngineM σ Unit := do
  beginLevel input level
  if level = 0 then queueNode input start
  else ((← get).stack.level level).toList.forM (queueShifted input)
  reduceAll input
  settle input

/-- Does the levels from `level` on, of which there are `more` after it. -/
def runLevels (input : ParseInput σ) (start : StackId) : Nat → Nat → EngineM σ Unit
  | 0, level => runLevel input start level
  | more + 1, level => do
    runLevel input start level
    let e ← get
    if e.shifts.isEmpty then throw (e.failure input level)
    shift
    runLevels input start more (level + 1)

/-- The node of the first rule: the label below the end of input, on a way from an accepting state
to the start. -/
def acceptedRoot? (input : ParseInput σ) (e : Engine σ) (start : StackId) : Option NodeId := do
  let accepting ← (e.stack.level input.tokens.length).find? fun id =>
    (input.compiled.automaton.state (e.stack.node id).state).accepting
  (e.stack.node accepting).edges.findSome? fun beforeEof =>
    ((e.stack.node beforeEof.target).edges.find? (·.target == start)).map StackEdge.label

/-- Runs the levels and answers the root of the forest. -/
def parseTokens (input : ParseInput σ) : EngineM σ NodeId := do
  let (start, _) ← internStack 0 Automaton.start
  runLevels input start input.tokens.length 0
  let e ← get
  match e.acceptedRoot? input start with
  | none => throw (e.failure input (input.tokens.length - 1))
  | some root =>
    if (Arena.node e.nodes root).children.isEmpty then throw .emptyForest else pure root

/-- The root of the forest of an input without tokens: the fragment of the first rule, if it derives
the empty string. -/
def parseBlank (input : ParseInput σ) : EngineM σ NodeId :=
  match input.compiled.epsilon.symbol? input.grammar.first with
  | some root => pure root
  | none =>
    let t := input.tokens.get? 0
    throw (.unexpectedToken ((t.map Token.position).getD ⟨0, 0, 0, 0⟩)
      ((t.map Token.describe).getD "end of input") "" (expectedNames input [Automaton.start]))

/-- Parses the tokens. -/
def parse (input : ParseInput σ) : EngineM σ NodeId :=
  if input.tokens.isBlank then parseBlank input
  else if GraphStack.idLimit ≤ input.tokens.length then throw (.internal "token stream too long")
  else parseTokens input

/-- What was counted. -/
def stats (e : Engine σ) : ParseStats :=
  ⟨e.stack.nodes.size, e.stack.edgeCount, e.nodes.size, e.reductionCount, e.rejectedCount⟩

/-- The forest of a finished parse, after the passes that the settings ask for. -/
def finish (input : ParseInput σ) (e : Engine σ) (root : NodeId) : Except ParseError Forest :=
  let f : Forest := ⟨e.nodes, root, input.tokens, input.grammar, e.stats⟩
  if input.config.transforms then
    let passes := if f.isAmbiguous || 0 < e.rejectedCount
      then Pass.standard input.config.precedence input.config.greedy else Pass.structural
    match f.transform passes with
    | (f, .ok _) => .ok f
    | (_, .error err) => .error err
  else .ok f

/-- The whole parse, and the state in which it leaves the disambiguators. -/
def run (input : ParseInput σ) (user : σ) : Except ParseError Forest × σ :=
  match (parse input).run (initial input user) with
  | .ok root e => (finish input e root, e.user)
  | .error err e => (.error err, e.user)

end Engine

end ParseForest
