import ParseForest.Pattern.Basic
import ParseForest.Reachable

/-!
# Matching

A pattern is compiled to a program, a list of instructions that fall through to the next one unless
they say otherwise. The program is run on all its threads at once, character by character, in order
of preference: a thread that accepts cuts off every thread behind it. So the match found is the one
that a depth-first search with the same preferences finds first, in time proportional to program and
text.
-/

namespace ParseForest

/-- One step of a matching program. -/
inductive Instruction
  | consume (chars : CharSet)
  | check (test : Assertion)
  | fork (preferred other : Nat)
  | jump (target : Nat)
  | accept
deriving Inhabited

namespace Pattern

/-- A fork between going on at `inner` and leaving to `outer`. -/
def forkInstruction (greedy : Bool) (inner outer : Nat) : Instruction :=
  if greedy then .fork inner outer else .fork outer inner

/-- Runs `step` that many times. -/
def emitTimes (n : Nat) (step : Array Instruction → Array Instruction) (code : Array Instruction) :
    Array Instruction :=
  (List.replicate n ()).foldl (fun code _ => step code) code

/-- One or more rounds of `step`. -/
def emitRounds (greedy : Bool) (step : Array Instruction → Array Instruction)
    (code : Array Instruction) : Array Instruction :=
  let start := code.size
  let code := step code
  code.push (forkInstruction greedy start (code.size + 1))

/-- No round or one round of `step`; what follows starts at the end of the code. -/
def emitOptional (greedy : Bool) (step : Array Instruction → Array Instruction)
    (code : Array Instruction) : Array Instruction :=
  let fork := code.size
  let code := step (code.push .accept)
  code.setIfInBounds fork (forkInstruction greedy (fork + 1) code.size)

/-- `n` rounds of `step` of which each may be the one not taken, leaving for the end. -/
def emitUpTo (n : Nat) (greedy : Bool) (step : Array Instruction → Array Instruction)
    (code : Array Instruction) : Array Instruction :=
  let (code, forks) := (List.replicate n ()).foldl
    (fun (code, forks) _ =>
      let fork := code.size
      (step (code.push .accept), fork :: forks))
    (code, [])
  let leave := code.size
  forks.foldl
    (fun code fork => code.setIfInBounds fork (forkInstruction greedy (fork + 1) leave)) code

/-- Appends the instructions of a pattern. An unbounded repetition of a pattern that may be empty
becomes an optional run of one or more rounds: the order of preference would suffer otherwise. -/
def emit : Pattern → Array Instruction → Array Instruction
  | .empty, code => code
  | .text chars, code => chars.foldl (fun code c => code.push (.consume (.singleton c))) code
  | .set chars, code => code.push (.consume chars)
  | .check test, code => code.push (.check test)
  | .group _ p, code => p.emit code
  | .seq p q, code => q.emit (p.emit code)
  | .choice p q, code =>
    let fork := code.size
    let code := p.emit (code.push .accept)
    let leave := code.size
    let code := (code.push .accept).setIfInBounds fork (.fork (fork + 1) (leave + 1))
    let code := q.emit code
    code.setIfInBounds leave (.jump code.size)
  | .loop p least none greedy, code =>
    if least = 0 then
      if p.takesChar then
        let fork := code.size
        let code := (p.emit (code.push .accept)).push (.jump fork)
        code.setIfInBounds fork (forkInstruction greedy (fork + 1) code.size)
      else emitOptional greedy (emitRounds greedy p.emit) code
    else emitRounds greedy p.emit (emitTimes (least - 1) p.emit code)
  | .loop p least (some most) greedy, code =>
    emitUpTo (most - least) greedy p.emit (emitTimes least p.emit code)

end Pattern

/-- A compiled pattern. -/
structure Matcher where
  code : Array Instruction
  /-- Every match begins at the start of the text -/
  anchored : Bool

namespace Matcher

/-- Compiles a pattern. -/
def ofPattern (p : Pattern) : Matcher := ⟨(p.emit #[]).push .accept, p.isAnchored⟩

/-- Adds the threads that start at `pending` to `threads`, in order of preference. A place is
visited once; a thread waits at an instruction that takes a character, or accepts. -/
def follow (code : Array Instruction) (before after : Option Char) (pending : List Nat)
    (seen : Array Bool) (threads : Array Nat) : Array Bool × Array Nat :=
  match pending with
  | [] => (seen, threads)
  | place :: pending =>
    if h : place < seen.size then
      if hs : seen[place] then follow code before after pending seen threads
      else
        let seen' := seen.set place true
        match code.getD place .accept with
        | .consume _ => follow code before after pending seen' (threads.push place)
        | .accept => follow code before after pending seen' (threads.push place)
        | .check test =>
          if test.holds before after then follow code before after ((place + 1) :: pending) seen' threads
          else follow code before after pending seen' threads
        | .fork preferred other =>
          follow code before after (preferred :: other :: pending) seen' threads
        | .jump target => follow code before after (target :: pending) seen' threads
    else follow code before after pending seen threads
termination_by (seen.count false, pending.length)
decreasing_by
  all_goals first
    | exact Prod.Lex.left _ _ (count_false_set_lt h (by simpa using hs))
    | exact Prod.Lex.right _ (by simp)

/-- The threads of one position, and the end of the best match among them. -/
structure Position where
  threads : Array Nat
  seen : Array Bool

/-- The position before any thread has been added. -/
def Position.none (code : Array Instruction) : Position := ⟨#[], Array.replicate code.size false⟩

/-- Adds the threads that start at `place`. -/
def Position.add (code : Array Instruction) (before after : Option Char) (pos : Position)
    (place : Nat) : Position :=
  let (seen, threads) := follow code before after [place] pos.seen pos.threads
  ⟨threads, seen⟩

/-- Moves the threads over the character `c`, in order of preference, until one accepts. The answer
says whether one did. -/
def advance (code : Array Instruction) (c : Char) (after : Option Char) :
    List Nat → Position → Position × Bool
  | [], next => (next, false)
  | thread :: threads, next =>
    match code.getD thread .accept with
    | .accept => (next, true)
    | .consume chars =>
      if chars.contains c then
        advance code c after threads (next.add code (some c) after (thread + 1))
      else advance code c after threads next
    | _ => advance code c after threads next

/-- True when one of the threads accepts. -/
def accepts (code : Array Instruction) (threads : Array Nat) : Bool :=
  threads.any fun thread => match code.getD thread .accept with
    | .accept => true
    | _ => false

/-- Runs the threads over the rest of the text, which starts after `count` characters. `best` is the
end of the best match so far; without one, a match may also begin here. -/
def run (m : Matcher) (before : Option Char) (count : Nat) (best : Option Nat) (pos : Position) :
    List Char → Option Nat
  | [] =>
    let pos := if best.isNone && (!m.anchored || count == 0)
      then pos.add m.code before none 0 else pos
    if accepts m.code pos.threads then some count else best
  | c :: rest =>
    let pos := if best.isNone && (!m.anchored || count == 0)
      then pos.add m.code before (some c) 0 else pos
    let (next, accepted) := advance m.code c rest.head? pos.threads.toList (.none m.code)
    let best := if accepted then some count else best
    if next.threads.isEmpty && (best.isSome || m.anchored) then best
    else run m (some c) (count + 1) best next rest

/-- The number of characters up to the end of the leftmost match, the preferred one of those that
begin there. -/
def matchEnd? (m : Matcher) (text : List Char) : Option Nat :=
  m.run none 0 none (.none m.code) text

theorem run_le {m : Matcher} {text : List Char} {count n : Nat} {best : Option Nat} {before : Option Char}
    {pos : Position} (hbest : ∀ k, best = some k → k ≤ count)
    (h : run m before count best pos text = some n) : n ≤ count + text.length := by
  induction text generalizing before count best pos with
  | nil =>
    rw [run] at h
    obtain ⟨pos, h⟩ : ∃ pos : Position,
        (if accepts m.code pos.threads then some count else best) = some n := ⟨_, h⟩
    split at h
    · exact Nat.le_of_eq (Option.some.inj h).symm
    · exact hbest n h
  | cons c rest ih =>
    rw [run] at h
    dsimp only at h
    generalize advance m.code c rest.head? _ _ = next at h
    obtain ⟨next, accepted⟩ := next
    -- the best match so far still ends within what has been read
    have hbest' : ∀ k, (if accepted then some count else best) = some k → k ≤ count := by
      intro k hk
      split at hk
      · exact Nat.le_of_eq (Option.some.inj hk).symm
      · exact hbest k hk
    generalize (if accepted then some count else best) = best' at h hbest'
    rw [List.length_cons]
    split at h
    · exact Nat.le_trans (hbest' n h) (Nat.le_add_right _ _)
    · have := ih (fun k hk => Nat.le_trans (hbest' k hk) (Nat.le_succ _)) h
      omega

/-- A match ends within the text. -/
theorem matchEnd?_le {m : Matcher} {text : List Char} {n : Nat} (h : m.matchEnd? text = some n) :
    n ≤ text.length := by
  simpa using run_le (fun _ hk => by cases hk) h

/-- True when the pattern matches somewhere in the text. -/
def isMatch (m : Matcher) (text : List Char) : Bool := (m.matchEnd? text).isSome

end Matcher

end ParseForest
