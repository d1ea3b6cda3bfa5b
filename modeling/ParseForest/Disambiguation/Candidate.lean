import ParseForest.Disambiguation.Greedy
import ParseForest.Disambiguation.Precedence
import ParseForest.Token.Stream

/-!
# Judging candidates

Before a derivation is added to a symbol node it is judged: by precedence, by greedy repetition, and
by the disambiguators of the user in their order. It is kept if all accept it. Precedence looks at
the derivations of the operands, so a candidate with an operand that ends at the current level,
where operands may still gain derivations, is deferred.
-/

namespace ParseForest

/-- The most right-hand sides that are looked at per alternative. -/
def sequenceCap : Nat := 64

/-- A derivation that may be added to a symbol node. -/
structure Candidate where
  grammar : Grammar
  tokens : TokenStream
  nodes : Arena
  /-- The symbol node -/
  node : NodeId
  rule : RuleId
  alt : Nat
  span : Span
  /-- The right-hand sides of the derivation -/
  sequences : List Sequence
  /-- Operands that end before this level have all the derivations they will get -/
  level : Nat

namespace Candidate

variable (c : Candidate)

/-- Name of the rule. -/
def ruleName : String := (c.grammar.rule c.rule).name

/-- The alternative being derived. -/
def alternative : Alternative := c.grammar.alternative c.rule c.alt

/-- The derivations that the node has: the alternative and the packed node of each. -/
def existing : List (Nat × NodeId) :=
  (Arena.childrenOf c.nodes c.node).filterMap fun packed =>
    match (Arena.node c.nodes packed).kind with
    | .packed _ alt => some (alt, packed)
    | _ => none

/-- The right-hand sides of a derivation that the node has. -/
def sequencesOf (packed : NodeId) : List Sequence := Arena.sequences c.nodes sequenceCap packed

/-- The texts of the tokens that a node covers, with blanks between them. -/
def text (id : NodeId) : String :=
  match (Arena.node c.nodes id).span with
  | none => ""
  | some span =>
    " ".intercalate (((c.tokens.tokens.toList.take span.right).drop span.left).map Token.text)

/-- Whether a node has all the derivations it will get. -/
def settled (id : NodeId) : Bool :=
  match (Arena.node c.nodes id).span with
  | none => true
  | some span => span.right < c.level

end Candidate

/-- A rule of the user. It says whether it accepts a candidate, and may keep a state of type `σ`
from one candidate to the next. -/
abbrev Disambiguator (σ : Type) := Candidate → σ → Bool × σ

/-- Asks disambiguators in order until one does not accept. -/
def acceptedByAll {σ : Type} : List (Disambiguator σ) → Candidate → σ → Bool × σ
  | [], _, s => (true, s)
  | d :: ds, c, s =>
    match d c s with
    | (true, s) => acceptedByAll ds c s
    | (false, s) => (false, s)

/-- What becomes of a candidate. -/
inductive Verdict
  | accept
  | reject
  /-- An operand may still gain derivations -/
  | defer
deriving DecidableEq

/-- What candidates are judged by. -/
structure Pipeline (σ : Type) where
  precedence : Bool
  greedy : Bool
  user : List (Disambiguator σ)

namespace Pipeline

/-- What the built-in rules make of a candidate; `accept` leaves it to the user. -/
def builtIn {σ : Type} (p : Pipeline σ) (c : Candidate) : Verdict :=
  if p.precedence && Arena.operandPending c.settled c.alternative c.sequences then .defer
  else if p.precedence
      && !Arena.precedenceAllows c.grammar c.nodes c.settled c.alternative c.sequences then .reject
  else if p.greedy
      && !Arena.greedyAllows c.grammar c.nodes c.sequences (c.existing.map Prod.snd) then .reject
  else .accept

/-- Judges a candidate. -/
def judge {σ : Type} (p : Pipeline σ) (c : Candidate) (s : σ) : Verdict × σ :=
  match p.builtIn c with
  | .accept =>
    match acceptedByAll p.user c s with
    | (true, s) => (.accept, s)
    | (false, s) => (.reject, s)
  | verdict => (verdict, s)

end Pipeline

end ParseForest
