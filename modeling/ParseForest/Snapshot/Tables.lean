import ParseForest.Automaton.Basic
import ParseForest.Codec.Basic
import ParseForest.Epsilon
import ParseForest.Grammar.Basic
import ParseForest.Lexer.Description

/-!
# The tables of a compiled grammar as bytes

A codec for each kind of table, put together from those of its members.
-/

namespace ParseForest

/-! ## Grammars -/

/-- A rule is 0 and its number, a terminal 1 and its number. -/
def Symbol.codec : Codec Symbol :=
  (Codec.nat.pair .nat).via
    (fun s => match s with
      | .rule id => (0, id)
      | .terminal id => (1, id))
    (fun code => match code with
      | (0, id) => some (.rule id)
      | (1, id) => some (.terminal id)
      | _ => none)
    (by intro s; cases s <;> rfl)

/-- Associativities are 0 to 2. -/
def Associativity.codec : Codec Associativity :=
  Codec.nat.via
    (fun a => match a with
      | .left => 0
      | .right => 1
      | .none => 2)
    (fun code => match code with
      | 0 => some .left
      | 1 => some .right
      | 2 => some .none
      | _ => Option.none)
    (by intro a; cases a <;> rfl)

/-- The members of a literal, one after another. -/
def Literal.codec : Codec Literal :=
  (Codec.string.pair (Codec.nat.option.pair Associativity.codec)).via
    (fun l => (l.text, l.precedence, l.associativity))
    (fun (text, precedence, associativity) => some ⟨text, precedence, associativity⟩)
    (fun _ => rfl)

/-- The members of a pattern terminal, one after another. -/
def PatternTerminal.codec : Codec PatternTerminal :=
  (Codec.string.pair (Codec.string.pair Codec.string.option)).via
    (fun p => (p.pattern, p.flags, p.className))
    (fun (pattern, flags, className) => some ⟨pattern, flags, className⟩)
    (fun _ => rfl)

/-- A terminal is an optional literal and an optional pattern, of which one is there. -/
def Terminal.codec : Codec Terminal :=
  (Literal.codec.option.pair PatternTerminal.codec.option).via
    (fun t => match t with
      | .literal l => (some l, none)
      | .pattern p => (none, some p))
    (fun code => match code with
      | (some l, none) => some (.literal l)
      | (none, some p) => some (.pattern p)
      | _ => none)
    (by intro t; cases t <;> rfl)

/-- The members of an operator, one after another. -/
def Operator.codec : Codec Operator :=
  (Codec.nat.pair (Codec.nat.pair Associativity.codec)).via
    (fun o => (o.index, o.precedence, o.associativity))
    (fun (index, precedence, associativity) => some ⟨index, precedence, associativity⟩)
    (fun _ => rfl)

/-- The members of an alternative, one after another. -/
def Alternative.codec : Codec Alternative :=
  (Symbol.codec.list.pair (Codec.nat.pair Operator.codec.option)).via
    (fun a => (a.symbols, a.nullableFrom, a.operator))
    (fun (symbols, nullableFrom, operator) => some ⟨symbols, nullableFrom, operator⟩)
    (fun _ => rfl)

/-- Kinds are 0 to 5. -/
def RuleKind.codec : Codec RuleKind :=
  Codec.nat.via
    (fun k => match k with
      | .normal => 0
      | .list => 1
      | .optional => 2
      | .group => 3
      | .tokenClass => 4
      | .start => 5)
    (fun code => match code with
      | 0 => some .normal
      | 1 => some .list
      | 2 => some .optional
      | 3 => some .group
      | 4 => some .tokenClass
      | 5 => some .start
      | _ => none)
    (by intro k; cases k <;> rfl)

/-- The members of a rule, one after another. -/
def Rule.codec : Codec Rule :=
  (Codec.string.pair (RuleKind.codec.pair (Alternative.codec.array.pair .bool))).via
    (fun r => (r.name, r.kind, r.alternatives, r.nullable))
    (fun (name, kind, alternatives, nullable) => some ⟨name, kind, alternatives, nullable⟩)
    (fun _ => rfl)

/-- The members of a grammar, one after another. -/
def Grammar.codec : Codec Grammar :=
  (Rule.codec.array.pair (Terminal.codec.array.pair (Codec.nat.pair (Codec.nat.pair
    (Codec.nat.pair .nat))))).via
    (fun g => (g.rules, g.terminals, g.start, g.first, g.eofRule, g.eof))
    (fun (rules, terminals, start, first, eofRule, eof) =>
      some ⟨rules, terminals, start, first, eofRule, eof⟩)
    (fun _ => rfl)

/-! ## Automata -/

/-- The members of an item, one after another. -/
def Item.codec : Codec Item :=
  (Codec.nat.pair (Codec.nat.pair .nat)).via
    (fun i => (i.rule, i.alt, i.dot))
    (fun (rule, alt, dot) => some ⟨rule, alt, dot⟩)
    (fun _ => rfl)

/-- The digits as one number, then the number of terminals. -/
def LookaheadSet.codec : Codec LookaheadSet :=
  (Codec.nat.pair .nat).via
    (fun s => (s.digits, s.terminals))
    (fun (digits, terminals) => some ⟨digits, terminals⟩)
    (fun _ => rfl)

/-- The members of a reduction, one after another. -/
def Reduction.codec : Codec Reduction :=
  (Codec.nat.pair (Codec.nat.pair (Codec.nat.pair LookaheadSet.codec))).via
    (fun r => (r.rule, r.alt, r.length, r.lookahead))
    (fun (rule, alt, length, lookahead) => some ⟨rule, alt, length, lookahead⟩)
    (fun _ => rfl)

/-- The members of a state, one after another. -/
def State.codec : Codec State :=
  (Item.codec.list.pair (Item.codec.list.pair ((Codec.nat.pair .nat).list.pair
    ((Codec.nat.pair .nat).list.pair (Reduction.codec.list.pair .bool))))).via
    (fun s => (s.kernel, s.items, s.shifts, s.gotos, s.reductions, s.accepting))
    (fun (kernel, items, shifts, gotos, reductions, accepting) =>
      some ⟨kernel, items, shifts, gotos, reductions, accepting⟩)
    (fun _ => rfl)

/-- The states, one after another. -/
def Automaton.codec : Codec Automaton :=
  State.codec.array.via Automaton.states (fun states => some ⟨states⟩) (fun _ => rfl)

/-! ## Empty derivations -/

/-- A kind is a list of numbers: which kind it is, then its members. -/
def NodeKind.codec : Codec NodeKind :=
  Codec.nat.list.via
    (fun k => match k with
      | .symbol rule => [0, rule]
      | .packed rule alt => [1, rule, alt]
      | .intermediate rule alt dot => [2, rule, alt, dot]
      | .terminal token => [3, token]
      | .epsilon => [4]
      | .nulled rule alt dot => [5, rule, alt, dot])
    (fun code => match code with
      | [0, rule] => some (.symbol rule)
      | [1, rule, alt] => some (.packed rule alt)
      | [2, rule, alt, dot] => some (.intermediate rule alt dot)
      | [3, token] => some (.terminal token)
      | [4] => some .epsilon
      | [5, rule, alt, dot] => some (.nulled rule alt dot)
      | _ => none)
    (by intro k; cases k <;> rfl)

/-- The ends of a span. -/
def Span.codec : Codec Span :=
  (Codec.nat.pair .nat).via
    (fun s => (s.left, s.right))
    (fun (left, right) => some ⟨left, right⟩)
    (fun _ => rfl)

/-- The members of a node, one after another. -/
def Node.codec : Codec Node :=
  (NodeKind.codec.pair (Span.codec.option.pair (Codec.nat.array.pair Codec.nat.array))).via
    (fun n => (n.kind, n.span, n.children, n.parents))
    (fun (kind, span, children, parents) => some ⟨kind, span, children, parents⟩)
    (fun _ => rfl)

/-- The members of the fragments of a grammar, one after another. -/
def EpsilonForest.codec : Codec EpsilonForest :=
  (Node.codec.array.pair (Codec.nat.option.array.pair
    (Codec.nat.pair .nat).list.array.array)).via
    (fun e => (e.nodes, e.symbols, e.tails))
    (fun (nodes, symbols, tails) => some ⟨nodes, symbols, tails⟩)
    (fun _ => rfl)

/-! ## Lexer descriptions -/

/-- Kinds are 0 to 2. -/
def ClassKind.codec : Codec ClassKind :=
  Codec.nat.via
    (fun k => match k with
      | .token => 0
      | .skip => 1
      | .literal => 2)
    (fun code => match code with
      | 0 => some .token
      | 1 => some .skip
      | 2 => some .literal
      | _ => none)
    (by intro k; cases k <;> rfl)

/-- The members of a class, one after another. -/
def TokenClass.codec : Codec TokenClass :=
  (Codec.string.pair (Codec.string.pair ClassKind.codec)).via
    (fun c => (c.name, c.pattern, c.kind))
    (fun (name, pattern, kind) => some ⟨name, pattern, kind⟩)
    (fun _ => rfl)

/-- The classes, one after another. -/
def LexerDescription.codec : Codec LexerDescription :=
  TokenClass.codec.array.via LexerDescription.classes (fun classes => some ⟨classes⟩) (fun _ => rfl)

end ParseForest
