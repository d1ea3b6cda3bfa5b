import ParseForest.Grammar.Builder
import ParseForest.Notation.Lexeme

/-!
# Reading grammar text

A grammar text is a list of rules `<name> ::= alternative | alternative ...`. In BNF an alternative
is a sequence of references, literals and patterns. EBNF adds groups in parentheses and the
modifiers `?`, `+` and `*`, which stand for synthetic rules named after what they apply to: `[LIST
x] ::= x | x [LIST x]` for `x+`, `[OPT x] ::= x | ""` for `x?`, `[OPT [LIST x]]` for `x*`, and
`[GROUP ...]` for a group with several alternatives. So equal expressions share one rule.
-/

namespace ParseForest

/-- The two forms of grammar text. -/
inductive GrammarForm
  | bnf
  | ebnf
deriving DecidableEq

namespace Notation

/-- The lexemes that are still to be read, the place where the text ends, and the grammar so far. -/
structure Reader where
  rest : List Lexeme
  stop : Location
  builder : GrammarBuilder

namespace Reader

variable (r : Reader)

/-- The next lexeme; at the end of the text, the end itself. -/
def peek : Lexeme := r.rest.headD ⟨.stop, r.stop⟩

/-- The reader after the next lexeme. -/
def skip : Reader := { r with rest := r.rest.tail }

/-- True before `<name> ::=`. -/
def atRuleStart : Bool :=
  match r.rest with
  | ⟨.reference _, _⟩ :: ⟨.define, _⟩ :: _ => true
  | _ => false

/-- True where an alternative ends: at the end of the text, a `|` or the next rule. -/
def atSequenceEnd : Bool :=
  r.peek.kind == .stop || r.peek.kind == .pipe || r.atRuleStart

/-- The error of a lexeme that stands where something else should. -/
def unexpected (what : String) (found : Lexeme) : GrammarError :=
  .malformed (.expected what found.kind.describe) found.place

/-- The error of an annotation that follows no literal. -/
def misplaced (mark : Lexeme) : GrammarError :=
  .misplacedMark mark.kind.describe mark.place

/-- The error of a reader whose fuel runs out before its lexemes do, which no reader of a text is. -/
def exhausted : GrammarError := .internal "grammar reader ran out of fuel"

/-- Reads a reference to a rule. -/
def reference (name : String) (place : Location) : Symbol × Reader :=
  let (id, builder) := r.builder.mention name place
  (.rule id, { r with builder })

/-- Gives the annotations at the front of the lexemes to a literal. -/
def annotateWith (id : TerminalId) (builder : GrammarBuilder) (stop : Location) :
    List Lexeme → Except GrammarError Reader
  | ⟨.precedence level, place⟩ :: rest =>
    match builder.annotate id (some level) none place with
    | (.error e, _) => .error e
    | (.ok _, builder) => annotateWith id builder stop rest
  | ⟨.associativity side, place⟩ :: rest =>
    match builder.annotate id none (some side) place with
    | (.error e, _) => .error e
    | (.ok _, builder) => annotateWith id builder stop rest
  | rest => .ok ⟨rest, stop, builder⟩

/-- Reads a literal, whose text is given, and the annotations after it. -/
def literal (text : String) : Except GrammarError (TerminalId × Reader) := do
  let (id, builder) := r.builder.literal text
  let r ← annotateWith id builder r.stop r.rest
  .ok (id, r)

/-- Reads a pattern. -/
def pattern (text flags : String) : Symbol × Reader :=
  let (id, builder) := r.builder.pattern text flags
  (.terminal id, { r with builder })

/-! ## BNF -/

/-- Reads the symbols of an alternative. The fuel counts lexemes; every round takes at least one. -/
def bnfSymbols : Nat → Reader → Except GrammarError (List Symbol × Reader)
  | 0, _ => .error exhausted
  | fuel + 1, r =>
    if r.atSequenceEnd then .ok ([], r)
    else do
      let lexeme := r.peek
      let r := r.skip
      let (symbol, r) ← match lexeme.kind with
        | .reference name => pure (r.reference name lexeme.place)
        | .literal text => do
          let (id, r) ← r.literal text
          pure (Symbol.terminal id, r)
        | .pattern text flags => pure (r.pattern text flags)
        | .precedence _ => .error (misplaced lexeme)
        | .associativity _ => .error (misplaced lexeme)
        | .openParen => .error (.malformed (.extendedOnly lexeme.kind.describe) lexeme.place)
        | .closeParen => .error (.malformed (.extendedOnly lexeme.kind.describe) lexeme.place)
        | .question => .error (.malformed (.extendedOnly lexeme.kind.describe) lexeme.place)
        | .plus => .error (.malformed (.extendedOnly lexeme.kind.describe) lexeme.place)
        | .star => .error (.malformed (.extendedOnly lexeme.kind.describe) lexeme.place)
        | .define => .error (unexpected "a symbol" lexeme)
        | .pipe => .error (unexpected "a symbol" lexeme)
        | .stop => .error (unexpected "a symbol" lexeme)
      let (symbols, r) ← bnfSymbols fuel r
      .ok (symbol :: symbols, r)

/-- Reads an alternative, which has at least one symbol. -/
def bnfSequence (r : Reader) : Except GrammarError (List Symbol × Reader) :=
  if r.atSequenceEnd then .error (.malformed .emptyAlternative r.peek.place)
  else bnfSymbols (r.rest.length + 1) r

/-- Reads the alternatives after the first one. -/
def bnfMore : Nat → Reader → Except GrammarError (List (List Symbol) × Reader)
  | 0, _ => .error exhausted
  | fuel + 1, r =>
    if r.peek.kind = .pipe then do
      let (symbols, r) ← bnfSequence r.skip
      let (more, r) ← bnfMore fuel r
      .ok (symbols :: more, r)
    else .ok ([], r)

/-- Reads the alternatives of a rule in BNF. -/
def bnfAlternatives (r : Reader) : Except GrammarError (List (List Symbol) × Reader) := do
  let (symbols, r) ← bnfSequence r
  let (more, r) ← bnfMore (r.rest.length + 1) r
  .ok (symbols :: more, r)

/-! ## Synthetic rules -/

/-- Symbols as grammar text shows them. -/
def describe (builder : GrammarBuilder) (symbols : List Symbol) : String :=
  " ".intercalate (symbols.map builder.describe)

/-- The rule of a name, which is given alternatives if it has none. -/
def syntheticRule (builder : GrammarBuilder) (name : String) (kind : RuleKind)
    (alternatives : Symbol → List (List Symbol)) : Symbol × GrammarBuilder :=
  let (id, builder) := builder.internRule name kind
  if builder.isDefined id then (.rule id, builder)
  else (.rule id, (alternatives (.rule id)).foldl (fun b alt => b.addAlternative id alt) builder)

/-- The rule for one or more of `symbols`. -/
def listRule (builder : GrammarBuilder) (symbols : List Symbol) : Symbol × GrammarBuilder :=
  syntheticRule builder ("[LIST " ++ describe builder symbols ++ "]") .list
    fun itself => [symbols, symbols ++ [itself]]

/-- The rule for `symbols` or nothing. -/
def optionalRule (builder : GrammarBuilder) (symbols : List Symbol) : Symbol × GrammarBuilder :=
  syntheticRule builder ("[OPT " ++ describe builder symbols ++ "]") .optional
    fun _ => [symbols, []]

/-- The symbols of a group: those of its only alternative, or a rule for several. -/
def groupSymbols (builder : GrammarBuilder) (alternatives : List (List Symbol)) :
    List Symbol × GrammarBuilder :=
  match alternatives with
  | [symbols] => (symbols, builder)
  | alternatives =>
    let name := "[GROUP " ++ " | ".intercalate (alternatives.map (describe builder)) ++ "]"
    let (symbol, builder) := syntheticRule builder name .group fun _ => alternatives
    ([symbol], builder)

/-- The symbol for `symbols` under a modifier. -/
def modifiedSymbol (builder : GrammarBuilder) (modifier : Char) (symbols : List Symbol) :
    Symbol × GrammarBuilder :=
  if modifier = '+' then listRule builder symbols
  else if modifier = '?' then optionalRule builder symbols
  else
    let (list, builder) := listRule builder symbols
    optionalRule builder [list]

/-! ## EBNF -/

/-- Reads the modifier that may follow `symbols`, at most one. -/
def modifier (r : Reader) (symbols : List Symbol) : Except GrammarError (List Symbol × Reader) :=
  let lexeme := r.peek
  match lexeme.kind.modifier? with
  | none => .ok (symbols, r)
  | some m =>
    let r := r.skip
    match r.peek.kind.modifier? with
    | some again => .error (.doubleModifier again r.peek.place)
    | none =>
      if symbols.isEmpty then .error (.malformed (.modifiedNothing m) lexeme.place)
      else
        let (symbol, builder) := modifiedSymbol r.builder m symbols
        .ok ([symbol], { r with builder })

/-- The error, if any, of the place where an alternative has ended: in a group opened by a
parenthesis a `)` or `|` has to stand there, and outside no `)`. -/
def sequenceEndFault? (r : Reader) : Option Lexeme → Option GrammarError
  | some opened =>
    if r.peek.kind = .stop ∨ r.atRuleStart then some (.unterminatedGroup opened.place) else none
  | none => if r.peek.kind = .closeParen then some (unexpected "a symbol" r.peek) else none

mutual

/-- Reads `alternative | alternative ...`, in the group that `opened` opens or at the top. -/
def choice : Nat → Option Lexeme → Reader → Except GrammarError (List (List Symbol) × Reader)
  | 0, _, _ => .error exhausted
  | fuel + 1, opened, r => do
    let (symbols, r') ← sequence fuel opened r
    if r'.peek.kind = .pipe then
      let (more, r') ← choice fuel opened r'.skip
      .ok (symbols :: more, r')
    else .ok ([symbols], r')

/-- Reads an alternative, which has at least one item. -/
def sequence : Nat → Option Lexeme → Reader → Except GrammarError (List Symbol × Reader)
  | 0, _, _ => .error exhausted
  | fuel + 1, opened, r => do
    let (symbols, r') ← items fuel r
    match sequenceEndFault? r' opened with
    | some fault => .error fault
    | none =>
      if r.atSequenceEnd ∨ r.peek.kind = .closeParen then
        .error (.malformed .emptyAlternative r.peek.place)
      else .ok (symbols, r')

/-- Reads items up to the end of an alternative or a closing parenthesis. -/
def items : Nat → Reader → Except GrammarError (List Symbol × Reader)
  | 0, _ => .error exhausted
  | fuel + 1, r =>
    if r.atSequenceEnd ∨ r.peek.kind = .closeParen then .ok ([], r)
    else do
      let (symbols, r) ← item fuel r
      let (more, r) ← items fuel r
      .ok (symbols ++ more, r)

/-- Reads a reference, a literal, a pattern or a group, and the modifier that may follow it. -/
def item : Nat → Reader → Except GrammarError (List Symbol × Reader)
  | 0, _ => .error exhausted
  | fuel + 1, r => do
    let lexeme := r.peek
    let r := r.skip
    let (symbols, r) ← match lexeme.kind with
      | .reference name =>
        let (symbol, r) := r.reference name lexeme.place
        pure ([symbol], r)
      | .literal text => do
        let (id, r) ← r.literal text
        pure (if r.builder.isEpsilon id then [] else [.terminal id], r)
      | .pattern text flags =>
        let (symbol, r) := r.pattern text flags
        pure ([symbol], r)
      | .openParen => do
        let (alternatives, r) ← choice fuel (some lexeme) r
        if r.peek.kind = .closeParen then
          let (symbols, builder) := groupSymbols r.builder alternatives
          pure (symbols, { r.skip with builder })
        else .error (.unterminatedGroup lexeme.place)
      | .precedence _ => .error (misplaced lexeme)
      | .associativity _ => .error (misplaced lexeme)
      | .question => .error (.malformed (.nothingToModify lexeme.kind.describe) lexeme.place)
      | .plus => .error (.malformed (.nothingToModify lexeme.kind.describe) lexeme.place)
      | .star => .error (.malformed (.nothingToModify lexeme.kind.describe) lexeme.place)
      | .closeParen => .error (unexpected "a symbol" lexeme)
      | .define => .error (unexpected "a symbol" lexeme)
      | .pipe => .error (unexpected "a symbol" lexeme)
      | .stop => .error (unexpected "a symbol" lexeme)
    r.modifier symbols

end

/-- Reads the alternatives of a rule in EBNF. Between two lexemes at most four calls are nested. -/
def ebnfAlternatives (r : Reader) : Except GrammarError (List (List Symbol) × Reader) :=
  choice (4 * r.rest.length + 4) none r

/-! ## Rules -/

/-- Reads the alternatives of a rule. -/
def alternatives (form : GrammarForm) (r : Reader) :
    Except GrammarError (List (List Symbol) × Reader) :=
  match form with
  | .bnf => r.bnfAlternatives
  | .ebnf => r.ebnfAlternatives

/-- Takes in the name of the rule that follows. The first rule that no token class owns is the first
rule of the grammar. -/
def openRule (r : Reader) (name : String) : RuleId × Reader :=
  let kind := GrammarBuilder.kindOfName name
  let (id, builder) := r.builder.internRule name kind
  let builder := if kind = .normal ∧ builder.first = none then builder.setFirst id else builder
  (id, { r with builder })

/-- Reads one rule. -/
def rule (form : GrammarForm) (r : Reader) : Except GrammarError Reader :=
  let lexeme := r.peek
  match lexeme.kind with
  | .reference name =>
    if name = startRuleName then .error (.malformed (.reservedName name) lexeme.place)
    else
      let (id, r) := openRule r.skip name
      if r.peek.kind = .define then do
        let (alternatives, r) ← alternatives form r.skip
        .ok { r with builder := alternatives.foldl (fun b alt => b.addAlternative id alt) r.builder }
      else .error (unexpected "'::='" r.peek)
  | _ => .error (unexpected "a rule name" lexeme)

/-- Reads rules up to the end of the text; what follows an end is not read. The fuel counts lexemes; every
rule takes at least one. -/
def rules (form : GrammarForm) : Nat → Reader → Except GrammarError Reader
  | 0, _ => .error exhausted
  | fuel + 1, r => if r.peek.kind = .stop then .ok r else do rules form fuel (← rule form r)

end Reader

end Notation

namespace Grammar

/-- Reads grammar text into a builder and finishes the grammar. -/
def read (form : GrammarForm) (text : String) (builder : GrammarBuilder) :
    Except GrammarError Grammar := do
  let (lexemes, stop) ← Notation.lexemes text
  let r ← Notation.Reader.rules form (lexemes.length + 1) ⟨lexemes, stop, builder⟩
  r.builder.build

/-- Reads grammar text over token classes, given with name and pattern. -/
def ofText (form : GrammarForm) (text : String) (classes : List (String × String)) :
    Except GrammarError Grammar :=
  read form text (classes.foldl (fun b (name, pattern) => b.declareClass name pattern) .new)

end Grammar

end ParseForest
