import ParseForest.Grammar.Basic
import ParseForest.Grammar.Error
import ParseForest.Grammar.Nullable

/-!
# Putting grammars together

A builder interns rules by name and terminals by what they match, so that a rule may be mentioned
before it has alternatives, and giving alternatives to a rule twice joins them. `build` adds the
rules of token classes and the rule `#S`, checks that every rule has an alternative, and fills in
what is known about each alternative.
-/

namespace ParseForest

/-- A rule under construction, with the place where grammar text first mentions it. -/
structure RuleDraft where
  rule : Rule
  mentioned : Option Location

instance : Inhabited RuleDraft := ⟨⟨default, none⟩⟩

/-- A grammar under construction. -/
structure GrammarBuilder where
  drafts : Array RuleDraft
  terminals : Array Terminal
  /-- The associativities that annotations have given, latest first -/
  associativities : List (TerminalId × Associativity)
  /-- Token classes, with name and pattern, in the order of their declaration -/
  tokenClasses : Array (String × String)
  /-- The first rule of the author -/
  first : Option RuleId

namespace GrammarBuilder

/-- Number of the rule `#S`. -/
def startId : RuleId := 0

/-- Number of the rule of the end of input. -/
def eofRuleId : RuleId := 1

/-- The builder that has only the rules `#S` and `Token-EOF`. -/
def new : GrammarBuilder where
  drafts := #[⟨.named startRuleName .start, none⟩, ⟨.named (tokenRuleName eofClass) .tokenClass, none⟩]
  terminals := #[]
  associativities := []
  tokenClasses := #[]
  first := none

variable (b : GrammarBuilder)

/-- Declares a token class, unless the name is taken. -/
def declareClass (name pattern : String) : GrammarBuilder :=
  if b.tokenClasses.any (·.1 == name) then b
  else { b with tokenClasses := b.tokenClasses.push (name, pattern) }

/-- Whether a token class is declared; the end of input always is. -/
def hasClass (name : String) : Bool := name == eofClass || b.tokenClasses.any (·.1 == name)

/-! ## Rules -/

/-- The number of the rule of a name, which is created without alternatives if there is none. -/
def internRule (name : String) (kind : RuleKind) : RuleId × GrammarBuilder :=
  match b.drafts.findIdx? (·.rule.name == name) with
  | some id => (id, b)
  | none => (b.drafts.size, { b with drafts := b.drafts.push ⟨.named name kind, none⟩ })

/-- The kind of a rule that grammar text names. -/
def kindOfName (name : String) : RuleKind :=
  if tokenRulePrefix.toList.isPrefixOf name.toList then .tokenClass else .normal

/-- The number of a rule that grammar text mentions; the first mention is remembered. -/
def mention (name : String) (place : Location) : RuleId × GrammarBuilder :=
  let (id, b) := b.internRule name (kindOfName name)
  (id, { b with
    drafts := b.drafts.modify id fun d => { d with mentioned := d.mentioned.or (some place) } })

/-- Whether the rule has an alternative. -/
def isDefined (id : RuleId) : Bool :=
  match b.drafts[id]? with
  | some d => !d.rule.alternatives.isEmpty
  | none => false

/-- Name of a rule; empty for a number without a rule. -/
def ruleName (id : RuleId) : String := (b.drafts.getD id default).rule.name

/-- True of the empty literal. -/
def isEpsilon (id : TerminalId) : Bool :=
  match b.terminals[id]? with
  | some t => t.isEpsilon
  | none => false

/-- True of the terminals of a right-hand side that stand for nothing. -/
def isEpsilonSymbol : Symbol → Bool
  | .terminal id => b.isEpsilon id
  | .rule _ => false

/-- Appends an alternative to a rule. Empty literals are dropped from it, and an alternative that
the rule has already is not repeated. The first normal rule that is given an alternative is the
first rule, unless another has been chosen. -/
def addAlternative (id : RuleId) (symbols : List Symbol) : GrammarBuilder :=
  let symbols := symbols.filter (!b.isEpsilonSymbol ·)
  match b.drafts[id]? with
  | none => b
  | some draft =>
    let b := if draft.rule.kind = .normal ∧ b.first = none then { b with first := some id } else b
    if draft.rule.alternatives.any (·.symbols == symbols) then b
    else
      let rule := draft.rule
      let alternatives := rule.alternatives.push (.ofSymbols symbols)
      { b with drafts := b.drafts.setIfInBounds id { draft with rule := { rule with alternatives } } }

/-- Chooses the first rule. -/
def setFirst (id : RuleId) : GrammarBuilder := { b with first := some id }

/-! ## Terminals -/

/-- The number of a terminal, which is created if there is none that is the same. -/
def internTerminal (t : Terminal) : TerminalId × GrammarBuilder :=
  match b.terminals.findIdx? (·.same t) with
  | some id => (id, b)
  | none => (b.terminals.size, { b with terminals := b.terminals.push t })

/-- The number of a literal. -/
def literal (text : String) : TerminalId × GrammarBuilder := b.internTerminal (.ofText text)

/-- The number of a pattern with flags. -/
def pattern (text flags : String) : TerminalId × GrammarBuilder :=
  b.internTerminal (.pattern ⟨text, flags, none⟩)

/-- A symbol as grammar text shows it; the names of synthetic rules are made of it. -/
def describe : Symbol → String
  | .rule id => "<" ++ b.ruleName id ++ ">"
  | .terminal id =>
    match b.terminals[id]? with
    | some t => t.display
    | none => ""

/-- The terminal with another literal in its place. -/
def setLiteral (id : TerminalId) (l : Literal) : GrammarBuilder :=
  { b with terminals := b.terminals.setIfInBounds id (.literal l) }

/-- Gives a literal a precedence or an associativity or both, in this order. A literal keeps the
precedence and the associativity that it has been given before; what has been set when a conflict
shows stays set. -/
def annotate (id : TerminalId) (precedence : Option Nat) (associativity : Option Associativity)
    (place : Location) : Except GrammarError Unit × GrammarBuilder :=
  match b.terminals[id]? with
  | some (.literal l) =>
    let conflict : GrammarError := .conflictingPrecedence l.text place
    match precedence, l.precedence with
    | some p, some q =>
      if p = q then annotateAssociativity b id l associativity conflict else (.error conflict, b)
    | some p, none =>
      let l := { l with precedence := some p }
      annotateAssociativity (b.setLiteral id l) id l associativity conflict
    | none, _ => annotateAssociativity b id l associativity conflict
  | _ => (.error (.misplacedMark "operator annotation" place), b)
where
  /-- Gives a literal an associativity, if one is given. -/
  annotateAssociativity (b : GrammarBuilder) (id : TerminalId) (l : Literal)
      (associativity : Option Associativity) (conflict : GrammarError) :
      Except GrammarError Unit × GrammarBuilder :=
    match associativity with
    | none => (.ok (), b)
    | some a =>
      match b.associativities.lookup id with
      | some given =>
        if given = a then (.ok (), b.setLiteral id { l with associativity := a })
        else (.error conflict, b)
      | none =>
        (.ok (), { b.setLiteral id { l with associativity := a } with
          associativities := (id, a) :: b.associativities })

/-! ## Finishing -/

/-- The first operator among the symbols, which are counted from `index`. -/
def operatorAmong (terminals : Array Terminal) : Nat → List Symbol → Option Operator
  | _, [] => none
  | index, s :: rest =>
    match s with
    | .rule _ => operatorAmong terminals (index + 1) rest
    | .terminal id =>
      match (terminals[id]?).bind Terminal.precedence? with
      | some (precedence, associativity) => some ⟨index, precedence, associativity⟩
      | none => operatorAmong terminals (index + 1) rest

/-- The alternative with its nullable tail and its operator filled in. -/
def finishAlternative (nullable : Array Bool) (terminals : Array Terminal) (a : Alternative) :
    Alternative :=
  ⟨a.symbols, nullableSuffixStart nullable a.symbols, operatorAmong terminals 0 a.symbols⟩

/-- The rules with all that is known about them filled in. -/
def finishRules (terminals : Array Terminal) (rules : Array Rule) : Array Rule :=
  let nullable := nullableRules rules
  rules.mapIdx fun i rule =>
    { rule with
      nullable := nullable.getD i false
      alternatives := rule.alternatives.map (finishAlternative nullable terminals) }

/-- Replaces the alternatives of a rule by one. -/
def setOnly (id : RuleId) (symbols : List Symbol) : GrammarBuilder :=
  { b with drafts := b.drafts.modify id fun d =>
    { d with rule := { d.rule with alternatives := #[.ofSymbols symbols] } } }

/-- Adds the rule of a token class, unless the rule has alternatives already. -/
def spliceClass (className pattern : String) : GrammarBuilder :=
  let (id, b) := b.internRule (tokenRuleName className) .tokenClass
  if b.isDefined id then b
  else
    let (t, b) := b.internTerminal (.ofClass className pattern)
    b.addAlternative id [.terminal t]

/-- The builder with the end of input, the token classes and `#S` in place, and the number of the
terminal of the end of input. -/
def complete (first : RuleId) : TerminalId × GrammarBuilder :=
  let (eof, b) := b.internTerminal (.ofClass eofClass "")
  let b := b.setOnly eofRuleId [.terminal eof]
  let b := b.tokenClasses.foldl (fun b (name, pattern) => b.spliceClass name pattern)
    { b with tokenClasses := #[] }
  (eof, b.setOnly startId [.rule first, .rule eofRuleId])

/-- What is wrong with a rule that has no alternative. -/
def RuleDraft.fault? (d : RuleDraft) : Option GrammarError :=
  if d.rule.alternatives.isEmpty then
    some <| match d.mentioned with
      | some place => .unknownRule d.rule.name place
      | none => .noAlternatives d.rule.name
  else none

/-- Finishes the grammar. -/
def build : Except GrammarError Grammar :=
  match b.first with
  | none => .error .emptyGrammar
  | some first =>
    let (eof, b) := b.complete first
    match b.drafts.findSome? RuleDraft.fault? with
    | some fault => .error fault
    | none => .ok {
        rules := finishRules b.terminals (b.drafts.map (·.rule))
        terminals := b.terminals
        start := startId
        first := first
        eofRule := eofRuleId
        eof := eof }

end GrammarBuilder

end ParseForest
