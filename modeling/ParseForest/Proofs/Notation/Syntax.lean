import ParseForest.Notation.Reader
import ParseForest.Proofs.Grammar.Table
import Mathlib.Data.List.TakeWhile

/-!
# The syntax of EBNF

What is written in a grammar text, as trees (`Choice`, `Sequence`, `Primary`), apart from any builder: the
lexemes of a tree (`Choice.kinds`), the right-hand sides that a body stands for (`Choice.alternatives`), and
the synthetic rules that these mention (`Choice.synthetics`). Symbols go by their names here (`NamedSymbol`),
so nothing depends on the order in which a builder hands out numbers.
-/

namespace ParseForest

namespace Notation

/-- How grammar text shows symbols. -/
def display (symbols : List NamedSymbol) : String :=
  " ".intercalate (symbols.map NamedSymbol.display)

/-- What a synthetic rule is made for: symbols under a modifier, or a group with several
alternatives. -/
inductive Synthetic
  | list (symbols : List NamedSymbol)
  | optional (symbols : List NamedSymbol)
  | group (alternatives : List (List NamedSymbol))
deriving DecidableEq

namespace Synthetic

/-- The name of the rule. -/
def name : Synthetic → String
  | .list symbols => "[LIST " ++ display symbols ++ "]"
  | .optional symbols => "[OPT " ++ display symbols ++ "]"
  | .group alternatives => "[GROUP " ++ " | ".intercalate (alternatives.map display) ++ "]"

/-- The alternatives of the rule: `x | x [LIST x]`, `x | ""`, or those of the group. -/
def alternatives : Synthetic → List (List NamedSymbol)
  | .list symbols => [symbols, symbols ++ [.rule (list symbols).name]]
  | .optional symbols => [symbols, []]
  | .group alternatives => alternatives

end Synthetic

/-! ## Trees -/

/-- An annotation of a literal. -/
inductive Mark
  | precedence (level : Nat)
  | associativity (side : Associativity)

/-- The lexeme of an annotation. -/
def Mark.kind : Mark → LexemeKind
  | .precedence level => .precedence level
  | .associativity side => .associativity side

/-- What may follow an expression. -/
inductive Modifier
  | optional
  | plus
  | star

/-- The lexeme of a modifier. -/
def Modifier.kind : Modifier → LexemeKind
  | .optional => .question
  | .plus => .plus
  | .star => .star

mutual

/-- An expression to which a modifier may apply. -/
inductive Primary
  | reference (name : String)
  | literal (text : String) (marks : List Mark)
  | pattern (text flags : String)
  /-- Alternatives in parentheses -/
  | group (body : Choice)

/-- Expressions side by side, each with the modifier that follows it. -/
inductive Sequence
  | nil
  | cons (item : Primary) (modifier : Option Modifier) (rest : Sequence)

/-- One alternative or more. -/
inductive Choice
  | last (s : Sequence)
  | more (s : Sequence) (rest : Choice)

end

/-! ## Lexemes -/

mutual

/-- The lexemes of an expression. -/
def Primary.kinds : Primary → List LexemeKind
  | .reference name => [.reference name]
  | .literal text marks => .literal text :: marks.map Mark.kind
  | .pattern text flags => [.pattern text flags]
  | .group body => .openParen :: (body.kinds ++ [.closeParen])

/-- The lexemes of a sequence. -/
def Sequence.kinds : Sequence → List LexemeKind
  | .nil => []
  | .cons item modifier rest => item.kinds ++ modifier.toList.map Modifier.kind ++ rest.kinds

/-- The lexemes of alternatives. -/
def Choice.kinds : Choice → List LexemeKind
  | .last s => s.kinds
  | .more s rest => s.kinds ++ .pipe :: rest.kinds

end

/-- The lexemes of a rule. -/
def ruleKinds (rule : String × Choice) : List LexemeKind :=
  .reference rule.1 :: .define :: rule.2.kinds

mutual

theorem Primary.stop_notMem_kinds : ∀ p : Primary, .stop ∉ p.kinds
  | .reference name => by simp [Primary.kinds]
  | .literal text marks => by
    rintro (_ | ⟨_, h⟩)
    obtain ⟨mark, -, hmark⟩ := List.mem_map.1 h
    cases mark <;> cases hmark
  | .pattern text flags => by simp [Primary.kinds]
  | .group body => by simp [Primary.kinds, body.stop_notMem_kinds]

theorem Sequence.stop_notMem_kinds : ∀ s : Sequence, .stop ∉ s.kinds
  | .nil => List.not_mem_nil
  | .cons item modifier rest => by
    have hmodifier : .stop ∉ modifier.toList.map Modifier.kind := by
      rcases modifier with _ | _ | _ | _ <;> simp [Modifier.kind]
    simp only [Sequence.kinds, List.mem_append, not_or]
    exact ⟨⟨item.stop_notMem_kinds, hmodifier⟩, rest.stop_notMem_kinds⟩

theorem Choice.stop_notMem_kinds : ∀ c : Choice, .stop ∉ c.kinds
  | .last s => s.stop_notMem_kinds
  | .more s rest => by simp [Choice.kinds, s.stop_notMem_kinds, rest.stop_notMem_kinds]

end

/-- The end of a text belongs to no rule. -/
theorem stop_notMem_rules (rules : List (String × Choice)) : .stop ∉ rules.flatMap ruleKinds := by
  rintro h
  obtain ⟨rule, -, hrule⟩ := List.mem_flatMap.1 h
  rcases hrule with _ | ⟨_, _ | ⟨_, hbody⟩⟩
  exact rule.2.stop_notMem_kinds hbody

/-- The lexemes before the first end, all of them if none stands among them. -/
def beforeEnd (ls : List Lexeme) : List LexemeKind := (ls.map Lexeme.kind).takeWhile (· ≠ .stop)

/-- Nothing comes next but the end of the text. -/
inductive Ended : List LexemeKind → Prop
  | nil : Ended []
  | stop (rest) : Ended (.stop :: rest)

theorem beforeEnd_eq_map {ls : List Lexeme} (h : ∀ l ∈ ls, l.kind ≠ .stop) :
    beforeEnd ls = ls.map Lexeme.kind := by
  rw [beforeEnd, List.takeWhile_eq_self_iff]
  simpa using h

theorem exists_ended (ls : List Lexeme) : ∃ after, ls.map Lexeme.kind = beforeEnd ls ++ after ∧ Ended after := by
  refine ⟨(ls.map Lexeme.kind).dropWhile (· ≠ .stop), List.takeWhile_append_dropWhile.symm, ?_⟩
  cases h : (ls.map Lexeme.kind).dropWhile (· ≠ .stop) with
  | nil => exact .nil
  | cons kind after =>
    have hkind := List.head?_dropWhile_not (· ≠ .stop) (ls.map Lexeme.kind)
    rw [h] at hkind
    obtain rfl : kind = .stop := by simpa using hkind
    exact .stop after

theorem beforeEnd_eq_rules {ls : List Lexeme} {rules : List (String × Choice)} {after : List LexemeKind}
    (h : ls.map Lexeme.kind = rules.flatMap ruleKinds ++ after) (hafter : Ended after) :
    beforeEnd ls = rules.flatMap ruleKinds := by
  have hrules : ∀ kind ∈ rules.flatMap ruleKinds, decide (kind ≠ .stop) = true := fun kind hkind =>
    decide_eq_true fun he => stop_notMem_rules rules (he ▸ hkind)
  rw [beforeEnd, h, List.takeWhile_append_of_pos hrules]
  cases hafter with
  | nil => simp
  | stop rest => simp

/-- The rules that are written in a text, one after another. -/
def Written (text : String) (rules : List (String × Choice)) : Prop :=
  ∃ ls stop, lexemes text = .ok (ls, stop) ∧ ls.map Lexeme.kind = rules.flatMap ruleKinds

theorem written_iff {text : String} {rules : List (String × Choice)} : Written text rules ↔
    (lexemes text).toOption.map (fun p => p.1.map Lexeme.kind) = some (rules.flatMap ruleKinds) := by
  cases h : lexemes text with
  | error e => simp [Written, h, Except.toOption]
  | ok p => simp [Written, h, Except.toOption, Prod.ext_iff, eq_comm]

/-! ## Right-hand sides -/

/-- What symbols under a modifier stand for. -/
def modified : Option Modifier → List NamedSymbol → List NamedSymbol
  | none, symbols => symbols
  | some .optional, symbols => [.rule (Synthetic.optional symbols).name]
  | some .plus, symbols => [.rule (Synthetic.list symbols).name]
  | some .star, symbols => [.rule (Synthetic.optional [.rule (Synthetic.list symbols).name]).name]

/-- The synthetic rules for symbols under a modifier. -/
def modifierSynthetics : Option Modifier → List NamedSymbol → List Synthetic
  | none, _ => []
  | some .optional, symbols => [.optional symbols]
  | some .plus, symbols => [.list symbols]
  | some .star, symbols => [.list symbols, .optional [.rule (Synthetic.list symbols).name]]

/-- What a group stands for: its only alternative, or a rule for several. -/
def grouped : List (List NamedSymbol) → List NamedSymbol
  | [symbols] => symbols
  | alternatives => [.rule (Synthetic.group alternatives).name]

/-- The synthetic rule for a group with several alternatives. -/
def groupSynthetics : List (List NamedSymbol) → List Synthetic
  | [_] => []
  | alternatives => [.group alternatives]

mutual

/-- The symbols that an expression stands for. -/
def Primary.symbols : Primary → List NamedSymbol
  | .reference name => [.rule name]
  | .literal text _ => if text = "" then [] else [.terminal (.literal text)]
  | .pattern text flags => [.terminal (.pattern ⟨text, flags, none⟩)]
  | .group body => grouped body.alternatives

/-- The symbols that a sequence stands for. -/
def Sequence.symbols : Sequence → List NamedSymbol
  | .nil => []
  | .cons item modifier rest => modified modifier item.symbols ++ rest.symbols

/-- The right-hand sides that alternatives stand for. -/
def Choice.alternatives : Choice → List (List NamedSymbol)
  | .last s => [s.symbols]
  | .more s rest => s.symbols :: rest.alternatives

end

mutual

/-- The expressions within are well-formed. -/
def Primary.Proper : Primary → Prop
  | .reference _ => True
  | .literal _ _ => True
  | .pattern _ _ => True
  | .group body => body.Proper

/-- No modifier applies to an expression that stands for no symbols. -/
def Sequence.Proper : Sequence → Prop
  | .nil => True
  | .cons item modifier rest => item.Proper ∧ (item.symbols = [] → modifier = none) ∧ rest.Proper

/-- No alternative is left out. -/
def Choice.Proper : Choice → Prop
  | .last s => s ≠ .nil ∧ s.Proper
  | .more s rest => (s ≠ .nil ∧ s.Proper) ∧ rest.Proper

end

theorem Choice.alternatives_ne_nil (c : Choice) : c.alternatives ≠ [] := by
  cases c <;> simp [alternatives]

mutual

/-- The synthetic rules of an expression, in the order in which they are called for. -/
def Primary.synthetics : Primary → List Synthetic
  | .reference _ => []
  | .literal _ _ => []
  | .pattern _ _ => []
  | .group body => body.synthetics ++ groupSynthetics body.alternatives

/-- The synthetic rules of a sequence. -/
def Sequence.synthetics : Sequence → List Synthetic
  | .nil => []
  | .cons item modifier rest =>
    item.synthetics ++ modifierSynthetics modifier item.symbols ++ rest.synthetics

/-- The synthetic rules of alternatives. -/
def Choice.synthetics : Choice → List Synthetic
  | .last s => s.synthetics
  | .more s rest => s.synthetics ++ rest.synthetics

end

/-- Every synthetic rule that the rules of a text call for, once for each expression that does. -/
def occurrences (rules : List (String × Choice)) : List Synthetic :=
  rules.flatMap fun rule => rule.2.synthetics

end Notation

end ParseForest
