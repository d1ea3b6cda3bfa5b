import ParseForest.Grammar.Rule
import ParseForest.Reachable

/-!
# Nullable symbols

A rule is nullable when it derives the empty string: when some alternative of it has nullable
symbols only. Terminals never are. The set of nullable rules is reached from the empty set by sweeps
over the rules, each of which adds the rules that have become nullable, until a sweep adds none.
-/

namespace ParseForest

/-- Marks every unmarked index below `marks.size` that `holds` under the marks made so far. -/
def sweep (holds : Array Bool → Nat → Bool) (marks : Array Bool) : Array Bool :=
  (List.range marks.size).foldl
    (fun marks i => if marks.getD i false then marks
      else if holds marks i then marks.setIfInBounds i true else marks)
    marks

/-- Sweeps until nothing changes, or the fuel is used up. -/
def sweepAll (holds : Array Bool → Nat → Bool) : Nat → Array Bool → Array Bool
  | 0, marks => marks
  | fuel + 1, marks =>
    let next := sweep holds marks
    if next == marks then marks else sweepAll holds fuel next

/-- The least set of indices below `n` that contains every index that `holds` of it, for a condition
that stays true when the set grows. Every sweep but the last adds an index, so `n + 1` sweeps are
enough. -/
def leastMarks (n : Nat) (holds : Array Bool → Nat → Bool) : Array Bool :=
  sweepAll holds (n + 1) (Array.replicate n false)

/-- Whether a symbol is nullable, given the nullable rules. -/
def symbolNullable (nullable : Array Bool) : Symbol → Bool
  | .rule id => nullable.getD id false
  | .terminal _ => false

/-- Whether some alternative of the rule consists of nullable symbols. -/
def hasNullableAlternative (rules : Array Rule) (nullable : Array Bool) (i : RuleId) : Bool :=
  (rules.getD i default).alternatives.any fun alt => alt.symbols.all (symbolNullable nullable)

/-- The nullable ones among the rules. -/
def nullableRules (rules : Array Rule) : Array Bool :=
  leastMarks rules.size (hasNullableAlternative rules)

/-- The least index from which every symbol is nullable. -/
def nullableSuffixStart (nullable : Array Bool) : List Symbol → Nat
  | [] => 0
  | s :: rest =>
    let k := nullableSuffixStart nullable rest
    if k = 0 ∧ symbolNullable nullable s then 0 else k + 1

/-- The rules that a right-hand side of the rule mentions. -/
def mentionedRules (rules : Array Rule) (id : RuleId) : List RuleId :=
  (rules.getD id default).alternatives.toList.flatMap fun alt => alt.symbols.filterMap Symbol.rule?

/-- For each rule, whether it can be reached from `start` through right-hand sides. -/
def reachableRules (rules : Array Rule) (start : RuleId) : Array Bool :=
  reachableFrom rules.size (mentionedRules rules) start

end ParseForest
