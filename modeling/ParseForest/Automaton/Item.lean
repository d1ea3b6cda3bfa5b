import ParseForest.Grammar.Basic

/-!
# LR(0) items

An item says how far an alternative has been recognised. Items are ordered by rule, then
alternative, then dot, which gives sets of items a canonical form.
-/

namespace ParseForest

/-- The first `dot` symbols of an alternative have been recognised. -/
structure Item where
  rule : RuleId
  alt : Nat
  dot : Nat
deriving DecidableEq, Hashable

namespace Item

/-- By rule, then alternative, then dot. -/
def le (a b : Item) : Bool :=
  a.rule < b.rule || (a.rule == b.rule && (a.alt < b.alt || (a.alt == b.alt && a.dot ≤ b.dot)))

/-- The symbol after the dot. -/
def next? (g : Grammar) (i : Item) : Option Symbol := (g.alternative i.rule i.alt).symbols[i.dot]?

/-- The rule after the dot. -/
def nextRule? (g : Grammar) (i : Item) : Option RuleId := (i.next? g).bind Symbol.rule?

/-- The item with the dot one symbol further. -/
def advance (i : Item) : Item := { i with dot := i.dot + 1 }

/-- True when everything after the dot is nullable, so that the item may be reduced. -/
def isRightNullable (g : Grammar) (i : Item) : Bool :=
  (g.alternative i.rule i.alt).nullableFrom ≤ i.dot

/-- True when the dot is at the end. -/
def isComplete (g : Grammar) (i : Item) : Bool := i.dot == (g.alternative i.rule i.alt).length

/-- The item as grammar text with a dot. -/
def display (g : Grammar) (i : Item) : String := g.displayAlternative i.rule i.alt (some i.dot)

/-- The items of a rule with the dot at the start. -/
def initial (g : Grammar) (rule : RuleId) : List Item :=
  (List.range (g.rule rule).alternatives.size).map fun alt => ⟨rule, alt, 0⟩

end Item

end ParseForest
