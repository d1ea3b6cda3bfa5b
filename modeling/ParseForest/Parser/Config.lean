/-!
# Parser settings
-/

namespace ParseForest

/-- What a parser does beside recognising. -/
structure ParserConfig where
  /-- Run the passes after a successful parse -/
  transforms : Bool
  /-- Apply operator precedence and associativity -/
  precedence : Bool
  /-- Prefer the longest match of nullable lists and optional rules -/
  greedy : Bool
  /-- The most nodes the stack may have -/
  maxStackNodes : Nat
deriving DecidableEq

/-- Everything on, and a million stack nodes. -/
def ParserConfig.standard : ParserConfig := ⟨true, true, true, 1000000⟩

end ParseForest
