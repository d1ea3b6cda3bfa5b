import ParseForest.Forest.Node
import ParseForest.Grammar.Basic

/-!
# Empty derivations

Everything that derives the empty string is put together once per grammar, as the beginning of the
arena of every forest: a symbol node without span per nullable rule, with a packed child per
nullable alternative, and a nulled node per alternative and place from which all its symbols are
nullable.
-/

namespace ParseForest

/-- The fragments of a grammar. -/
structure EpsilonForest where
  nodes : Arena
  /-- The fragment of each nullable rule -/
  symbols : Array (Option NodeId)
  /-- The fragments of nullable tails, by rule and alternative: where the tail begins, and
  its node -/
  tails : Array (Array (List (Nat × NodeId)))
deriving DecidableEq

namespace EpsilonForest

/-- Adds the symbol nodes of the nullable rules. -/
def symbolNodes : List Rule → RuleId → Arena → List (Option NodeId) × Arena
  | [], _, nodes => ([], nodes)
  | r :: rules, id, nodes =>
    let (own, nodes) := if r.nullable
      then (some nodes.size, nodes.push (.ofKind (.symbol id) none)) else (none, nodes)
    let (ids, nodes) := symbolNodes rules (id + 1) nodes
    (own :: ids, nodes)

/-- The fragment of a symbol. -/
def fragment (symbols : Array (Option NodeId)) (s : Symbol) : NodeId :=
  match s with
  | .rule id => (symbols.getD id none).getD epsilonId
  | .terminal _ => epsilonId

/-- Adds the packed node of a nullable alternative under the symbol node of its rule. -/
def addPacked (symbols : Array (Option NodeId)) (rule : RuleId) (alt : Nat) (a : Alternative)
    (nodes : Arena) : Arena :=
  match symbols.getD rule none with
  | some owner =>
    if a.isNullable then
      let children := if a.isEmpty then [epsilonId] else a.symbols.map (fragment symbols)
      let packed : Node := ⟨.packed rule alt, none, children.toArray, #[]⟩
      Arena.addChild (nodes.push packed) owner nodes.size
    else nodes
  | none => nodes

/-- Adds the nodes of the nullable tails of an alternative that begin at the given places. -/
def addTails (symbols : Array (Option NodeId)) (rule : RuleId) (alt : Nat) (a : Alternative) :
    List Nat → Arena → List (Nat × NodeId) × Arena
  | [], nodes => ([], nodes)
  | dot :: dots, nodes =>
    let children := (a.symbols.drop dot).map (fragment symbols)
    let tail : Node := ⟨.nulled rule alt dot, none, children.toArray, #[]⟩
    let (tails, after) := addTails symbols rule alt a dots (nodes.push tail)
    ((dot, nodes.size) :: tails, after)

/-- The places at which a nullable tail begins, the start and the end of the alternative
left out. -/
def tailStarts (a : Alternative) : List Nat :=
  (List.range a.length).drop (max a.nullableFrom 1)

/-- Adds the fragments of an alternative. -/
def addAlternative (symbols : Array (Option NodeId)) (rule : RuleId) (alt : Nat) (a : Alternative)
    (nodes : Arena) : List (Nat × NodeId) × Arena :=
  addTails symbols rule alt a (tailStarts a) (addPacked symbols rule alt a nodes)

/-- Adds the fragments of the alternatives of a rule. -/
def addRule (symbols : Array (Option NodeId)) (rule : RuleId) :
    List Alternative → Nat → Arena → List (List (Nat × NodeId)) × Arena
  | [], _, nodes => ([], nodes)
  | a :: alternatives, alt, nodes =>
    let (tails, nodes) := addAlternative symbols rule alt a nodes
    let (more, nodes) := addRule symbols rule alternatives (alt + 1) nodes
    (tails :: more, nodes)

/-- Adds the fragments of the alternatives of all rules. -/
def addRules (symbols : Array (Option NodeId)) :
    List Rule → RuleId → Arena → List (Array (List (Nat × NodeId))) × Arena
  | [], _, nodes => ([], nodes)
  | r :: rules, id, nodes =>
    let (tails, nodes) := addRule symbols id r.alternatives.toList 0 nodes
    let (more, nodes) := addRules symbols rules (id + 1) nodes
    (tails.toArray :: more, nodes)

/-- The fragments of a grammar. -/
def ofGrammar (g : Grammar) : EpsilonForest :=
  let (ids, nodes) := symbolNodes g.rules.toList 0 #[.ofKind .epsilon none]
  let symbols := ids.toArray
  let (tails, nodes) := addRules symbols g.rules.toList 0 nodes
  ⟨nodes, symbols, tails.toArray⟩

variable (e : EpsilonForest)

/-- The fragment that derives a rule from nothing. -/
def symbol? (rule : RuleId) : Option NodeId := e.symbols.getD rule none

/-- The fragment of the symbols of an alternative from `dot` on. -/
def tail? (rule : RuleId) (alt dot : Nat) : Option NodeId :=
  ((e.tails.getD rule #[]).getD alt []).lookup dot

end EpsilonForest

end ParseForest
