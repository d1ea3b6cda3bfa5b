import ParseForest.Grammar.Basic

/-!
# The rule graph

Which rule mentions which rules and terminals, in DOT format: an ellipse per rule, dashed for
synthetic ones, and a box per terminal that is mentioned. `#S` and the rule of the end of input are
left out.
-/

namespace ParseForest

/-- The sorted list without repetitions. -/
def sortedSymbols (symbols : List Symbol) : List Symbol := (symbols.mergeSort Symbol.le).eraseDups

/-- The symbols that a rule mentions, each once and in order. -/
def Rule.mentioned (r : Rule) : List Symbol :=
  sortedSymbols (r.alternatives.toList.flatMap Alternative.symbols)

namespace Grammar

variable (g : Grammar)

/-- The rules of the graph, with their numbers. -/
def drawnRules : List (Rule × Nat) :=
  g.rules.toList.zipIdx.filter fun (_, id) => id != g.start && id != g.eofRule

/-- The line of a rule. -/
def dotRule (r : Rule) (id : Nat) : String :=
  let style := match r.kind with
    | .normal => ""
    | .tokenClass => ", style=filled, fillcolor=lightblue"
    | _ => ", style=dashed"
  "  r" ++ toString id ++ " [label=" ++ Quoted.encode r.name ++ style ++ "];\n"

/-- The line of an edge. -/
def dotEdge (source : Nat) : Symbol → String
  | .rule id => "  r" ++ toString source ++ " -> r" ++ toString id ++ ";\n"
  | .terminal id => "  r" ++ toString source ++ " -> t" ++ toString id ++ " [style=dashed];\n"

/-- The line of a terminal. -/
def dotTerminal (t : Terminal) (id : Nat) : String :=
  "  t" ++ toString id ++ " [label=" ++ Quoted.encode t.display ++ ", shape=box];\n"

/-- The graph. -/
def toDot : String :=
  let edges := g.drawnRules.map fun (r, id) => (id, r.mentioned)
  let used := edges.flatMap fun (_, symbols) => symbols.filterMap Symbol.terminal?
  "digraph Grammar \x7b\n  rankdir=LR;\n  node [shape=ellipse];\n\n"
    ++ String.join (g.drawnRules.map fun (r, id) => dotRule r id)
    ++ String.join (edges.map fun (id, symbols) => String.join (symbols.map (dotEdge id)))
    ++ "\n"
    ++ String.join (g.terminals.toList.zipIdx.filterMap fun (t, id) =>
        if used.contains id then some (dotTerminal t id) else none)
    ++ "\x7d\n"

end Grammar

end ParseForest
