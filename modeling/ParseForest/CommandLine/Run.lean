import ParseForest.CommandLine.Request
import ParseForest.Forest.Basic
import ParseForest.Grammar.Dot
import ParseForest.Lexer.Json
import ParseForest.Parser.Basic
import ParseForest.Snapshot.Basic

/-!
# Running requests

A request is run on what has been read: the contents of its files and the standard input. The
response says what is written where, and the exit code: 0 for success, 1 if the request fails, 2 if
the arguments are refused.
-/

namespace ParseForest.CommandLine

/-- What can be read. -/
structure Surroundings where
  /-- The content of a file, if there is one that can be read -/
  file? : String → Option Bytes
  standardInput : Bytes

/-- What is written. -/
structure Output where
  stdout : String
  stderr : String
  /-- A file and its new content -/
  file : Option (String × Bytes)

/-- The result of a command line. -/
structure Response where
  code : Nat
  output : Output

/-- Why a request fails. -/
inductive RunError
  | unreadable (path : String)
  | notText
  | lexerDescription (path : String)
  | grammar (error : GrammarError)
  | snapshot (error : SnapshotError)
  | parse (error : ParseError)
  | unwritable (path : String)

/-- The words of an error. -/
def RunError.message : RunError → String
  | .unreadable path => "cannot read " ++ path
  | .notText => "the standard input is not text"
  | .lexerDescription path => "invalid lexer description " ++ path
  | .grammar e => e.message
  | .snapshot e => e.message
  | .parse e => e.message
  | .unwritable path => "cannot write " ++ path

/-- The words of a refusal. -/
def UsageError.message : UsageError → String
  | .noCommand => "a command is required"
  | .unknownCommand name => "unrecognized subcommand '" ++ name ++ "'"
  | .unexpectedArgument argument => "unexpected argument '" ++ argument ++ "' found"
  | .missingValue option => "a value is required for '--" ++ option ++ "'"
  | .unexpectedValue option value =>
    "unexpected value '" ++ value ++ "' for '--" ++ option ++ "' found; no more were expected"
  | .invalidValue option value => "invalid value '" ++ value ++ "' for '--" ++ option ++ "'"
  | .repeated option => "the argument '--" ++ option ++ "' cannot be used multiple times"
  | .conflict option other =>
    "the argument '--" ++ option ++ "' cannot be used with '--" ++ other ++ "'"
  | .missingOptions options =>
    "required arguments were not provided: " ++ ", ".intercalate (options.map ("--" ++ ·))

/-- The text that bytes in UTF-8 stand for. -/
def decodeText? (bytes : Bytes) : Option String := String.fromUTF8? ⟨bytes.toArray⟩

/-- Output to the screen alone. -/
def Output.ofText (stdout : String) : Output := ⟨stdout, "", none⟩

namespace Surroundings

variable (s : Surroundings)

/-- The text of a file. -/
def readText (path : String) : Except RunError String :=
  match (s.file? path).bind decodeText? with
  | some text => .ok text
  | none => .error (.unreadable path)

/-- The description of a lexer; without a file it has no classes. -/
def readLexer : Option String → Except RunError LexerDescription
  | none => .ok .empty
  | some path => do
    match LexerDescription.ofJsonText? (← s.readText path) with
    | some d => .ok d
    | none => .error (.lexerDescription path)

/-- Compiles grammar text. -/
def compileFiles (files : GrammarFiles) : Except RunError CompiledGrammar := do
  let text ← s.readText files.grammar
  let lexer ← s.readLexer files.lexer
  let form := files.form.getD (.ofPath files.grammar)
  (CompiledGrammar.ofText form text lexer).mapError .grammar

/-- The compiled grammar of a source. -/
def load : GrammarSource → Except RunError CompiledGrammar
  | .text files => s.compileFiles files
  | .snapshot path =>
    match s.file? path with
    | some bytes => (CompiledGrammar.ofBytes bytes).mapError .snapshot
    | none => .error (.unreadable path)

/-- The text to be parsed. -/
def readSource : TextSource → Except RunError String
  | .file path => s.readText path
  | .argument text => .ok text
  | .standardInput =>
    match decodeText? s.standardInput with
    | some text => .ok text
    | none => .error .notText

end Surroundings

/-- The trees as lines; on the other channel, how many are left out. -/
def showSexprs (f : Forest) (maxTrees : Nat) : Output where
  stdout := String.join ((f.firstTrees maxTrees).map fun t => t.toSexpr ++ "\n")
  stderr :=
    if maxTrees < f.treeCount then "... " ++ toString (f.treeCount - maxTrees) ++ " more trees\n" else ""
  file := none

/-- The forest in JSON. -/
def showJson (f : Forest) (maxTrees : Nat) : Output :=
  let json : Json := .object [("ambiguous", .bool f.isAmbiguous), ("tree_count", .nat f.treeCount),
    ("trees", .array ((f.firstTrees maxTrees).map Tree.toJson))]
  .ofText (json.pretty ++ "\n")

/-- A forest in a format. -/
def showForest (f : Forest) (maxTrees : Nat) : OutputFormat → Output
  | .sexpr => showSexprs f maxTrees
  | .json => showJson f maxTrees
  | .dot => .ofText f.toDot

/-- The sizes of a compiled grammar. -/
def showCounts (c : CompiledGrammar) : String :=
  let states := c.automaton.states.toList
  let actions := states.foldl
    (fun n s => n + s.shifts.length + s.gotos.length + s.reductions.length) 0
  "rules:          " ++ toString c.grammar.rules.size ++ "\n"
    ++ "terminals:      " ++ toString c.grammar.terminals.size ++ "\n"
    ++ "states:         " ++ toString states.length ++ "\n"
    ++ "actions:        " ++ toString actions ++ "\n"
    ++ "conflicts:      " ++ toString c.conflicts ++ "\n"
    ++ "epsilon nodes:  " ++ toString c.epsilon.nodes.size ++ "\n"
    ++ "lexer classes:  " ++ toString c.lexer.classes.size ++ "\n"

/-- A view of a compiled grammar. -/
def showGrammar (c : CompiledGrammar) : InspectView → String
  | .counts => showCounts c
  | .states => showCounts c ++ "\n" ++ c.automaton.describe c.grammar ++ "\n"
  | .graph => c.grammar.toDot

/-- Runs a request. -/
def Request.run (s : Surroundings) : Request → Except RunError Output
  | .compile files output => do
    let c ← s.compileFiles files
    .ok ⟨"Wrote " ++ files.grammar ++ " (" ++ toString c.automaton.states.size ++ " states) to "
      ++ output ++ "\n", "", some (output, c.toBytes)⟩
  | .parse source text format maxTrees raw => do
    let c ← s.load source
    let text ← s.readSource text
    let config := { ParserConfig.standard with transforms := !raw }
    let f ← ((Parser.plain c config).parse text ()).1.mapError .parse
    .ok (showForest f maxTrees format)
  | .inspect source view => do
    let c ← s.load source
    .ok (.ofText (showGrammar c view))

/-- The response to a request that fails. -/
def Response.failed (e : RunError) : Response := ⟨1, "", "Error: " ++ e.message ++ "\n", none⟩

/-- The response to a command line. -/
def Invocation.respond (s : Surroundings) : Invocation → Response
  | .run request =>
    match request.run s with
    | .ok output => ⟨0, output⟩
    | .error e => .failed e
  | .display text => ⟨0, .ofText text⟩
  | .refused e => ⟨2, "", "error: " ++ e.message ++ "\n", none⟩

end ParseForest.CommandLine
