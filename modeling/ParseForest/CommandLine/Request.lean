import ParseForest.CommandLine.Arguments
import ParseForest.CommandLine.Help
import ParseForest.Notation.FileName

/-!
# Requests

What a command line asks for, once its arguments are in order: one of the three commands, a text to
be shown, or nothing because the arguments are refused.
-/

namespace ParseForest.CommandLine

/-- Grammar text and what it is read with. -/
structure GrammarFiles where
  grammar : String
  lexer : Option String
  /-- Told by the name of the grammar file if it is not given -/
  form : Option GrammarForm
deriving DecidableEq

/-- Where a compiled grammar comes from. -/
inductive GrammarSource
  | snapshot (path : String)
  | text (files : GrammarFiles)
deriving DecidableEq

/-- Where the text to be parsed comes from. -/
inductive TextSource
  | file (path : String)
  | argument (text : String)
  | standardInput
deriving DecidableEq

/-- How a forest is shown. -/
inductive OutputFormat
  | sexpr
  | json
  | dot
deriving DecidableEq

/-- What is shown of a grammar. -/
inductive InspectView
  | counts
  | states
  | graph
deriving DecidableEq

/-- A command with all it needs to know. -/
inductive Request
  | compile (files : GrammarFiles) (output : String)
  | parse (source : GrammarSource) (text : TextSource) (format : OutputFormat) (maxTrees : Nat)
    (raw : Bool)
  | inspect (source : GrammarSource) (view : InspectView)
deriving DecidableEq

/-- What a command line asks for. -/
inductive Invocation
  | run (request : Request)
  | display (text : String)
  | refused (error : UsageError)
deriving DecidableEq

/-! ## Reading requests -/

/-- Pairs of options that exclude each other. -/
def conflicts : List (String × String) :=
  [("blob", "grammar"), ("blob", "lexer"), ("blob", "notation"), ("input", "text"), ("dot", "states")]

/-- Refuses options that exclude each other. -/
def checkConflicts (given : Given) : Except Stop Unit :=
  match conflicts.find? fun (a, b) => (given.lookup a).isSome && (given.lookup b).isSome with
  | some (a, b) => refuse (.conflict a b)
  | none => .ok ()

/-- Refuses a command without the options that it must have. -/
def checkRequired (c : Command) (given : Given) : Except Stop Unit :=
  match c.required.filter fun o => (given.lookup o).isNone with
  | [] => .ok ()
  | missing => refuse (.missingOptions missing)

/-- The form that was given. -/
def givenForm (given : Given) : Option GrammarForm :=
  match given.lookup "notation" with
  | some "bnf" => some .bnf
  | some _ => some .ebnf
  | none => none

/-- The grammar files, if a grammar was given. -/
def givenFiles (given : Given) : Except Stop GrammarFiles :=
  match given.lookup "grammar" with
  | some grammar => .ok ⟨grammar, given.lookup "lexer", givenForm given⟩
  | none => refuse (.missingOptions ["grammar"])

/-- The source of the grammar: a snapshot or text. -/
def givenSource (given : Given) : Except Stop GrammarSource :=
  match given.lookup "blob", given.lookup "grammar" with
  | some path, _ => .ok (.snapshot path)
  | none, some grammar => .ok (.text ⟨grammar, given.lookup "lexer", givenForm given⟩)
  | none, none => refuse (.missingOptions ["blob"])

/-- The source of the text: a file, an argument or else the standard input. -/
def givenText (given : Given) : TextSource :=
  match given.lookup "input", given.lookup "text" with
  | some path, _ => .file path
  | none, some text => .argument text
  | none, none => .standardInput

/-- The format. -/
def givenFormat (given : Given) : OutputFormat :=
  match given.lookup "format" with
  | some "json" => .json
  | some "dot" => .dot
  | _ => .sexpr

/-- The view. -/
def givenView (given : Given) : InspectView :=
  if (given.lookup "dot").isSome then .graph
  else if (given.lookup "states").isSome then .states
  else .counts

/-- The request of the command that writes a snapshot. -/
def readCompile (given : Given) : Except Stop Request := do
  let files ← givenFiles given
  match given.lookup "output" with
  | some output => .ok (.compile files output)
  | none => refuse (.missingOptions ["output"])

/-- The request of the command that shows trees. -/
def readParse (given : Given) : Except Stop Request := do
  let source ← givenSource given
  let maxTrees := ((given.lookup "max-trees").bind number?).getD 16
  .ok (.parse source (givenText given) (givenFormat given) maxTrees (given.lookup "raw").isSome)

/-- The request of the command that shows a grammar. -/
def readInspect (given : Given) : Except Stop Request := do
  .ok (.inspect (← givenSource given) (givenView given))

/-- The request of a command with its arguments. -/
def readRequest (c : Command) (arguments : List String) : Except Stop Request := do
  let given ← readOptions c.options arguments
  checkConflicts given
  checkRequired c given
  if c.name = "compile" then readCompile given
  else if c.name = "parse" then readParse given
  else readInspect given

/-- What to do about a stop of a command, or of the program if there is none. -/
def onStop (c : Option Command) : Stop → Invocation
  | .help long => .display (match c with
    | some c => c.help long
    | none => programHelp)
  | .version => .display versionText
  | .refused e => .refused e

/-- The help that is asked for by command. -/
def readHelp : List String → Invocation
  | [] => .display programHelp
  | [name] =>
    match command? name with
    | some c => .display (c.help true)
    | none => if name = helpCommand.name then .display helpHelp else .refused (.unknownCommand name)
  | _ :: name :: _ => .refused (.unknownCommand name)

/-- Reads the arguments from the program's own options on. -/
def readFrom (r : Reading) : List String → Invocation
  | [] => .refused .noCommand
  | argument :: rest =>
    if r.closed then .refused (.unexpectedArgument argument)
    else if argument = helpCommand.name then readHelp rest
    else
      match command? argument with
      | some c =>
        match readRequest c rest with
        | .ok request => .run request
        | .error stop => onStop (some c) stop
      | none =>
        match r.take globalOptions argument with
        | .ok r => readFrom r rest
        | .error (.refused (.unexpectedArgument a)) =>
          .refused (if Reading.looksLikeOption a then .unexpectedArgument a else .unknownCommand a)
        | .error stop => onStop none stop

/-- Reads the arguments. -/
def Invocation.ofArguments (arguments : List String) : Invocation := readFrom .start arguments

/-! ## What a request reads -/

/-- The files of a source. -/
def GrammarSource.paths : GrammarSource → List String
  | .snapshot path => [path]
  | .text files => files.grammar :: files.lexer.toList

/-- The files that a request reads. -/
def Request.paths : Request → List String
  | .compile files _ => files.grammar :: files.lexer.toList
  | .parse source (.file path) _ _ _ => source.paths ++ [path]
  | .parse source _ _ _ _ => source.paths
  | .inspect source _ => source.paths

/-- Whether a request reads the standard input. -/
def Request.readsStandardInput : Request → Bool
  | .parse _ .standardInput _ _ _ => true
  | _ => false

end ParseForest.CommandLine
