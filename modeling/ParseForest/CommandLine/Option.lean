/-!
# Options and commands

What the command line understands: commands, each with options. An option is a switch, takes a
value, or asks for information. Its position in the table is where the help shows it.
-/

namespace ParseForest.CommandLine

/-- What the value of an option may be. -/
inductive ValueKind
  | text
  /-- Not empty -/
  | path
  /-- A natural number below `2 ^ 64` -/
  | number
  /-- One of some words, which may have explanations -/
  | choice (words : List (String × Option String))
deriving DecidableEq

/-- What an option does. -/
inductive OptionRole
  /-- It is there or not -/
  | switch
  /-- It has a value, shown in the help by a name -/
  | value (name : String) (kind : ValueKind) (fallback : Option String)
  | help
  | version
deriving DecidableEq

/-- An option. -/
structure Opt where
  short : Option Char
  long : String
  role : OptionRole
  about : String
deriving DecidableEq

/-- A command. -/
structure Command where
  name : String
  about : String
  options : List Opt
  /-- The long names of the options without which the command is refused -/
  required : List String
deriving DecidableEq

/-- The number of a text: digits, which may have a plus sign before them. -/
def number? (text : String) : Option Nat :=
  let digits := match text.toList with
    | '+' :: rest => rest
    | all => all
  if digits.isEmpty || digits.any fun c => !c.isDigit then none
  else
    let n := digits.foldl (fun n c => 10 * n + (c.toNat - '0'.toNat)) 0
    if n ≤ 0xffffffffffffffff then some n else none

/-- Whether a text is a value of a kind. -/
def ValueKind.accepts (kind : ValueKind) (text : String) : Bool :=
  match kind with
  | .text => true
  | .path => !text.isEmpty
  | .number => (number? text).isSome
  | .choice words => words.any fun w => w.1 == text

/-- Whether an option takes a value. -/
def Opt.takesValue (o : Opt) : Bool :=
  match o.role with
  | .value _ _ _ => true
  | _ => false

/-- Whether a text can be given to an option; one that takes no value is given the empty text. -/
def Opt.accepts (o : Opt) (text : String) : Bool :=
  match o.role with
  | .value _ kind _ => kind.accepts text
  | _ => true

/-! ## The options -/

/-- An option with a path. -/
def pathOption (short : Char) (long name about : String) : Opt :=
  ⟨some short, long, .value name .path none, about⟩

/-- Logging. -/
def verbose : Opt :=
  ⟨some 'v', "verbose", .switch, "Log parser activity to stderr; `RUST_LOG` refines the filter"⟩

/-- Help. -/
def help : Opt := ⟨some 'h', "help", .help, "Print help"⟩

/-- The version. -/
def version : Opt := ⟨some 'V', "version", .version, "Print version"⟩

/-- A snapshot instead of grammar text. -/
def blob : Opt := pathOption 'b' "blob" "BLOB" "Grammar blob written by `thicket compile`"

/-- The grammar text. -/
def grammar : Opt := pathOption 'g' "grammar" "GRAMMAR" "Grammar file in BNF or EBNF"

/-- The lexer, for commands that may do with a snapshot. -/
def lexer : Opt := pathOption 'l' "lexer" "LEXER" "JSON lexer description"

/-- The lexer, for the command that needs text. -/
def lexerInFull : Opt :=
  { lexer with about :=
      "JSON lexer description: `\x7b\"classes\": [\x7b\"name\", \"pattern\", \"kind\"\x7d]\x7d`" }

/-- The form of the grammar text. -/
def form : Opt :=
  ⟨some 'n', "notation", .value "NOTATION" (.choice [("bnf", none), ("ebnf", none)]) none,
    "Grammar notation; guessed from the file extension when omitted"⟩

/-- Where the snapshot goes. -/
def output : Opt := pathOption 'o' "output" "OUTPUT" "Where to write the blob"

/-- A file to parse. -/
def input : Opt := pathOption 'i' "input" "INPUT" "File to parse"

/-- A text to parse. -/
def text : Opt :=
  ⟨some 't', "text", .value "TEXT" .text none, "Text to parse, instead of a file"⟩

/-- How the forest is shown. -/
def format : Opt :=
  ⟨some 'f', "format", .value "FORMAT" (.choice [
      ("sexpr", some "One s-expression per tree"), ("json", some "The trees as a JSON array"),
      ("dot", some "The forest in DOT format")]) (some "sexpr"), "Output format"⟩

/-- The most trees that are shown. -/
def maxTrees : Opt :=
  ⟨none, "max-trees", .value "MAX_TREES" .number (some "16"), "Print at most this many trees"⟩

/-- No passes. -/
def raw : Opt := ⟨none, "raw", .switch, "Keep the forest as the parser built it"⟩

/-- Show the states. -/
def states : Opt := ⟨none, "states", .switch, "Also print every automaton state"⟩

/-- Show the rule graph. -/
def dot : Opt := ⟨none, "dot", .switch, "Print the rule graph in DOT format instead"⟩

/-! ## The commands -/

/-- Writes a snapshot. -/
def compileCommand : Command :=
  ⟨"compile", "Compile grammar text and a lexer description into a grammar blob",
    [grammar, verbose, lexerInFull, form, output, help], ["grammar", "output"]⟩

/-- Shows trees. -/
def parseCommand : Command :=
  ⟨"parse", "Parse input and print its trees",
    [blob, verbose, grammar, lexer, form, input, text, format, maxTrees, raw, help], []⟩

/-- Shows a grammar. -/
def inspectCommand : Command :=
  ⟨"inspect", "Print what a compiled grammar consists of",
    [blob, verbose, grammar, lexer, form, states, dot, help], []⟩

/-- Shows help; the commands come after it. -/
def helpCommand : Command :=
  ⟨"help", "Print this message or the help of the given subcommand(s)", [], []⟩

/-- The commands that do something. -/
def commands : List Command := [compileCommand, parseCommand, inspectCommand]

/-- The command of a name. -/
def command? (name : String) : Option Command := commands.find? fun c => c.name == name

/-- The options before the command. -/
def globalOptions : List Opt := [verbose, help, version]

/-- Name of the program. -/
def programName : String := "thicket"

/-- What the program is for. -/
def programAbout : String := "Compile grammars and inspect the parse forests they produce"

/-- The version of the program. -/
def programVersion : String := "0.3.0"

end ParseForest.CommandLine
