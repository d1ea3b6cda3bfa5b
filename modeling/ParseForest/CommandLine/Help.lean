import ParseForest.CommandLine.Option

/-!
# Help

A help text says what a command is for, how it is written, and what its options are. In the short
layout every option has a line, in the long one a paragraph; only commands with an option whose
values are explained have both.
-/

namespace ParseForest.CommandLine

namespace Opt

variable (o : Opt)

/-- The long form with the name of the value. -/
def usage : String :=
  "--" ++ o.long ++ match o.role with
    | .value name _ _ => " <" ++ name ++ ">"
    | _ => ""

/-- The short form, if there is one, and the long form. -/
def head : String :=
  "  " ++ (match o.short with
    | some c => "-" ++ c.toString ++ ", "
    | none => "    ") ++ o.usage

/-- The words that are values. -/
def words : List (String × Option String) :=
  match o.role with
  | .value _ (.choice words) _ => words
  | _ => []

/-- Whether some value is explained. -/
def explainsWords : Bool := o.words.any fun w => w.2.isSome

/-- The value that counts when the option is not given. -/
def fallbackNote : List String :=
  match o.role with
  | .value _ _ (some v) => ["[default: " ++ v ++ "]"]
  | _ => []

/-- The words that are values, in one line. -/
def wordsNote : List String :=
  if o.words.isEmpty then []
  else ["[possible values: " ++ ", ".intercalate (o.words.map Prod.fst) ++ "]"]

end Opt

/-- Spaces. -/
def blanks (n : Nat) : String := String.ofList (List.replicate n ' ')

/-- A text filled up with blanks. -/
def padded (width : Nat) (text : String) : String := text ++ blanks (width - text.length)

/-- Whether a command has a long layout. -/
def hasLongHelp (options : List Opt) : Bool := options.any Opt.explainsWords

/-- What the help says about an option; the help option says how to come to the other layout. -/
def aboutOption (options : List Opt) (long : Bool) (o : Opt) : String :=
  if o.role = .help && hasLongHelp options then
    if long then o.about ++ " (see a summary with '-h')" else o.about ++ " (see more with '--help')"
  else o.about

/-- The lines of the options in the short layout. -/
def shortOptions (options : List Opt) : String :=
  let width := (options.map fun o => o.head.length).foldl max 0
  "\n".intercalate (options.map fun o =>
    padded width o.head ++ "  "
      ++ " ".intercalate (aboutOption options false o :: o.fallbackNote ++ o.wordsNote))

/-- Ten blanks before the text under an option. -/
def indent : String := blanks 10

/-- The explanations of the words of an option. -/
def explanations (o : Opt) : String :=
  let width := (o.words.map fun w => w.1.length).foldl max 0
  "\n\n" ++ indent ++ "Possible values:" ++ String.join (o.words.map fun (word, about?) =>
    "\n" ++ indent ++ "- " ++ match about? with
      | some about => padded (width + 2) (word ++ ": ") ++ about
      | none => word)

/-- The paragraph of an option in the long layout. -/
def longOption (options : List Opt) (o : Opt) : String :=
  let notes := o.fallbackNote ++ if o.explainsWords then [] else o.wordsNote
  o.head ++ "\n" ++ indent ++ aboutOption options true o
    ++ (if o.explainsWords then explanations o else "")
    ++ (if notes.isEmpty then ""
      else "\n" ++ indent ++ "\n" ++ indent ++ ("\n" ++ indent).intercalate notes)

/-- The options in the long layout. -/
def longOptions (options : List Opt) : String :=
  "\n\n".intercalate (options.map (longOption options))

/-- The options in one of the layouts. -/
def optionsHelp (options : List Opt) (long : Bool) : String :=
  "Options:\n" ++ (if long && hasLongHelp options then longOptions options else shortOptions options)
    ++ "\n"

/-- The lines of the commands. -/
def commandsHelp : String :=
  let all := commands ++ [helpCommand]
  let width := (all.map fun c => c.name.length).foldl max 0
  "Commands:\n"
    ++ String.join (all.map fun c => "  " ++ padded width c.name ++ "  " ++ c.about ++ "\n")

/-- The help of the program. -/
def programHelp : String :=
  programAbout ++ "\n\nUsage: " ++ programName ++ " [OPTIONS] <COMMAND>\n\n" ++ commandsHelp ++ "\n"
    ++ optionsHelp globalOptions false

/-- The help of the command that shows help. -/
def helpHelp : String :=
  helpCommand.about ++ "\n\nUsage: " ++ programName ++ " help [COMMAND]\n\n" ++ commandsHelp

/-- The help of a command. -/
def Command.help (c : Command) (long : Bool) : String :=
  let required := c.options.filter fun o => c.required.contains o.long
  c.about ++ "\n\nUsage: " ++ programName ++ " " ++ c.name ++ " [OPTIONS]"
    ++ String.join (required.map fun o => " " ++ o.usage) ++ "\n\n" ++ optionsHelp c.options long

/-- The line of the version. -/
def versionText : String := programName ++ " " ++ programVersion ++ "\n"

end ParseForest.CommandLine
