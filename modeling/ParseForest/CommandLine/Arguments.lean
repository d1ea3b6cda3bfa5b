import ParseForest.CommandLine.Option

/-!
# Arguments

Reading the arguments of a command. An option is given by its long name after two dashes or its
letter after one; letters may be run together. The value of an option is the rest of its argument,
after an equals sign that a letter can do without, or the next argument, which must not look like an
option. Two dashes alone end the options. No option may be given twice.
-/

namespace ParseForest.CommandLine

/-- Why arguments are refused. -/
inductive UsageError
  | noCommand
  | unknownCommand (name : String)
  | unexpectedArgument (argument : String)
  | missingValue (option : String)
  | unexpectedValue (option value : String)
  | invalidValue (option value : String)
  | repeated (option : String)
  | conflict (option other : String)
  | missingOptions (options : List String)
deriving DecidableEq

/-- Why the reading of arguments ends before the last of them. -/
inductive Stop
  | help (long : Bool)
  | version
  | refused (error : UsageError)
deriving DecidableEq

/-- Refuses the arguments. -/
def refuse {α : Type} (e : UsageError) : Except Stop α := .error (.refused e)

/-- Options that were given, by long name, with their values. -/
abbrev Given := List (String × String)

/-- How far the arguments have been read. -/
structure Reading where
  given : Given
  /-- The option whose value comes next -/
  awaiting : Option Opt
  /-- Two dashes have ended the options -/
  closed : Bool

namespace Reading

/-- Before the first argument. -/
def start : Reading := ⟨[], none, false⟩

variable (r : Reading)

/-- Takes in an option with its value. -/
def record (o : Opt) (value : String) : Except Stop Reading :=
  if (r.given.lookup o.long).isSome then refuse (.repeated o.long)
  else if !o.accepts value then refuse (.invalidValue o.long value)
  else .ok { r with given := r.given ++ [(o.long, value)], awaiting := none }

/-- Takes in an option that has the value, if any, in its own argument. -/
def takeOption (o : Opt) (long : Bool) (value? : Option String) : Except Stop Reading :=
  match o.role, value? with
  | .value _ _ _, some value => r.record o value
  | .value _ _ _, none => .ok { r with awaiting := some o }
  | _, some value => refuse (.unexpectedValue o.long value)
  | .switch, none => r.record o ""
  | .help, none => .error (.help long)
  | .version, none => .error .version

/-- Takes in an argument that begins with two dashes, which are left out. -/
def takeLong (options : List Opt) (text : List Char) : Except Stop Reading :=
  let name := String.ofList (text.takeWhile (· != '='))
  let value? := match text.dropWhile (· != '=') with
    | [] => none
    | _ :: value => some (String.ofList value)
  match options.find? (·.long == name) with
  | none => refuse (.unexpectedArgument ("--" ++ name))
  | some o => r.takeOption o true value?

/-- Takes in letters that have been run together. -/
def takeShort (options : List Opt) : List Char → Reading → Except Stop Reading
  | [], r => .ok r
  | c :: rest, r =>
    match options.find? (·.short == some c) with
    | none => refuse (.unexpectedArgument ("-" ++ c.toString))
    | some o =>
      if o.takesValue then
        match rest with
        | [] => r.takeOption o false none
        | '=' :: value => r.takeOption o false (some (String.ofList value))
        | value => r.takeOption o false (some (String.ofList value))
      else do takeShort options rest (← r.takeOption o false none)

/-- Whether an argument is an option, or ends the options. -/
def looksLikeOption (argument : String) : Bool :=
  match argument.toList with
  | '-' :: _ :: _ => true
  | _ => false

/-- Takes in an argument. -/
def take (options : List Opt) (argument : String) : Except Stop Reading :=
  match r.closed, r.awaiting with
  | true, _ => refuse (.unexpectedArgument argument)
  | false, some o =>
    if looksLikeOption argument then refuse (.missingValue o.long) else r.record o argument
  | false, none =>
    match argument.toList with
    | ['-', '-'] => .ok { r with closed := true }
    | '-' :: '-' :: text => r.takeLong options text
    | '-' :: c :: text => takeShort options (c :: text) r
    | _ => refuse (.unexpectedArgument argument)

/-- What was given, when there are no more arguments. -/
def finish : Except Stop Given :=
  match r.awaiting with
  | some o => refuse (.missingValue o.long)
  | none => .ok r.given

end Reading

/-- Reads the arguments of a command. -/
def readOptions (options : List Opt) (arguments : List String) : Except Stop Given := do
  (← arguments.foldlM (fun r a => r.take options a) Reading.start).finish

end ParseForest.CommandLine
