import ParseForest.CommandLine.Run

/-!
# The program

Reads the files that a command line asks for, and writes what comes of it.
-/

open ParseForest CommandLine

/-- The content of a file, if it can be read. -/
def readFile? (path : String) : IO (Option Bytes) := do
  try
    pure (some (← IO.FS.readBinFile path).toList)
  catch _ => pure none

/-- What the request of a command line reads. -/
def readSurroundings (invocation : Invocation) : IO Surroundings := do
  match invocation with
  | .run request =>
    let files ← request.paths.mapM fun path => do pure (path, ← readFile? path)
    let standardInput ← if request.readsStandardInput
      then pure (← (← IO.getStdin).readToEnd).toUTF8.toList else pure []
    pure ⟨fun path => (files.lookup path).join, standardInput⟩
  | _ => pure ⟨fun _ => none, []⟩

/-- Writes a file, and says whether it could be written. -/
def writeFile (path : String) (bytes : Bytes) : IO Bool := do
  try
    IO.FS.writeBinFile path ⟨bytes.toArray⟩
    pure true
  catch _ => pure false

/-- Writes the file of a response; if that fails, so does the response. -/
def settle (response : Response) : IO Response := do
  match response.output.file with
  | some (path, bytes) =>
    if ← writeFile path bytes then pure response else pure (.failed (.unwritable path))
  | none => pure response

def main (arguments : List String) : IO UInt32 := do
  let invocation := Invocation.ofArguments arguments
  let response ← settle (invocation.respond (← readSurroundings invocation))
  IO.print response.output.stdout
  IO.eprint response.output.stderr
  pure response.code.toUInt32
