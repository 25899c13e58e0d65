import ScriptBytecode.CommandLine

/-!
# The program

Reads and writes the files that the command line names. Every failure is one line on the error stream.
-/

open ScriptBytecode

/-- Names the file and the activity that failed. -/
def during {α : Type} (activity file : String) (act : IO α) : IO α :=
  try act catch e => throw (IO.userError (activity ++ " '" ++ file ++ "': " ++ toString e))

def succeed {α : Type} : Result α → IO α
  | .ok a => return a
  | .error e => throw (IO.userError e.message)

def runCommand : Command → IO Unit
  | .compile input output options list => do
    let text ← during "reading" input (IO.FS.readFile input)
    let compiled ← during "compiling" input (succeed (Program.compileText text options))
    let bytes ← succeed (compiled.toBytes ⟨false, options.stripDebug, options.stripSource⟩)
    during "writing" output (IO.FS.writeBinFile output ⟨bytes.toArray⟩)
    if list then IO.print (← succeed compiled.listing)
  | .list file => do
    let bytes ← during "reading" file (IO.FS.readBinFile file)
    if bytes.isEmpty then throw (IO.userError ("'" ++ file ++ "' is empty"))
    let object ← during "decoding" file (succeed (Compiled.ofBytes bytes.toList ⟨false⟩))
    IO.print (← succeed object.listing)

def main (args : List String) : IO UInt32 := do
  match CommandLine.parse args with
  | .error fault =>
    IO.eprintln ("error: " ++ fault.message)
    return 2
  | .ok command =>
    try
      runCommand command
      return 0
    catch e =>
      IO.eprintln ("error: " ++ toString e)
      return 1
