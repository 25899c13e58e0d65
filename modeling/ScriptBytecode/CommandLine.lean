import ScriptBytecode.Compiler

/-!
# The command line

What the arguments ask for: to compile a syntax tree into an object, or to list an object.
-/

namespace ScriptBytecode

inductive Command where
  | compile (input output : String) (options : CompileOptions) (list : Bool)
  | list (file : String)

inductive UsageFault where
  | missingCommand
  | unknownCommand (name : String)
  | missingInput
  | missingOutput
  | unexpected (arg : String)

namespace UsageFault

def message : UsageFault → String
  | missingCommand => "a command is required: compile or dump"
  | unknownCommand name => "unrecognized subcommand '" ++ name ++ "'"
  | missingInput => "an input file is required"
  | missingOutput => "a value is required for '--out <FILE>'"
  | unexpected arg => "unexpected argument '" ++ arg ++ "'"

end UsageFault

namespace CommandLine

/-- The last component of a path, behind what leads to it. -/
def splitPath (path : List Char) : List Char × List Char :=
  let last := path.reverse.takeWhile (· != '/')
  (path.take (path.length - last.length), last.reverse)

/-- A file name without its extension. A point at the start begins no extension. -/
def stem (name : List Char) : List Char :=
  match name.reverse.dropWhile (· != '.') with
  | _ :: c :: rest => (c :: rest).reverse
  | _ => name

/-- Beside the input, with the extension of objects. -/
def defaultOutput (input : String) : String :=
  let (directory, name) := splitPath input.toList
  String.ofList (directory ++ stem name) ++ ".qbc"

/-- What the arguments of a compilation say, read so far. -/
structure CompileArgs where
  input : Option String
  output : Option String
  options : CompileOptions
  list : Bool

def CompileArgs.initial : CompileArgs := ⟨none, none, .standard, false⟩

def compileArgs (a : CompileArgs) : List String → Except UsageFault CompileArgs
  | [] => return a
  | [arg] =>
    if arg = "-o" || arg = "--out" then throw .missingOutput else one a arg
  | arg :: next :: rest =>
    if arg = "-o" || arg = "--out" then
      if a.output.isSome then throw (.unexpected arg)
      else compileArgs { a with output := some next } rest
    else do
      let a ← one a arg
      compileArgs a (next :: rest)
where
  /-- An argument that stands alone. -/
  one (a : CompileArgs) : String → Except UsageFault CompileArgs
    | "--module" => return { a with options.asModule := true }
    | "--strip-debug" => return { a with options.stripDebug := true }
    | "--strip-source" => return { a with options.stripSource := true }
    | "--no-optimize" => return { a with options.optimizer := .none }
    | "--dump" => return { a with list := true }
    | arg =>
      if arg.startsWith "-" || a.input.isSome then throw (.unexpected arg)
      else return { a with input := some arg }

/-- The file's name stands for itself in the object's debug information. -/
def CompileArgs.command (a : CompileArgs) : Except UsageFault Command :=
  match a.input with
  | some input =>
    return .compile input (a.output.getD (defaultOutput input)) { a.options with filename := input } a.list
  | none => throw .missingInput

def parse : List String → Except UsageFault Command
  | "compile" :: rest => do (← compileArgs .initial rest).command
  | ["dump"] => throw .missingInput
  | ["dump", file] => return .list file
  | "dump" :: _ :: arg :: _ => throw (.unexpected arg)
  | name :: _ => throw (.unknownCommand name)
  | [] => throw .missingCommand

end CommandLine

end ScriptBytecode
