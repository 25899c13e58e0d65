import ScriptBytecode.Ast.ToJson
import ScriptBytecode.Compiler.Build
import ScriptBytecode.Emission
import ScriptBytecode.Json.Reader
import ScriptBytecode.Listing
import ScriptBytecode.Naming
import ScriptBytecode.Object.Reader
import ScriptBytecode.Object.Writer

/-!
# The compiler

From a syntax tree to the record of a function or module: code is emitted with names and labels, names
are resolved, and the functions become records.
-/

namespace ScriptBytecode

/-- A value with the table of its atoms; a compiled program is a function or a module. -/
structure Compiled where
  atoms : AtomTable
  value : Value

/-- Emits a whole program: its function tree and what else was collected. -/
def emitProgram (options : CompileOptions) (p : Program) :
    Result (FunctionTree × Atom × EmitState) := do
  let (filename, atoms) := AtomTable.initial.intern options.filename
  let isModule := options.asModule || p.sourceType = .module
  let r := Parts.ofDepth (p.steps + defaultConstructorDepth)
  let role : Role := if isModule then .module else .script
  let name := if isModule then filename else .evalCode
  let strict := p.strict || hasUseStrict p.body
  let frame := { Frame.initial name role (max p.span.start.line 1) 0 strict with source := p.source }
  let emit := if isModule then Emit.moduleBody r p.body else Emit.script r p.body
  let ((), s) ← emit.run ⟨atoms, 0, none, .initial frame []⟩
  return (s.draft.tree, filename, s)

/-- The value of a program whose names are resolved. -/
def buildProgram (options : CompileOptions) (filename : Atom) (tables : Option ModuleTables)
    (nextId : Nat) (tree : FunctionTree) : Result Value := do
  let (f, nextId) ← (Build.function ⟨options, filename⟩ tree.frame tree).run nextId
  match tables with
  | none => return .function nextId f
  | some t => return .module nextId (← t.record f.name tree.frame.closureVars f)

def Program.compile (p : Program) (options : CompileOptions) : Result Compiled := do
  let (tree, filename, s) ← emitProgram options p
  let (tree, naming) ← (Naming.resolveTree tree).run ⟨s.atoms, []⟩
  let value ← buildProgram options filename s.tables s.nextId tree
  return ⟨naming.atoms, value⟩

/-- Compiles the program that a JSON text holds. -/
def Program.compileText (text : String) (options : CompileOptions) : Result Compiled :=
  match (Json.read? text).bind Program.ofJson? with
  | some p => p.compile options
  | none => .error .malformedJson

namespace Compiled

/-- The record of the top-level code. -/
def function? (c : Compiled) : Option FunctionRecord :=
  match c.value with
  | .function _ f => some f
  | .module _ m => some m.body
  | _ => none

def toBytes (c : Compiled) (options : Object.WriteOptions) : Result Bytes :=
  Object.encode c.value c.atoms options

/-- Reads an object into an atom table of its own. -/
def ofBytes (bytes : Bytes) (options : Object.ReadOptions) : Result Compiled := do
  let (value, atoms) ← Object.decode bytes .initial options
  return ⟨atoms, value⟩

/-- The listing of every function, nested ones included. -/
def listing (c : Compiled) : Result String :=
  match c.function? with
  | some f => Listing.text f c.atoms
  | none => .error (.internal .noFunctionRecord)

end Compiled

end ScriptBytecode
