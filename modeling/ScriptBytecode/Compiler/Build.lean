import ScriptBytecode.Compiler.Options
import ScriptBytecode.FunctionTree
import ScriptBytecode.LineTable
import ScriptBytecode.StackSize

/-!
# Function records

The functions of a tree become records, nested functions first: code is laid out and optimized, and its
stack size, caches and line table are computed.
-/

namespace ScriptBytecode

/-- Slots are numbers of sixteen bits. -/
def Frame.checkLimits (f : Frame) : Result Unit := do
  let place : Location := ⟨f.line, 1, 0⟩
  let limit := 0xffff
  if limit < f.scopes.args.size then throw (.unsupported .tooManyArguments place)
  if limit < f.scopes.vars.size then throw (.unsupported .tooManyLocals place)
  if limit < f.closureVars.size then throw (.unsupported .tooManyClosureVars place)

/-- The flags of a function, some of which depend on the function that gives it its `this`. -/
def Frame.flags (f owner : Frame) (hasDebug : Bool) : FunctionFlags where
  hasPrototype := f.role.isConstructor || (f.isOrdinary && !f.role.isMethod && f.kind != .async)
  simpleParams := f.simpleParams
  derivedConstructor := f.role.isDerived
  needHomeObject := f.specials.homeObject.isSome
  newTargetAllowed := !owner.role.isTopLevel
  superCallAllowed := owner.role.isDerived
  superAllowed := owner.role.isMethod
  argumentsAllowed := !owner.role.isTopLevel && owner.role != .fieldInitializer
  hasDebug
  isEval := false

/-- Lays code out and optimizes it. -/
def finishCode (config : OptimizerConfig) (code : List Instr) : Result Assembled := do
  let assembled ← assemble code
  if config = .none then return assembled else optimize config assembled.code assembled.lines

abbrev Build := StateT Nat (Except Error)

/-- What all records of a program share. -/
structure BuildContext where
  options : CompileOptions
  filename : Atom

namespace Build

def freshId : Build Nat :=
  modifyGet fun n => (n, n + 1)

def debugInfo (ctx : BuildContext) (f : Frame) (lines : LineTable) : Option DebugInfo :=
  if ctx.options.stripDebug then none
  else some {
    filename := ctx.filename
    line := f.line
    lines := LineTable.encode f.line lines
    source := if ctx.options.stripSource then none else f.source }

/-- The record of a function whose constants are built. -/
def record (ctx : BuildContext) (f owner : Frame) (code : Assembled) (constants : List Value) :
    Result FunctionRecord := do
  let stackSize ← stackSize code.code
  let cache ← InlineCache.ofCode code.code
  let debug := debugInfo ctx f code.lines
  return {
    name := f.name
    flags := f.flags owner debug.isSome
    kind := f.kind
    mode := if f.strict then 1 else 0
    argCount := f.scopes.args.size
    varCount := f.scopes.vars.size
    definedArgCount := f.definedArgs
    stackSize
    slotVars := f.scopes.args.toList ++ f.scopes.vars.toList
    closureVars := f.closureVars.toList
    code := code.code
    debug
    constants
    cache }

/-- A constant, given the values of the nested functions. -/
def constant (children : Array Value) : Constant → Build Value
  | .value v => return v
  | .function child =>
    match children[child]? with
    | some v => return v
    | none => throw (.internal .missingFunction)

mutual

/-- Builds the functions inside a function and then the function itself. -/
def function (ctx : BuildContext) (outerOwner : Frame) : FunctionTree → Build FunctionRecord
  | ⟨f, code, pool, children⟩ => do
    let owner := if f.isArrow then outerOwner else f
    let children ← functions ctx owner children
    f.checkLimits
    let code ← finishCode ctx.options.optimizer code
    let constants ← pool.entries.toList.mapM (constant children.toArray)
    record ctx f owner code constants
termination_by structural t => t

def functions (ctx : BuildContext) (owner : Frame) : List FunctionTree → Build (List Value)
  | [] => return []
  | t :: rest => do
    let f ← function ctx owner t
    let id ← freshId
    return .function id f :: (← functions ctx owner rest)
termination_by structural ts => ts

end

end Build

end ScriptBytecode
