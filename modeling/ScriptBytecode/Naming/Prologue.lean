import ScriptBytecode.Instr
import ScriptBytecode.Naming.Frame
import ScriptBytecode.Opcode.SpecialObject

/-!
# Prologues

The code in front of a function's own: it makes the special bindings and those of hoisted
declarations.
-/

namespace ScriptBytecode

/-- The flags of a global declaration. -/
def GlobalVar.lexicalFlag : Nat := 128
def GlobalVar.functionFlag : Nat := 64
def GlobalVar.writableFlag : Nat := 2

/-- Stores a new closure of a constant. -/
def storeClosure (store : Opcode) (constant slot : Nat) : List Instr :=
  [.of .fclosure (.int constant), .of store (.int slot)]

namespace GlobalVar

def check (g : GlobalVar) : Instr :=
  let lexical := if g.isLexical then lexicalFlag else 0
  let function := if g.init.isSome then functionFlag else 0
  .of .checkDefineVar (.atomInt g.name (lexical + function))

def define (g : GlobalVar) : List Instr :=
  match g.init with
  | some constant => [.of .fclosure (.int constant), .of .defineFunc (.atomInt g.name 0)]
  | none =>
    let flags :=
      if !g.isLexical then 0
      else if g.isConst then lexicalFlag
      else lexicalFlag + writableFlag
    [.of .defineVar (.atomInt g.name flags)]

end GlobalVar

namespace Frame

/-- Puts a special object into a local. -/
def storeSpecial (kind : SpecialObject) (idx : Nat) : List Instr :=
  [.of .specialObject (.int kind.code), .of .putLoc (.int idx)]

def makeThis (f : Frame) (idx : Nat) : List Instr :=
  if f.role.isDerived then [.of .setLocUninitialized (.int idx)]
  else [.plain .pushThis, .of .putLoc (.int idx)]

def makeSpecials (f : Frame) : List Instr :=
  let argumentsKind : SpecialObject :=
    if f.strict || !f.simpleParams then .arguments else .mappedArguments
  f.specials.homeObject.elim [] (storeSpecial .homeObject)
    ++ f.specials.activeFunction.elim [] (storeSpecial .activeFunction)
    ++ f.specials.newTarget.elim [] (storeSpecial .newTarget)
    ++ f.specials.this.elim [] f.makeThis
    ++ f.specials.arguments.elim [] (storeSpecial argumentsKind)
    ++ f.specials.ownName.elim [] (storeSpecial .activeFunction)

/-- The functions that variables at function level start with. -/
def makeFunctions (f : Frame) : List Instr :=
  f.scopes.vars.toList.zipIdx.flatMap fun (v, idx) =>
    match f.scopes.init? idx with
    | some constant => if v.scopeLevel = 0 then storeClosure .putLoc constant idx else []
    | none => []

/-- The functions that the variables of a module start with. -/
def makeModuleFunctions (f : Frame) : List Instr :=
  f.globals.toList.flatMap fun g =>
    match g.init, f.closureVar? g.name with
    | some constant, some k => storeClosure .putVarRef constant k
    | _, _ => []

def prologue (f : Frame) : List Instr :=
  f.makeSpecials ++
    match f.role with
    | .script => f.globals.toList.map (·.check) ++ f.globals.toList.flatMap (·.define)
    | .module => f.makeModuleFunctions
    | _ => f.makeFunctions

end Frame

end ScriptBytecode
