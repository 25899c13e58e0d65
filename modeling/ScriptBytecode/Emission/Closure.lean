import ScriptBytecode.Emission.Declaration
import ScriptBytecode.Emission.Chain
import ScriptBytecode.Emission.Exit

/-!
# Functions
-/

namespace ScriptBytecode

/-- The pattern of a parameter without its default or rest. -/
def Pattern.core : Pattern → Pattern
  | .withDefault target _ _ => target
  | .rest target _ => target
  | p => p

namespace FunctionBody

def isStrict : FunctionBody → Bool
  | block body => hasUseStrict body
  | expr _ => false

end FunctionBody

namespace Emit

/-- The name of an argument; one that is taken apart has none. -/
def argName (p : Pattern) : Emit Atom := do
  match p.core with
  | .ident id => intern id.name
  | _ => return .emptyString

/-- Stores a parameter's value, which is on top of the stack. -/
def storeParam (r : Parts) (target : Pattern) (idx : Nat) : Emit Unit :=
  match target with
  | .ident _ => opCount .putArg idx
  | p => r.bind .var p

def param (r : Parts) (p : Pattern) (idx : Nat) : Emit Unit := do
  match p with
  | .ident _ => pure ()
  | .rest target _ =>
    opCount .rest idx
    storeParam r target idx
  | .withDefault target value _ =>
    opCount .getArg idx
    let name ← match target with
      | .ident id => some <$> intern id.name
      | _ => pure none
    orDefault r value name
    storeParam r target idx
  | p =>
    opCount .getArg idx
    r.bind .var p

/-- Declares what parameters are taken apart into, then gives them their values. -/
def params (r : Parts) (ps : List Pattern) : Emit Unit := do
  ps.forM fun p => if p.core.isIdent then pure () else declareVars p.core.bound
  ps.zipIdx.forM fun (p, idx) => param r p idx

/-- A derived constructor has no `this` until its parent class has made one. -/
def declareThis : Emit Unit :=
  modifyFrame fun f =>
    let idx := f.scopes.vars.size
    { f with
      scopes := (f.scopes.addVar .this).modifyVar idx ({ · with isLexical := true })
      specials := f.specials.set .this idx }

def functionBody (r : Parts) (role : Role) (b : FunctionBody) : Emit Unit := do
  match b with
  | .block stmts =>
    body r stmts (if role.initializesFields && !role.isDerived then initializeFields else pure ())
    if ← isLive then returnWith false
  | .expr e =>
    let _ ← openScope
    r.value e
    returnWith true

def function (r : Parts) (name : Atom) (role : Role) (f : FunctionNode) : Emit Nat :=
  nested name role f.span do
    modifyFrame ({ · with
      kind := .of f.isAsync f.isGenerator
      isArrow := f.isArrow
      source := f.source
      simpleParams := f.hasSimpleParams
      definedArgs := f.definedArgs % 0x10000 })
    if f.body.isStrict then modifyFrame ({ · with strict := true })
    if role.isDerived then declareThis
    f.params.forM fun p => do
      let name ← argName p
      modifyScopes (·.addArg name)
    params r f.params
    if (← frame).kind.isGenerator then op .initialYield
    functionBody r role f.body

/-- Leaves the closure of a function expression on the stack. -/
def functionExpr (r : Parts) (f : FunctionNode) (name : Option Atom) : Emit Unit := do
  match f.id with
  | some id =>
    let name ← intern id.name
    pushClosure (← r.function name (.function (!f.isArrow)) f)
  | none => pushClosure (← r.function (name.getD .emptyString) (.function false) f)

end Emit

end ScriptBytecode
