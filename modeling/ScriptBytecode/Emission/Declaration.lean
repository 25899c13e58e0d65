import ScriptBytecode.Ast.VarNames
import ScriptBytecode.Emission.Parts

/-!
# Declarations

Names are declared before the code that they are declared in runs. At the top level of a script or
module they are global, else they are variables of the function or of a scope.
-/

namespace ScriptBytecode

namespace Frame

/-- Declares a name for the whole function, unless it is declared already. -/
def declareVar (f : Frame) (name : Atom) : Frame :=
  if f.role.isTopLevel then
    if (f.global? name).isSome then f
    else { f with globals := f.globals.push ⟨name, false, false, none⟩ }
  else if (f.scopes.findVar? name).isSome || (f.scopes.findArg? name).isSome then f
  else { f with scopes := f.scopes.addVar name }

/-- Declares a name for the current scope; at top level, in the body itself, for all code. -/
def declareLexical (f : Frame) (name : Atom) (isConst inBody : Bool) : Frame :=
  if inBody && f.role.isTopLevel then
    match f.global? name with
    | some i => { f with globals := f.globals.modify i ({ · with isLexical := true, isConst }) }
    | none => { f with globals := f.globals.push ⟨name, true, isConst, none⟩ }
  else { f with scopes := f.scopes.addScopeVar name .normal true isConst }

/-- Declares a function that is the constant `init`. -/
def declareFunction (f : Frame) (name : Atom) (init : Nat) (inBody : Bool) : Frame :=
  if inBody && f.role.isTopLevel then
    match f.global? name with
    | some i => { f with globals := f.globals.modify i ({ · with init := some init }) }
    | none => { f with globals := f.globals.push ⟨name, false, false, some init⟩ }
  else if inBody then
    let (idx, scopes) := match f.scopes.findVar? name with
      | some idx => (idx, f.scopes)
      | none => (f.scopes.vars.size, f.scopes.addVar name)
    { f with scopes := (scopes.modifyVar idx ({ · with kind := .functionDecl })).setInit idx init }
  else
    let idx := f.scopes.vars.size
    { f with scopes := (f.scopes.addScopeVar name .functionDecl true false).setInit idx init }

end Frame

namespace Emit

def declareVars (names : List Ident) : Emit Unit :=
  names.forM fun id => do
    let name ← intern id.name
    modifyFrame (·.declareVar name)

/-- Declares the names of a pattern that a scope binds. -/
def declareBound (ids : List Ident) (kind : VarKind) (isConst : Bool) : Emit Unit :=
  ids.forM fun id => do
    let name ← intern id.name
    declare name kind true isConst

/-- The name that a declared function or class is bound to. Only a default export needs no name. -/
def declaredName? (id : Option Ident) (isDefault : Bool) : Emit (Option Atom) := do
  match id with
  | some id => return some (← intern id.name)
  | none => return if isDefault then some .defaultBinding else none

/-- Declares what a statement declares for the block that it stands in. A function is returned with
its name, to be declared after all else. -/
def hoistStmt (inBody isDefault : Bool) (s : Stmt) : Emit (Option (FunctionNode × Atom)) := do
  match s with
  | .varDecl d =>
    if d.kind.isLexical then
      d.bound.forM fun id => do
        let name ← intern id.name
        modifyFrame (·.declareLexical name (d.kind = .const) inBody)
    return none
  | .classDecl c =>
    (← declaredName? c.id isDefault).forM fun name =>
      modifyFrame (·.declareLexical name false inBody)
    return none
  | .functionDecl f => return (← declaredName? f.id isDefault).map (f, ·)
  | _ => return none

def hoistExport (inBody : Bool) (kind : ExportKind) : Emit (Option (FunctionNode × Atom)) := do
  match kind with
  | .decl s => hoistStmt inBody false s
  | .defaultDecl s => hoistStmt inBody true s
  | .byDefault _ =>
    modifyFrame (·.declareLexical .defaultBinding false inBody)
    return none
  | _ => return none

def declareFunction (r : Parts) (inBody : Bool) (f : FunctionNode) (name : Atom) : Emit Unit := do
  let child ← r.function (if name = .defaultBinding then .defaultName else name) (.function false) f
  let init ← addFunction child
  modifyFrame (·.declareFunction name init inBody)

/-- Declares what the statements of a block declare for it. -/
def hoistBlock (r : Parts) (inBody : Bool) (body : List Stmt) : Emit Unit := do
  let functions ← body.mapM fun
    | .exportDecl kind _ => hoistExport inBody kind
    | s => hoistStmt inBody false s
  functions.forM fun f => f.forM fun (f, name) => declareFunction r inBody f name

/-- The statements of a block in a scope of their own. -/
def block (r : Parts) (body : List Stmt) : Emit Unit :=
  inScope do
    hoistBlock r false body
    r.stmts body

/-- The statements of a whole program or function. Its scope stays open to the end. -/
def body (r : Parts) (stmts : List Stmt) (start : Emit Unit) : Emit Unit := do
  declareVars (stmtsVarNames stmts)
  let _ ← openScope
  hoistBlock r true stmts
  start
  r.stmts stmts

end Emit

end ScriptBytecode
