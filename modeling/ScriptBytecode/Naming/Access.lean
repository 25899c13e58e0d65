import ScriptBytecode.Naming.Lookup
import ScriptBytecode.Instr

/-!
# Access to bindings

The instructions that read, write and initialize a binding once it is known where it is.
-/

namespace ScriptBytecode

/-- A binding as the code of a function sees it. -/
structure Binding where
  slot : Slot
  kind : VarKind
  isConst : Bool
  isLexical : Bool
deriving DecidableEq, Inhabited

def Frame.binding (f : Frame) (slot : Slot) : Binding :=
  match slot with
  | .var idx =>
    let v := (f.scopes.var? idx).getD default
    ⟨slot, v.kind, v.isConst, v.isLexical⟩
  | .arg _ => ⟨slot, .normal, false, false⟩
  | .closure idx =>
    let v := f.closureVars[idx]?.getD default
    ⟨slot, v.kind, v.isConst, v.isLexical⟩

/-- The error that an assignment to a constant throws. -/
def readOnlyError : Nat := 0

namespace Binding

/-- Reads a binding; with `checked`, one that may not be initialized yet is tested. -/
def get (b : Binding) (checked : Bool) : Instr :=
  let check := checked && b.isLexical
  match b.slot with
  | .var i => .of (if check then .getLocCheck else .getLoc) (.int i)
  | .arg i => .of .getArg (.int i)
  | .closure i => .of (if check then .getVarRefCheck else .getVarRef) (.int i)

/-- Assigns to a binding. A constant throws; the name of a function expression throws in strict code
and else keeps its value. -/
def put (b : Binding) (name : Atom) (strict : Bool) : Instr :=
  if b.kind = .functionName && !strict then .plain .drop
  else if b.kind = .functionName || b.isConst then .of .raiseError (.atomInt name readOnlyError)
  else
    match b.slot with
    | .var i => .of (if b.isLexical then .putLocCheck else .putLoc) (.int i)
    | .arg i => .of .putArg (.int i)
    | .closure i => .of (if b.isLexical then .putVarRefCheck else .putVarRef) (.int i)

/-- Initializes a binding. The `this` of a derived constructor may be initialized only once. -/
def init (b : Binding) (name : Atom) : Instr :=
  let once := name = .this && b.isLexical
  match b.slot with
  | .var i => .of (if once then .putLocCheckInit else .putLoc) (.int i)
  | .arg i => .of .putArg (.int i)
  | .closure i => .of (if once then .putVarRefCheckInit else .putVarRef) (.int i)

/-- Puts a reference to a binding on the stack. -/
def ref (b : Binding) (name : Atom) : Instr :=
  match b.slot with
  | .var i => .of .makeLocRef (.atomInt name i)
  | .arg i => .of .makeArgRef (.atomInt name i)
  | .closure i => .of .makeVarRefRef (.atomInt name i)

end Binding

/-- The access to a name that `found` tells the binding of, or that is global. -/
def accessBinding (op : Pseudo) (name : Atom) (strict : Bool) (found : Option Binding) :
    List Instr :=
  match op, found with
  | .getVar, some b | .getThis, some b | .getVarUndef, some b => [b.get true]
  | .getVar, none | .getThis, none => [.of .getVar (.atom name)]
  | .getVarUndef, none => [.of .getVarUndef (.atom name)]
  | .putVar, some b => [b.put name strict]
  | .putVar, none => [.of .putVar (.atom name)]
  | .putVarInit, some b => [b.init name]
  | .putVarInit, none => [.of .putVarInit (.atom name)]
  | .deleteVar, some _ => [.plain .pushFalse]
  | .deleteVar, none => [.of .deleteVar (.atom name)]
  | .getRef, some b => [.plain .undefined, b.get true]
  | .getRef, none => [.plain .undefined, .of .getVar (.atom name)]
  | .makeRef, some b => [b.ref name]
  | .makeRef, none => [.of .makeVarRef (.atom name)]
  | _, _ => []

/-- The access to a property of that name, if the object of a `with` statement has one. -/
def withAccess : Pseudo → Opcode
  | .putVar | .putVarInit => .withPutVar
  | .deleteVar => .withDeleteVar
  | .makeRef => .withMakeRef
  | .getRef => .withGetRef
  | _ => .withGetVar

/-- Tries the object of a `with` statement; on success control goes on at `done`. -/
def tryWith (op : Pseudo) (name : Atom) (done : Nat) (object : Binding) : List Instr :=
  [object.get false, .of (withAccess op) (.atomLabel name done 1)]

end ScriptBytecode
