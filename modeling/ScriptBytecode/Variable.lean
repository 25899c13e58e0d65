import ScriptBytecode.Atom

/-!
# Variables

What a function record says of its arguments, locals and closure variables.
-/

namespace ScriptBytecode

inductive VarKind where
  | normal | functionDecl | newFunctionDecl | catchParam | functionName
  | privateField | privateMethod | privateGetter | privateSetter | privateAccessor
deriving DecidableEq, Inhabited

namespace VarKind

def toBits : VarKind → Nat
  | normal => 0
  | functionDecl => 1
  | newFunctionDecl => 2
  | catchParam => 3
  | functionName => 4
  | privateField => 5
  | privateMethod => 6
  | privateGetter => 7
  | privateSetter => 8
  | privateAccessor => 9

def ofBits? : Nat → Option VarKind
  | 0 => some normal
  | 1 => some functionDecl
  | 2 => some newFunctionDecl
  | 3 => some catchParam
  | 4 => some functionName
  | 5 => some privateField
  | 6 => some privateMethod
  | 7 => some privateGetter
  | 8 => some privateSetter
  | 9 => some privateAccessor
  | _ => none

def isPrivate : VarKind → Bool
  | privateField | privateMethod | privateGetter | privateSetter | privateAccessor => true
  | _ => false

theorem ofBits?_toBits (k : VarKind) : ofBits? k.toBits = some k := by
  cases k <;> rfl

end VarKind

/-- A local or an argument. -/
structure Variable where
  name : Atom
  /-- The scope that it belongs to; zero is the function's own. -/
  scopeLevel : Nat
  /-- The next variable on its chain. -/
  scopeNext : Option Nat
  kind : VarKind
  isConst : Bool
  isLexical : Bool
  isCaptured : Bool
deriving DecidableEq, Inhabited

/-- A plain variable of the function scope. -/
def Variable.plain (name : Atom) : Variable :=
  ⟨name, 0, none, .normal, false, false, false⟩

/-- A variable of an enclosing function. -/
structure ClosureVar where
  name : Atom
  /-- A slot of the parent if `isLocal`, else one of the parent's closure variables. -/
  varIdx : Nat
  isLocal : Bool
  isArg : Bool
  isConst : Bool
  isLexical : Bool
  kind : VarKind
deriving DecidableEq, Inhabited

end ScriptBytecode
