import ScriptBytecode.Variable
import ScriptBytecode.Binary64
import ScriptBytecode.FunctionFlags
import ScriptBytecode.InlineCache

/-!
# Values

The constants of a program, down to whole functions and modules. Compound values carry an identity, so
that one object in two places can be told from two objects with the same content; numbers carry the bits
of a double.
-/

namespace ScriptBytecode

structure DebugInfo where
  filename : Atom
  line : Nat
  /-- The encoded line table. -/
  lines : Bytes
  source : Option String
deriving DecidableEq, Inhabited

inductive Export where
  | ofLocal (varIdx : Nat) (name : Atom)
  | ofModule (reqModule : Nat) (localName name : Atom)
deriving DecidableEq, Inhabited

structure Import where
  varIdx : Nat
  isStar : Bool
  name : Atom
  reqModule : Nat
deriving DecidableEq, Inhabited

mutual

inductive Value where
  | null
  | undefined
  | bool (b : Bool)
  | int (n : Int)
  | float (x : Binary64)
  | string (s : String)
  | bigint (n : Int)
  | array (id : Nat) (items : List Value)
  | object (id : Nat) (props : List Property)
  /-- The strings of a tagged template, cooked and raw. -/
  | template (id : Nat) (cooked raw : List Value)
  | function (id : Nat) (f : FunctionRecord)
  | module (id : Nat) (m : ModuleRecord)

structure Property where
  key : Atom
  value : Value

structure FunctionRecord where
  name : Atom
  flags : FunctionFlags
  kind : FunctionKind
  mode : Nat
  argCount : Nat
  varCount : Nat
  definedArgCount : Nat
  stackSize : Nat
  /-- Arguments, then locals. -/
  slotVars : List Variable
  closureVars : List ClosureVar
  code : Bytes
  debug : Option DebugInfo
  constants : List Value
  /-- Rebuilt from the code, never stored. -/
  cache : InlineCache

structure ModuleRecord where
  name : Atom
  /-- The required modules, each with its import attributes. -/
  requires : List Property
  exports : List Export
  starExports : List Nat
  imports : List Import
  body : FunctionRecord

end

instance : Inhabited Value := ⟨.null⟩

namespace FunctionRecord

instance : Inhabited FunctionRecord :=
  ⟨⟨.null, .none, .normal, 0, 0, 0, 0, 0, [], [], [], none, [], []⟩⟩

def args (f : FunctionRecord) : List Variable :=
  f.slotVars.take f.argCount

def locals (f : FunctionRecord) : List Variable :=
  f.slotVars.drop f.argCount

/-- The functions among the constants. -/
def children (f : FunctionRecord) : List FunctionRecord :=
  f.constants.filterMap fun
    | .function _ g => some g
    | _ => none

end FunctionRecord

instance : Inhabited ModuleRecord :=
  ⟨⟨.null, [], [], [], [], default⟩⟩

instance : Inhabited Property :=
  ⟨⟨.null, .null⟩⟩

namespace Value

/-- The most compact form of a number: an integer if it is one of 32 bits and not negative zero. -/
def number (x : Binary64) : Value :=
  match x.toInt? with
  | some n => if fitsSigned 32 n && !x.isNegativeZero then .int n else .float x
  | none => .float x

/-- An array, object or template: what references in the object format may point to. -/
def isObjectLike : Value → Bool
  | array .. | object .. | template .. => true
  | _ => false

def identity? : Value → Option Nat
  | array id _ | object id _ | template id _ _ | function id _ | module id _ => some id
  | _ => none

def typeName : Value → String
  | null => "null"
  | undefined => "undefined"
  | bool _ => "boolean"
  | int _ | float _ => "number"
  | string _ => "string"
  | bigint _ => "bigint"
  | array .. => "array"
  | object .. => "object"
  | template .. => "template"
  | function .. => "function"
  | module .. => "module"

end Value

/-! ## Deep equality

Identities and inline caches do not count; doubles are compared by their bits. -/

mutual

def Value.same : Value → Value → Bool
  | .null, .null => true
  | .undefined, .undefined => true
  | .bool a, .bool b => a == b
  | .int a, .int b => a == b
  | .float a, .float b => a == b
  | .string a, .string b => a == b
  | .bigint a, .bigint b => a == b
  | .array _ a, .array _ b => sameAll a b
  | .object _ a, .object _ b => sameProps a b
  | .template _ a c, .template _ b d => sameAll a b && sameAll c d
  | .function _ a, .function _ b => FunctionRecord.same a b
  | .module _ a, .module _ b => ModuleRecord.same a b
  | _, _ => false
termination_by structural a => a

def sameAll : List Value → List Value → Bool
  | [], [] => true
  | a :: as, b :: bs => a.same b && sameAll as bs
  | _, _ => false
termination_by structural a => a

def sameProps : List Property → List Property → Bool
  | [], [] => true
  | ⟨k, a⟩ :: as, ⟨l, b⟩ :: bs => k == l && a.same b && sameProps as bs
  | _, _ => false
termination_by structural a => a

def FunctionRecord.same : FunctionRecord → FunctionRecord → Bool
  | ⟨name, flags, kind, mode, args, vars, defined, stack, defs, closure, code, debug, constants, _⟩,
    ⟨name', flags', kind', mode', args', vars', defined', stack', defs', closure', code', debug',
      constants', _⟩ =>
    name == name' && flags == flags' && kind == kind' && mode == mode' && args == args'
      && vars == vars' && defined == defined' && stack == stack' && defs == defs'
      && closure == closure' && code == code' && debug == debug' && sameAll constants constants'
termination_by structural a => a

def ModuleRecord.same : ModuleRecord → ModuleRecord → Bool
  | ⟨name, reqs, exports, stars, imports, body⟩, ⟨name', reqs', exports', stars', imports', body'⟩ =>
    name == name' && sameProps reqs reqs' && exports == exports' && stars == stars'
      && imports == imports' && body.same body'
termination_by structural a => a

end

end ScriptBytecode
