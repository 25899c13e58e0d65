import ScriptBytecode.Atom.Predefined
import ScriptBytecode.FunctionFlags
import ScriptBytecode.ScopeTree

/-!
# Frames

A frame is what the code of a function, and of the functions inside it, can ask about that function:
what it is, and which names it binds.
-/

namespace ScriptBytecode

/-- What a function is to the code around it. -/
inductive Role where
  /-- The top level of a script, whose declarations are global. -/
  | script
  | module
  /-- A declared function or a function expression, which may bind its own name. -/
  | function (bindsOwnName : Bool)
  /-- A method or accessor of an object or a class. -/
  | method (inClass : Bool)
  | constructor (isDerived initializesFields : Bool)
  /-- Initializes the fields of new instances, or of a class itself. -/
  | fieldInitializer
deriving DecidableEq, Inhabited

namespace Role

def isTopLevel : Role → Bool
  | script | module => true
  | _ => false

/-- Does the function have a home object? -/
def isMethod : Role → Bool
  | method _ | constructor .. | fieldInitializer => true
  | _ => false

def isConstructor : Role → Bool
  | constructor .. => true
  | _ => false

def isDerived : Role → Bool
  | constructor isDerived _ => isDerived
  | _ => false

def initializesFields : Role → Bool
  | constructor _ initializesFields => initializesFields
  | _ => false

/-- Modules and classes are strict throughout. -/
def isStrict : Role → Bool
  | module | method true | constructor .. | fieldInitializer => true
  | _ => false

end Role

/-- A declaration at the top level of a script or module. -/
structure GlobalVar where
  name : Atom
  isLexical : Bool
  isConst : Bool
  /-- The constant index of the function that it starts with. -/
  init : Option Nat
deriving DecidableEq, Inhabited

/-- The bindings that a function makes for itself when they are first used. -/
inductive Special where
  | homeObject | activeFunction | newTarget | this | arguments | ownName
deriving DecidableEq, Inhabited

/-- The local variables of the special bindings made so far. -/
structure Specials where
  homeObject : Option Nat
  activeFunction : Option Nat
  newTarget : Option Nat
  this : Option Nat
  arguments : Option Nat
  ownName : Option Nat
deriving DecidableEq, Inhabited

namespace Specials

def none : Specials := ⟨.none, .none, .none, .none, .none, .none⟩

def get? (s : Specials) : Special → Option Nat
  | .homeObject => s.homeObject
  | .activeFunction => s.activeFunction
  | .newTarget => s.newTarget
  | .this => s.this
  | .arguments => s.arguments
  | .ownName => s.ownName

def set (s : Specials) (which : Special) (idx : Nat) : Specials :=
  match which with
  | .homeObject => { s with homeObject := some idx }
  | .activeFunction => { s with activeFunction := some idx }
  | .newTarget => { s with newTarget := some idx }
  | .this => { s with this := some idx }
  | .arguments => { s with arguments := some idx }
  | .ownName => { s with ownName := some idx }

end Specials

structure Frame where
  name : Atom
  role : Role
  kind : FunctionKind
  isArrow : Bool
  strict : Bool
  simpleParams : Bool
  definedArgs : Nat
  line : Nat
  source : Option String
  /-- The scope of the enclosing function that the function stands in. -/
  parentScope : Nat
  scopes : ScopeTree
  closureVars : Array ClosureVar
  globals : Array GlobalVar
  specials : Specials
  /-- The first label that is not in use. -/
  nextLabel : Nat
deriving Inhabited

namespace Frame

/-- The frame of a function that has declared nothing yet. -/
def initial (name : Atom) (role : Role) (line parentScope : Nat) (strict : Bool) : Frame where
  name
  role
  kind := .normal
  isArrow := false
  strict := strict || role.isStrict
  simpleParams := true
  definedArgs := 0
  line
  source := none
  parentScope
  scopes := .initial
  closureVars := #[]
  globals := #[]
  specials := .none
  nextLabel := 0

/-- Neither an arrow function nor top-level code. -/
def isOrdinary (f : Frame) : Bool :=
  !f.isArrow && !f.role.isTopLevel

/-- The name by which a function expression can call itself. -/
def ownName? (f : Frame) : Option Atom :=
  match f.role with
  | .function true => some f.name
  | _ => none

/-- The special binding that a name stands for in the function. -/
def special? (f : Frame) (name : Atom) : Option Special :=
  if name = .this && !f.isArrow then some .this
  else if name = .newTarget && f.isOrdinary then some .newTarget
  else if name = .arguments && f.isOrdinary && f.role != .fieldInitializer then some .arguments
  else if name = .homeObject && f.role.isMethod then some .homeObject
  else if name = .activeFunction && f.isOrdinary then some .activeFunction
  else if f.ownName? = some name then some .ownName
  else none

def closureVar? (f : Frame) (name : Atom) : Option Nat :=
  f.closureVars.findIdx? (·.name == name)

def global? (f : Frame) (name : Atom) : Option Nat :=
  f.globals.findIdx? (·.name == name)

end Frame

/-- The function whose `this`, `super` and `new.target` the innermost of some nested functions sees: the
first that is not an arrow function, or else the outermost. -/
def owner (innermost : Frame) : List Frame → Frame
  | [] => innermost
  | outer :: rest => if innermost.isArrow then owner outer rest else innermost

end ScriptBytecode
