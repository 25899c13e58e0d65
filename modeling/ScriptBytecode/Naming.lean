import ScriptBytecode.Atom.Table
import ScriptBytecode.Error
import ScriptBytecode.FunctionTree
import ScriptBytecode.Naming.Access
import ScriptBytecode.Naming.Prologue

/-!
# Resolving names

Turns the placeholders in the code of a function into instructions. The functions inside a function
come before the function itself, so that it is known which of its variables they capture when it
closes its scopes.
-/

namespace ScriptBytecode.Naming

structure State where
  atoms : AtomTable
  /-- The function whose code is being resolved and those around it, innermost first. -/
  frames : List Frame

abbrev Resolve := StateT State (Except Error)

def frame : Resolve Frame := do
  return (← get).frames.headD default

/-- A label of the innermost function that is not in use yet. -/
def newLabel : Resolve Nat :=
  modifyGet fun s =>
    match s.frames with
    | [] => (0, s)
    | f :: outer => (f.nextLabel, { s with frames := { f with nextLabel := f.nextLabel + 1 } :: outer })

def find (name : Atom) (scope : Nat) : Resolve (Option Slot × List Slot) :=
  modifyGet fun s =>
    let (found, withs, frames) := lookup name scope s.frames
    ((found, withs), { s with frames })

def find? (name : Atom) (scope : Nat) : Resolve (Option Binding) := do
  let (found, _) ← find name scope
  return found.map (← frame).binding

/-- The objects of `with` statements are tried before the binding; `done` is where control goes on
when one of them has the name. -/
def access (op : Pseudo) (name : Atom) (scope : Nat) (label : Option Nat) :
    Resolve (List Instr) := do
  let (found, withs) ← find name scope
  let done ← if label.isNone && !withs.isEmpty then some <$> newLabel else pure label
  let f ← frame
  return withs.flatMap (fun slot => tryWith op name (done.getD 0) (f.binding slot))
    ++ accessBinding op name f.strict (found.map f.binding)
    ++ done.toList.map .mark

/-! ## Private names -/

/-- The variable that holds the setter of a private name with a getter and a setter. -/
def setterName (atoms : AtomTable) (name : Atom) : String :=
  atoms.display name ++ "<set>"

def callMethod (argCount : Nat) : Instr :=
  .of .callMethod (.int argCount)

/-- Tests whether an object has a private member: a field itself, or the brand of the methods. -/
def testPrivate (b : Binding) (brand : Option Binding) : Option (List Instr) :=
  if b.kind = .privateField then some [b.get false, .plain .privateIn]
  else brand.map fun brand => [brand.get false, .plain .privateIn]

/-- Reads a private member; with `keep` the object stays below it. -/
def getPrivate (b : Binding) (keep : Bool) : Option (List Instr) :=
  let dup : List Instr := if keep then [.plain .dup] else []
  match b.kind with
  | .privateField => some (dup ++ [b.get false, .plain .getPrivateField])
  | .privateMethod =>
    some ([b.get false, .plain .checkBrand] ++ if keep then [] else [.plain .nip])
  | .privateGetter | .privateAccessor =>
    some (dup ++ [b.get false, .plain .checkBrand, callMethod 0])
  | _ => none

/-- Calls a setter with the value on top of the stack and the object below it. -/
def callSetter (setter : Binding) : List Instr :=
  [.plain .swap, setter.get false, .plain .checkBrand, .plain .rot3l, callMethod 1, .plain .drop]

def accessPrivate (op : Pseudo) (name : Atom) (scope line : Nat) : Resolve (List Instr) := do
  let place : Location := ⟨line, 0, 0⟩
  let text := (← get).atoms.display name
  let need {α : Type} (what : String → Misuse) : Option α → Resolve α
    | some a => pure a
    | none => throw (.invalidContext (what text) place)
  let b ← need .undefinedPrivateField (← find? name scope)
  match op with
  | .hasPrivate =>
    let brand ← if b.kind = .privateField then pure none else find? .brand scope
    need .privateWithoutBrand (testPrivate b brand)
  | .getPrivate => need .privateWithoutGetter (getPrivate b false)
  | .getPrivateKeep => need .privateWithoutGetter (getPrivate b true)
  | _ =>
    match b.kind with
    | .privateField => return [b.get false, .plain .putPrivateField]
    | .privateSetter => return callSetter b
    | .privateAccessor =>
      let setter ← modifyGet fun s =>
        let (setter, atoms) := s.atoms.intern (setterName s.atoms name)
        (setter, { s with atoms })
      let setter ← need .privateWithoutSetter (← find? setter scope)
      return callSetter setter
    | _ => throw (.invalidContext (.privateNotWritable text) place)

/-! ## Scopes and code -/

/-- Initializes the bindings of a scope: functions, and what may not be used before its
declaration. -/
def enterScope (f : Frame) (scope : Nat) : List Instr :=
  (f.scopes.scopeVars scope).flatMap fun idx =>
    match f.scopes.init? idx with
    | some constant => storeClosure .putLoc constant idx
    | none =>
      if (f.scopes.var? idx).any (·.isLexical) then [.of .setLocUninitialized (.int idx)] else []

/-- Gives the captured variables of a scope up to their closures. -/
def leaveScope (f : Frame) (scope : Nat) : List Instr :=
  (f.scopes.scopeVars scope).filterMap fun idx =>
    if (f.scopes.var? idx).any (·.isCaptured) then some (.of .closeLoc (.int idx)) else none

/-- Leaves an optional chain with `undefined` if the value on top of the stack is nullish. -/
def optionalLink (present exit : Nat) : List Instr :=
  [.plain .dup, .plain .isUndefinedOrNull, .of .ifFalse (.label present), .plain .drop,
    .plain .undefined, .of .goto (.label exit), .mark present]

/-- The instructions that an instruction stands for; `line` is the source line. -/
def resolve (line : Nat) (i : Instr) : Resolve (List Instr) := do
  match i.op, i.arg with
  | .final _, _ | .pseudo .lineNum, _ | .pseudo .label, _ => return [i]
  | .pseudo .enterScope, .int scope => return enterScope (← frame) scope.toNat
  | .pseudo .leaveScope, .int scope => return leaveScope (← frame) scope.toNat
  | .pseudo .makeRef, .atomLabel name label scope => access .makeRef name scope (some label)
  | .pseudo .chainField, .atom name => return [.of .getField (.atom name)]
  | .pseudo .chainElement, _ => return [.plain .getArrayEl]
  | .pseudo .optionalLink, .label exit => return optionalLink (← newLabel) exit
  | .pseudo op, .atomInt name scope =>
    match op with
    | .getPrivate | .getPrivateKeep | .putPrivate | .hasPrivate => accessPrivate op name scope line
    | _ => access op name scope none
  | op, _ => throw (.internal (.malformedPseudo op.info.name))

/-- The line of the code behind an instruction. -/
def lineAfter (line : Nat) (i : Instr) : Nat :=
  match i.op, i.arg with
  | .pseudo .lineNum, .int n => unsignedWord 32 n
  | _, _ => line

/-- Resolves the code of the innermost function, behind what is `done`. -/
def resolveCode (line : Nat) (done : Array Instr) : List Instr → Resolve (Array Instr)
  | [] => return done
  | i :: rest => do
    let code ← resolve line i
    resolveCode (lineAfter line i) (done ++ code) rest

def enter (f : Frame) : Resolve Unit :=
  modify fun s => { s with frames := f :: s.frames }

def leave : Resolve Frame :=
  modifyGet fun s => (s.frames.headD default, { s with frames := s.frames.tail })

mutual

/-- Resolves the names of a function and of those inside it. -/
def resolveTree : FunctionTree → Resolve FunctionTree
  | ⟨f, code, pool, children⟩ => do
    enter f
    let children ← resolveTrees children
    let body ← resolveCode f.line #[] code
    let f ← leave
    return ⟨f, f.prologue ++ body.toList, pool, children⟩
termination_by structural t => t

def resolveTrees : List FunctionTree → Resolve (List FunctionTree)
  | [] => return []
  | t :: rest => do
    let t ← resolveTree t
    return t :: (← resolveTrees rest)
termination_by structural ts => ts

end

end ScriptBytecode.Naming
