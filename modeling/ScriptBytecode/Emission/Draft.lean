import ScriptBytecode.Atom.Table
import ScriptBytecode.Emission.ModuleTables
import ScriptBytecode.FunctionTree
import ScriptBytecode.Naming.Lookup

/-!
# Drafts

The state in which code is emitted: the draft of the function at hand, which knows the functions
around it, and what all functions of a program share. Code under construction names variables by
their name and the scope of the access.
-/

namespace ScriptBytecode

/-- A construct that `break` or `continue` can leave, or that has to be tidied up when it is left. -/
structure JumpTarget where
  names : List Atom
  breakTo : Option Nat
  continueTo : Option Nat
  /-- How many values the construct keeps on the stack. -/
  held : Nat
  finalizer : Option Nat
  /-- Are the values an iterator, which has to be closed? -/
  hasIterator : Bool
  scope : Nat
  /-- Does a `break` without a label leave it? -/
  answersBreak : Bool
deriving DecidableEq, Inhabited

structure Draft where
  frame : Frame
  /-- The functions around it, innermost first. -/
  outer : List Frame
  code : Array Instr
  pool : ConstantPool
  /-- The constructs around the code at hand, innermost first. -/
  targets : List JumpTarget
  /-- The end of the optional chain at hand. -/
  chainEnd : Option Nat
  lastLine : Nat
  /-- The variable that holds the completion value of a script. -/
  completion : Option Nat
  children : Array FunctionTree
deriving Inhabited

namespace Draft

def initial (frame : Frame) (outer : List Frame) : Draft where
  frame
  outer
  code := #[]
  pool := .empty
  targets := []
  chainEnd := none
  lastLine := 0
  completion := none
  children := #[]

def tree (d : Draft) : FunctionTree :=
  ⟨d.frame, d.code.toList, d.pool, d.children.toList⟩

end Draft

structure EmitState where
  atoms : AtomTable
  /-- The first identity that no value has. -/
  nextId : Nat
  /-- Present in modules. -/
  tables : Option ModuleTables
  draft : Draft
deriving Inhabited

abbrev Emit := StateT EmitState (Except Error)

namespace Emit

def misuse {α : Type} (what : Misuse) (span : Span) : Emit α :=
  throw (.invalidContext what span.start)

def unsupported {α : Type} (what : Unsupported) (span : Span) : Emit α :=
  throw (.unsupported what span.start)

def fault {α : Type} (what : InternalFault) : Emit α :=
  throw (.internal what)

def draft : Emit Draft := do
  return (← get).draft

def frame : Emit Frame := do
  return (← get).draft.frame

def modifyDraft (f : Draft → Draft) : Emit Unit :=
  modify fun s => { s with draft := f s.draft }

def modifyFrame (f : Frame → Frame) : Emit Unit :=
  modify fun s => { s with draft := { s.draft with frame := f s.draft.frame } }

def modifyScopes (f : ScopeTree → ScopeTree) : Emit Unit :=
  modify fun s =>
    { s with draft := { s.draft with frame := { s.draft.frame with scopes := f s.draft.frame.scopes } } }

/-- The function that gives the code its `this`. -/
def owner : Emit Frame := do
  let d ← draft
  return ScriptBytecode.owner d.frame d.outer

def isStrict : Emit Bool := do
  return (← frame).strict

def currentScope : Emit Nat := do
  return (← frame).scopes.current

/-- Is the code at hand inside a `with` statement? -/
def underWith : Emit Bool := do
  let d ← draft
  return ScriptBytecode.underWith d.frame.scopes.current (d.frame :: d.outer)

def intern (name : String) : Emit Atom :=
  modifyGet fun s =>
    let (a, atoms) := s.atoms.intern name
    (a, { s with atoms })

def displayName (a : Atom) : Emit String := do
  return (← get).atoms.display a

def freshId : Emit Nat :=
  modifyGet fun s => (s.nextId, { s with nextId := s.nextId + 1 })

/-! ## Instructions -/

def put (i : Instr) : Emit Unit :=
  modify fun s => { s with draft := { s.draft with code := s.draft.code.push i } }

def op (o : Opcode) : Emit Unit :=
  put (.plain o)

def ops (os : List Opcode) : Emit Unit :=
  os.forM op

def opInt (o : Opcode) (n : Int) : Emit Unit :=
  put (.of o (.int n))

/-- An instruction with a slot or a count, which takes sixteen bits. -/
def opCount (o : Opcode) (n : Nat) : Emit Unit :=
  put (.of o (.int (n % 0x10000 : Nat)))

def opAtom (o : Opcode) (a : Atom) : Emit Unit :=
  put (.of o (.atom a))

def opAtomInt (o : Opcode) (a : Atom) (n : Nat) : Emit Unit :=
  put (.of o (.atomInt a n))

def pushInt (n : Int) : Emit Unit :=
  opInt .pushI32 n

def pushText (s : String) : Emit Unit := do
  opAtom .pushAtomValue (← intern s)

/-- Scopes take sixteen bits. -/
def scopeOperand (scope : Nat) : Nat :=
  scope % 0x10000

/-- An access to a name from the current scope. -/
def access (p : Pseudo) (name : Atom) : Emit Unit := do
  let scope ← currentScope
  put ⟨.pseudo p, .atomInt name (scopeOperand scope)⟩

def newLabel : Emit Nat :=
  modifyGet fun s =>
    let l := s.draft.frame.nextLabel
    (l, { s with draft := { s.draft with frame := { s.draft.frame with nextLabel := l + 1 } } })

def mark (l : Nat) : Emit Unit :=
  put (.mark l)

def jump (o : Opcode) (l : Nat) : Emit Unit :=
  put (.of o (.label l))

/-- Notes the source line of the code that follows. -/
def locate (span : Span) : Emit Unit := do
  let line := span.start.line
  if line != 0 && line != (← draft).lastLine then
    modifyDraft ({ · with lastLine := line })
    put (.line line)

def addConstant (v : Value) : Emit Nat :=
  modifyGet fun s =>
    let (idx, pool) := s.draft.pool.add v
    (idx, { s with draft := { s.draft with pool } })

def pushConstant (v : Value) : Emit Unit := do
  let idx ← addConstant v
  opInt .pushConst idx

/-- The constant of a nested function. -/
def addFunction (child : Nat) : Emit Nat :=
  modifyGet fun s =>
    let (idx, pool) := s.draft.pool.addFunction child
    (idx, { s with draft := { s.draft with pool } })

def pushClosure (child : Nat) : Emit Unit := do
  let idx ← addFunction child
  opInt .fclosure idx

/-- Can control reach the code that follows? -/
def isLive : Emit Bool := do
  let last := (← draft).code.back?
  return !(last.bind (·.opcode?)).any (·.isTerminator)

/-! ## Scopes -/

def openScope : Emit Nat := do
  modifyScopes (·.push)
  let scope ← currentScope
  put ⟨.pseudo .enterScope, .int (scopeOperand scope)⟩
  return scope

def leaveScope (scope : Nat) : Emit Unit :=
  put ⟨.pseudo .leaveScope, .int (scopeOperand scope)⟩

def closeScope (scope : Nat) : Emit Unit := do
  leaveScope scope
  modifyScopes (·.pop)

def inScope (body : Emit Unit) : Emit Unit := do
  let scope ← openScope
  body
  closeScope scope

def declare (name : Atom) (kind : VarKind) (isLexical isConst : Bool) : Emit Unit :=
  modifyScopes (·.addScopeVar name kind isLexical isConst)

/-! ## Constructs and chains -/

/-- Emits the inside of a construct. -/
def within (target : JumpTarget) (body : Emit Unit) : Emit Unit := do
  modifyDraft fun d => { d with targets := target :: d.targets }
  body
  modifyDraft fun d => { d with targets := d.targets.tail }

/-- Emits a part of an expression with another end of the optional chain around it. -/
def withChainEnd (chainEnd : Option Nat) (body : Emit Unit) : Emit Unit := do
  let saved := (← draft).chainEnd
  modifyDraft ({ · with chainEnd })
  body
  modifyDraft ({ · with chainEnd := saved })

/-- Emits an optional chain. -/
def chain (body : Emit Unit) : Emit Unit := do
  let exit ← newLabel
  withChainEnd (some exit) body
  mark exit

/-! ## Nested functions -/

/-- Emits a function inside the function at hand and returns which of its children it is. Without a
line of its own it has the line of the code around it. -/
def nested (name : Atom) (role : Role) (span : Span) (body : Emit Unit) : Emit Nat := do
  let d ← draft
  let line := if span.start.line = 0 then max d.lastLine d.frame.line else span.start.line
  let frame : Frame := .initial name role line d.frame.scopes.current d.frame.strict
  modify ({ · with draft := .initial frame (d.frame :: d.outer) })
  body
  modify fun s => { s with draft := { d with children := d.children.push s.draft.tree } }
  return d.children.size

end Emit

end ScriptBytecode
