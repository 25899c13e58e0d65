import ScriptBytecode.Emission.Parts

/-!
# Leaving constructs

Every construct that control leaves gives up what it holds on the stack and runs its finalizer.
-/

namespace ScriptBytecode

/-- The scopes from `scope` out to `target`, which is left out. Parents have smaller numbers, which
bounds the walk. -/
def ScopeTree.pathTo (t : ScopeTree) (target : Nat) : Nat → Nat → List Nat
  | 0, _ => []
  | fuel + 1, scope =>
    if scope = target then []
    else scope :: (t.parent? scope).elim [] (pathTo t target fuel)

/-- A jump out of constructs. -/
inductive JumpKind where
  | breakOut | continueWith
deriving DecidableEq, Inhabited

namespace JumpTarget

/-- Does a jump go to this construct? -/
def answers (t : JumpTarget) : JumpKind → Option Atom → Bool
  | .breakOut, some name => t.names.contains name
  | .breakOut, none => t.answersBreak
  | .continueWith, some name => t.names.contains name && t.continueTo.isSome
  | .continueWith, none => t.continueTo.isSome

def label? (t : JumpTarget) : JumpKind → Option Nat
  | .breakOut => t.breakTo
  | .continueWith => t.continueTo

end JumpTarget

namespace Emit

/-- Runs a finalizer and comes back with the stack as it was. -/
def runFinalizer (finalizer : Option Nat) : Emit Unit :=
  finalizer.forM fun l => do
    op .undefined
    jump .gosub l
    op .drop

/-- Gives up what a construct holds. -/
def exitTarget (t : JumpTarget) : Emit Unit := do
  if t.hasIterator then op .iteratorClose else ops (.replicate t.held .drop)
  runFinalizer t.finalizer

/-- Leaves the scopes between the current one and `target`. -/
def leaveScopesTo (target : Nat) : Emit Unit := do
  let scopes := (← frame).scopes
  (scopes.pathTo target scopes.scopes.size scopes.current).forM leaveScope

def noTarget (kind : JumpKind) (name : Option Atom) : Emit Misuse := do
  match name, kind with
  | some name, _ => return .undefinedLabel (← displayName name)
  | none, .breakOut => return .breakOutsideLoop
  | none, .continueWith => return .continueOutsideLoop

def jumpOut (kind : JumpKind) (label : Option Ident) (span : Span) : Emit Unit := do
  let name ← label.mapM fun id => intern id.name
  let (inner, rest) := (← draft).targets.span fun t => !t.answers kind name
  match rest with
  | [] => misuse (← noTarget kind name) span
  | target :: _ =>
    inner.forM exitTarget
    leaveScopesTo target.scope
    let some l := target.label? kind | fault .jumpWithoutLabel
    jump .goto l

/-- Leaves all constructs of the function with the return value on top of the stack. -/
def exitAll : Emit Unit := do
  (← draft).targets.forM fun t => do
    if t.hasIterator then ops [.insert4, .drop, .iteratorClose]
    else ops (.replicate t.held .nip)
    t.finalizer.forM (jump .gosub)

/-- Returns from the function, with the value on top of the stack if there is one. A derived
constructor returns `this` in place of anything but an object. -/
def returnWith (hasValue : Bool) : Emit Unit := do
  let f ← frame
  if f.role.isDerived then
    let done ← newLabel
    if hasValue then
      op .checkCtorReturn
      jump .ifFalse done
      op .drop
    access .getThis .this
    mark done
    op .returnValue
  else if f.kind = .normal then
    op (if hasValue then .returnValue else .returnUndef)
  else
    if !hasValue then op .undefined
    op .returnAsync

end Emit

end ScriptBytecode
