import ScriptBytecode.Emission.Exit

/-!
# Suspending functions

`yield`, `yield*` and `await`.
-/

namespace ScriptBytecode.Emit

/-- What a delegate iterator is asked to do. -/
inductive IteratorRequest where
  | return | throw | close
deriving DecidableEq, Inhabited

def IteratorRequest.code : IteratorRequest → Nat
  | .return => 0
  | .throw => 1
  | .close => 2

/-- How a generator was resumed when it was told to throw. -/
def resumedToThrow : Int := 2

/-- The error of a delegate that cannot throw. -/
def cannotThrowError : Nat := 4

def request (q : IteratorRequest) : Emit Unit :=
  opInt .iteratorCall q.code

/-- Awaits the value on top of the stack in an async function. -/
def awaitIf (isAsync : Bool) : Emit Unit :=
  if isAsync then op .await else pure ()

/-- Puts the flag of the iterator result on top of the stack above it. -/
def iteratorResult (isAsync : Bool) : Emit Unit := do
  awaitIf isAsync
  op .iteratorCheckObject
  opAtom .getField2 .done

/-- Returns the value on top of the stack from inside constructs. -/
def returnFrom : Emit Unit := do
  exitAll
  returnWith true

/-- Delegates to the iterator of a value. Meanwhile the stack holds the iterator, in three values, and
what it was last sent or sent back. -/
def yieldFrom (r : Parts) (arg : Expr) (isAsync : Bool) : Emit Unit := do
  let loop ← newLabel
  let yielding ← newLabel
  let resumed ← newLabel
  let returned ← newLabel
  let throwing ← newLabel
  let cannotThrow ← newLabel
  let closed ← newLabel
  let done ← newLabel
  r.value arg
  op (if isAsync then .forAwaitOfStart else .forOfStart)
  op .undefined

  mark loop
  op .iteratorNext
  iteratorResult isAsync
  jump .ifTrue done

  mark yielding
  if isAsync then
    opAtom .getField .value
    op .asyncYieldStar
  else op .yieldStar
  op .dup
  jump .ifTrue resumed
  op .drop
  jump .goto loop

  -- the generator was told to return or to throw
  mark resumed
  pushInt resumedToThrow
  op .strictEq
  jump .ifTrue throwing
  awaitIf isAsync
  request .return
  jump .ifTrue returned
  iteratorResult isAsync
  jump .ifFalse yielding
  opAtom .getField .value
  mark returned
  ops [.nip, .nip, .nip]
  returnFrom

  mark throwing
  request .throw
  jump .ifTrue cannotThrow
  iteratorResult isAsync
  jump .ifFalse yielding
  jump .goto done

  mark cannotThrow
  request .close
  jump .ifTrue closed
  awaitIf isAsync
  mark closed
  opAtomInt .raiseError .null cannotThrowError

  mark done
  opAtom .getField .value
  ops [.nip, .nip, .nip]

def yield (r : Parts) (arg : Option Expr) (delegate : Bool) (span : Span) : Emit Unit := do
  let f ← frame
  if !f.kind.isGenerator || f.isArrow then misuse .yieldOutsideGenerator span
  let isAsync := f.kind.isAsync
  if delegate then
    let some arg := arg | misuse .yieldStarWithoutOperand span
    yieldFrom r arg isAsync
  else
    match arg with
    | some arg => r.value arg
    | none => op .undefined
    awaitIf isAsync
    op .yield
    let next ← newLabel
    jump .ifFalse next
    returnFrom
    mark next

def await (r : Parts) (arg : Expr) (span : Span) : Emit Unit := do
  let f ← frame
  if !f.kind.isAsync && f.role != .module then misuse .awaitOutsideAsync span
  r.value arg
  op .await

/-- Steps the iterator of a `for await` loop. -/
def awaitNext : Emit Unit :=
  ops [.undefined, .iteratorNext, .await, .iteratorGetValueDone]

end ScriptBytecode.Emit
