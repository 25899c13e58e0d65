import ScriptBytecode.Emission.Declaration
import ScriptBytecode.Emission.Suspension

/-!
# Loops
-/

namespace ScriptBytecode.Emit

/-- Constructs of a script start with the completion value `undefined`. -/
def resetCompletion : Emit Unit := do
  (← draft).completion.forM fun idx => do
    op .undefined
    opCount .putLoc idx

/-- A loop with its labels, whose body and next step start at `continueTo`. -/
def loopTarget (names : List Atom) (breakTo : Nat) (continueTo : Option Nat) (held : Nat) :
    Emit JumpTarget := do
  return {
    names
    breakTo := some breakTo
    continueTo
    held
    finalizer := none
    hasIterator := false
    scope := ← currentScope
    answersBreak := true }

def whileLoop (r : Parts) (names : List Atom) (test : Expr) (body : Stmt) : Emit Unit := do
  resetCompletion
  let top ← newLabel
  let exit ← newLabel
  within (← loopTarget names exit (some top) 0) do
    mark top
    r.value test
    jump .ifFalse exit
    r.stmt [] body
    jump .goto top
    mark exit

def doWhile (r : Parts) (names : List Atom) (body : Stmt) (test : Expr) : Emit Unit := do
  resetCompletion
  let top ← newLabel
  let next ← newLabel
  let exit ← newLabel
  within (← loopTarget names exit (some next) 0) do
    mark top
    r.stmt [] body
    mark next
    r.value test
    jump .ifTrue top
    mark exit

/-! ## Declarations -/

def declarator (r : Parts) (kind : DeclKind) (d : Declarator) : Emit Unit := do
  locate d.span
  match d.target, d.init with
  | .ident id, some e =>
    let name ← intern id.name
    r.expr (some name) e
    r.bind kind.bindKind d.target
  | p, some e =>
    r.value e
    r.bind kind.bindKind p
  | .ident id, none =>
    match kind with
    | .var => pure ()
    | .let_ =>
      let name ← intern id.name
      op .undefined
      access .putVarInit name
    | .const => misuse .constWithoutInitializer d.span
  | p, none => misuse .patternWithoutInitializer p.span

def varDecl (r : Parts) (d : VarDecl) : Emit Unit :=
  d.declarators.forM (declarator r d.kind)

/-- Declares the names of a loop head in the current scope. -/
def declareHead (d : VarDecl) : Emit Unit :=
  if d.kind.isLexical then declareBound d.bound .normal (d.kind = .const) else pure ()

/-! ## For loops -/

def forInit (r : Parts) : Option ForInit → Emit Unit
  | some (.decl d) => do
    declareHead d
    varDecl r d
  | some (.expr e) => do
    r.value e
    op .drop
  | none => pure ()

/-- Does every round of a loop have variables of its own? -/
def hasFreshBindings : Option ForInit → Bool
  | some (.decl d) => d.kind.isLexical
  | _ => false

def forLoop (r : Parts) (names : List Atom) (init : Option ForInit) (test update : Option Expr)
    (body : Stmt) : Emit Unit := do
  resetCompletion
  let scope ← openScope
  forInit r init
  let top ← newLabel
  let next ← newLabel
  let exit ← newLabel
  within (← loopTarget names exit (some next) 0) do
    mark top
    test.forM fun e => do
      r.value e
      jump .ifFalse exit
    r.stmt [] body
    mark next
    if hasFreshBindings init then leaveScope scope
    update.forM fun e => do
      r.value e
      op .drop
    jump .goto top
    mark exit
  closeScope scope

/-- Runs the rest of a loop in the scope of the names that its head declares. -/
def inHeadScope (head : ForHead) (rest : Emit Unit) : Emit Unit :=
  match head with
  | .decl d =>
    if d.kind.isLexical then
      inScope do
        declareHead d
        rest
    else rest
  | .pattern _ => rest

/-- Binds the value on top of the stack to the head of a loop. -/
def bindHead (r : Parts) : ForHead → Emit Unit
  | .decl d =>
    match d.declarators with
    | first :: _ => r.bind d.kind.bindKind first.target
    | [] => fault .emptyLoopHead
  | .pattern p => r.bind .assign p

def forIn (r : Parts) (names : List Atom) (head : ForHead) (object : Expr) (body : Stmt) :
    Emit Unit := do
  resetCompletion
  inHeadScope head do
    r.value object
    op .forInStart
    let top ← newLabel
    let next ← newLabel
    let exit ← newLabel
    jump .goto next
    within (← loopTarget names exit (some next) 1) do
      mark top
      bindHead r head
      r.stmt [] body
      mark next
      op .forInNext
      jump .ifFalse top
      op .drop
      mark exit
      op .drop

def forOf (r : Parts) (names : List Atom) (head : ForHead) (iterable : Expr) (body : Stmt)
    (isAwait : Bool) (span : Span) : Emit Unit := do
  if isAwait && !(← frame).kind.isAsync then misuse .forAwaitOutsideAsync span
  resetCompletion
  inHeadScope head do
    r.value iterable
    op (if isAwait then .forAwaitOfStart else .forOfStart)
    let top ← newLabel
    let next ← newLabel
    let exit ← newLabel
    jump .goto next
    let target ← loopTarget names exit (some next) 3
    within { target with hasIterator := true } do
      mark top
      bindHead r head
      r.stmt [] body
      mark next
      if isAwait then awaitNext else opInt .forOfNext 0
      jump .ifFalse top
      op .drop
      mark exit
      op .iteratorClose

end ScriptBytecode.Emit
