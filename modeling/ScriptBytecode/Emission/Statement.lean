import ScriptBytecode.Emission.Loop

/-!
# Statements
-/

namespace ScriptBytecode

/-- The identifiers that an exported declaration declares. -/
def Stmt.declared : Stmt → List Ident
  | .varDecl d => d.bound
  | .functionDecl f => f.id.toList
  | .classDecl c => c.id.toList
  | _ => []

/-- Does a statement itself use the labels before it? -/
def Stmt.takesLabels : Stmt → Bool
  | .whileLoop .. | .doWhile .. | .forLoop .. | .forIn .. | .forOf .. | .switch .. | .labeled .. =>
    true
  | _ => false

namespace Emit

/-- Keeps the value on top of the stack as completion value, or drops it. -/
def completeWith : Emit Unit := do
  match (← draft).completion with
  | some idx => opCount .putLoc idx
  | none => op .drop

def ifElse (r : Parts) (test : Expr) (yes : Stmt) (no : Option Stmt) : Emit Unit := do
  resetCompletion
  let other ← newLabel
  r.value test
  jump .ifFalse other
  r.stmt [] yes
  match no with
  | some s =>
    let exit ← newLabel
    jump .goto exit
    mark other
    r.stmt [] s
    mark exit
  | none => mark other

/-! ## Switch -/

/-- Jumps to the first case whose test succeeds, else to the last default case or to `exit`. -/
def switchTests (r : Parts) (exit : Nat) : List (SwitchCase × Nat) → Option Nat → Emit Unit
  | [], default? => jump .goto (default?.getD exit)
  | (c, label) :: rest, default? => do
    match c.test with
    | some test =>
      locate c.span
      op .dup
      r.value test
      op .strictEq
      jump .ifTrue label
      switchTests r exit rest default?
    | none => switchTests r exit rest (some label)

def switch (r : Parts) (names : List Atom) (discriminant : Expr) (cases : List SwitchCase) :
    Emit Unit := do
  resetCompletion
  r.value discriminant
  inScope do
    cases.forM fun c => hoistBlock r false c.body
    let exit ← newLabel
    within (← loopTarget names exit none 1) do
      let labeled ← cases.mapM fun c => return (c, ← newLabel)
      switchTests r exit labeled none
      labeled.forM fun (c, label) => do
        mark label
        r.stmts c.body
      mark exit
      op .drop

/-! ## Labels -/

def labeled (r : Parts) (names : List Atom) (label : Ident) (body : Stmt) (span : Span) :
    Emit Unit := do
  let name ← intern label.name
  if names.contains name || (← draft).targets.any (·.names.contains name) then
    misuse (.duplicateLabel label.name) span
  let names := names ++ [name]
  if body.takesLabels then r.stmt names body
  else
    let exit ← newLabel
    let target ← loopTarget names exit none 0
    within { target with answersBreak := false } do
      r.stmt [] body
      mark exit

/-! ## Exceptions -/

/-- A construct that holds some values, with a finalizer or without. -/
def guardTarget (held : Nat) (finalizer : Option Nat) (scope : Nat) : JumpTarget where
  names := []
  breakTo := none
  continueTo := none
  held
  finalizer
  hasIterator := false
  scope
  answersBreak := false

/-- Binds the exception on top of the stack in a scope of its own and emits the rest in it. -/
def inCatchScope (r : Parts) (param : Option Pattern) (rest : Emit Unit) : Emit Unit :=
  inScope do
    match param with
    | some p =>
      declareBound p.bound .catchParam false
      r.bind .lexical p
    | none => op .drop
    rest

/-- Emits the finalizer, which does not change the completion value. -/
def finalizerBody (r : Parts) (body : Block) (scope : Nat) : Emit Unit := do
  let completion := (← draft).completion
  modifyDraft ({ · with completion := none })
  within (guardTarget 2 none scope) (block r body.body)
  modifyDraft ({ · with completion })
  op .ret

/-- What happens at the handler with the exception on top of the stack. -/
def handle (r : Parts) (handler : Option CatchClause) (finalizer : Option Nat) (scope exit : Nat) :
    Emit Unit := do
  match handler with
  | some c =>
    let rethrow ← newLabel
    if finalizer.isSome then
      inCatchScope r c.param do
        jump .catchTo rethrow
        within (guardTarget 1 finalizer scope) (block r c.body.body)
      op .drop
      runFinalizer finalizer
      jump .goto exit
      mark rethrow
      runFinalizer finalizer
      op .throw
    else
      inCatchScope r c.param (block r c.body.body)
      jump .goto exit
  | none =>
    runFinalizer finalizer
    op .throw

def tryCatch (r : Parts) (body : Block) (handler : Option CatchClause) (finalizer : Option Block) :
    Emit Unit := do
  resetCompletion
  let caught ← newLabel
  let exit ← newLabel
  let finally_ ← finalizer.mapM fun _ => newLabel
  let scope ← currentScope
  jump .catchTo caught
  within (guardTarget 1 finally_ scope) (block r body.body)
  op .drop
  runFinalizer finally_
  jump .goto exit
  mark caught
  handle r handler finally_ scope exit
  match finally_, finalizer with
  | some l, some b =>
    mark l
    finalizerBody r b scope
  | _, _ => pure ()
  mark exit

def withObject (r : Parts) (object : Expr) (body : Stmt) (span : Span) : Emit Unit := do
  if ← isStrict then misuse .withInStrict span
  resetCompletion
  r.value object
  op .toObject
  inScope do
    declare .withObject .normal false false
    access .putVarInit .withObject
    r.stmt [] body

/-! ## Exports -/

def modifyTables (f : ModuleTables → ModuleTables) : Emit Unit :=
  modify fun s => { s with tables := s.tables.map f }

def exportLocal (binding exported : Atom) (place : Location) : Emit Unit :=
  modifyTables fun t => { t with localExports := t.localExports.push ⟨binding, exported, place⟩ }

/-- Defines a class and binds it. -/
def bindClass (r : Parts) (c : ClassNode) (name binding : Atom) : Emit Unit := do
  r.classDef name c
  access .putVarInit binding

def exportDefaultDecl (r : Parts) (s : Stmt) (place : Location) : Emit Unit := do
  match s with
  | .functionDecl f =>
    let binding ← f.id.elim (pure .defaultBinding) fun id => intern id.name
    exportLocal binding .defaultName place
  | .classDecl c =>
    match c.id with
    | some id =>
      let name ← intern id.name
      bindClass r c name name
      exportLocal name .defaultName place
    | none =>
      bindClass r c .defaultName .defaultBinding
      exportLocal .defaultBinding .defaultName place
  | other => unsupported .defaultExportDeclaration other.span

def exportDecl (r : Parts) (kind : ExportKind) (span : Span) : Emit Unit := do
  match kind with
  | .named specifiers none =>
    specifiers.forM fun s => do
      exportLocal (← intern s.binding) (← intern s.exported) s.span.start
  | .named specifiers (some source) =>
    specifiers.forM fun s => do
      let name ← intern s.binding
      let exported ← intern s.exported
      let source ← intern source
      modifyTables (·.exportFrom source name exported)
  | .byDefault e =>
    r.expr (some .defaultName) e
    access .putVarInit .defaultBinding
    exportLocal .defaultBinding .defaultName span.start
  | .defaultDecl s => exportDefaultDecl r s span.start
  | .decl s =>
    r.stmt [] s
    s.declared.forM fun id => do
      let name ← intern id.name
      exportLocal name name span.start
  | .all source =>
    let source ← intern source
    modifyTables (·.exportAllFrom source)
  | .allAs exported source =>
    let exported ← intern exported
    let source ← intern source
    modifyTables (·.exportFrom source .star exported)

/-! ## All statements -/

def stmt (r : Parts) (names : List Atom) (s : Stmt) : Emit Unit := do
  locate s.span
  match s with
  | .empty _ | .debugger _ | .functionDecl _ => pure ()
  | .expr e _ =>
    r.value e
    completeWith
  | .block b => block r b.body
  | .varDecl d => varDecl r d
  | .ifElse test yes no _ => ifElse r test yes no
  | .whileLoop test body _ => whileLoop r names test body
  | .doWhile body test _ => doWhile r names body test
  | .forLoop init test update body _ => forLoop r names init test update body
  | .forIn left right body _ => forIn r names left right body
  | .forOf left right body isAwait span => forOf r names left right body isAwait span
  | .switch discriminant cases _ => switch r names discriminant cases
  | .breakTo label span => jumpOut .breakOut label span
  | .continueTo label span => jumpOut .continueWith label span
  | .returnValue value span =>
    if (← frame).role.isTopLevel then misuse .returnOutsideFunction span
    match value with
    | some e => r.value e
    | none => op .undefined
    returnFrom
  | .throwValue value _ =>
    r.value value
    op .throw
  | .tryCatch body handler finalizer _ => tryCatch r body handler finalizer
  | .labeled label body span => labeled r names label body span
  | .withObject object body span => withObject r object body span
  | .classDecl c =>
    let some id := c.id | misuse .classWithoutName c.span
    let name ← intern id.name
    bindClass r c name name
  | .importDecl d => if (← get).tables.isNone then misuse .importOutsideModule d.span
  | .exportDecl kind span =>
    if (← get).tables.isNone || (← frame).role != .module then misuse .exportOutsideModule span
    exportDecl r kind span

end Emit

end ScriptBytecode
