import ScriptBytecode.Emission.Binding
import ScriptBytecode.Emission.Chain
import ScriptBytecode.Emission.Closure
import ScriptBytecode.Emission.Literal
import ScriptBytecode.Emission.Suspension
import ScriptBytecode.Opcode.SpecialObject

/-!
# Expressions
-/

namespace ScriptBytecode

def BinaryOp.opcode : BinaryOp → Opcode
  | add => .add
  | sub => .sub
  | mul => .mul
  | div => .div
  | mod => .mod
  | exp => .pow
  | eq => .eq
  | ne => .neq
  | strictEq => .strictEq
  | strictNe => .strictNeq
  | lt => .lt
  | le => .lte
  | gt => .gt
  | ge => .gte
  | shl => .shl
  | shr => .sar
  | ushr => .shr
  | bitAnd => .bitAnd
  | bitOr => .bitOr
  | bitXor => .bitXor
  | inObject => .inOp
  | instanceof => .instanceof

namespace Emit

/-! ## Operators -/

def unary (r : Parts) (o : UnaryOp) (arg : Expr) (span : Span) : Emit Unit := do
  match o with
  | .typeof =>
    match arg with
    | .ident id => access .getVarUndef (← intern id.name)
    | _ => r.value arg
    op .typeof
  | .void =>
    r.value arg
    ops [.drop, .undefined]
  | .delete => delete r arg span
  | .minus =>
    r.value arg
    op .neg
  | .plus =>
    r.value arg
    op .plus
  | .not =>
    r.value arg
    op .lnot
  | .bitNot =>
    r.value arg
    op .bitNot

def update (r : Parts) (o : UpdateOp) (isPrefix : Bool) (arg : Expr) : Emit Unit := do
  let t ← exprTarget r arg true
  if isPrefix then
    op (if o = .increment then .inc else .dec)
    store t true
  else
    op (if o = .increment then .postInc else .postDec)
    sinkOldValue t
    store t false

/-- Goes to `exit`, with the value on top of the stack, if it decides the result. -/
def shortCircuit (o : LogicalOp) (exit : Nat) : Emit Unit := do
  op .dup
  match o with
  | .and => jump .ifFalse exit
  | .or => jump .ifTrue exit
  | .nullish =>
    op .isUndefinedOrNull
    jump .ifFalse exit

def logical (r : Parts) (o : LogicalOp) (left right : Expr) : Emit Unit := do
  let exit ← newLabel
  r.value left
  shortCircuit o exit
  op .drop
  r.value right
  mark exit

def conditional (r : Parts) (test yes no : Expr) (name : Option Atom) : Emit Unit := do
  let other ← newLabel
  let exit ← newLabel
  r.value test
  jump .ifFalse other
  r.expr name yes
  jump .goto exit
  mark other
  r.expr name no
  mark exit

def sequence (r : Parts) : List Expr → Emit Unit
  | [] => pure ()
  | e :: rest => do
    r.value e
    rest.forM fun e => do
      op .drop
      r.value e

/-! ## Assignment -/

/-- Assigns to a target that `push` puts on the stack, with its old value if it is asked to. -/
def assignTo (r : Parts) (o : AssignOp) (push : Bool → Emit Target) (name : Option Atom)
    (value : Expr) : Emit Unit := do
  if o = .assign then
    let t ← push false
    r.expr name value
    store t true
  else
    let t ← push true
    match o.logical?, o.binary? with
    | some l, _ =>
      let short ← newLabel
      let exit ← newLabel
      shortCircuit l short
      op .drop
      r.expr name value
      store t true
      jump .goto exit
      mark short
      dropParts t
      mark exit
    | none, some b =>
      r.value value
      op b.opcode
      store t true
    | none, none => pure ()

def assign (r : Parts) (o : AssignOp) (target : Pattern) (value : Expr) (span : Span) :
    Emit Unit := do
  match target with
  | .ident id => assignTo r o (identTarget id) (some (← intern id.name)) value
  | .member m => assignTo r o (memberTarget r m) none value
  | p =>
    if o != .assign then misuse .compoundTarget span
    r.value value
    op .dup
    r.bind .assign p

/-! ## All expressions -/

def taggedTemplate (r : Parts) (tag : Expr) (t : Template) : Emit Unit := do
  let c ← callee r tag
  templateObject t
  t.expressions.forM r.value
  opCount (if c = .plain then .call else .callMethod) (t.expressions.length + 1)

def metaProperty (object property : String) (span : Span) : Emit Unit := do
  if object = "new" && property = "target" then
    if (← owner).role.isTopLevel then misuse .newTargetOutsideFunction span
    access .getVar .newTarget
  else if object = "import" && property = "meta" then
    if (← get).tables.isNone then misuse .importMetaOutsideModule span
    opInt .specialObject SpecialObject.importMeta.code
  else unsupported (.metaProperty object property) span

/-- The code of an expression in the optional chain at hand. -/
def spine (r : Parts) (name : Option Atom) (e : Expr) : Emit Unit := do
  match e with
  | .ident id => access .getVar (← intern id.name)
  | .literal l span => literal l span
  | .template t => template r t
  | .tagged tag t _ => taggedTemplate r tag t
  | .array elements _ => array r elements
  | .object members _ => object r members
  | .function f | .arrow f => functionExpr r f name
  | .classExpr c =>
    let className ← match c.id with
      | some id => intern id.name
      | none => pure (name.getD .emptyString)
    r.classDef className c
  | .thisValue _ => pushThis
  | .superValue span => misuse .superKeyword span
  | .member m => ownChain e (member r m)
  | .call f args isOptional _ => ownChain e (call r f args isOptional)
  | .chain inner _ => chain (r.spine inner)
  | .new f args _ => new r f args
  | .unary o arg span => unary r o arg span
  | .update o isPrefix arg _ => update r o isPrefix arg
  | .binary o left right _ =>
    r.value left
    r.value right
    op o.opcode
  | .logical o left right _ => logical r o left right
  | .assign o target value span => assign r o target value span
  | .conditional test yes no _ => conditional r test yes no name
  | .sequence es _ => sequence r es
  | .spread _ span => misuse .spreadOutsideList span
  | .yield arg delegate span => yield r arg delegate span
  | .await arg span => await r arg span
  | .metaProperty object property span => metaProperty object property span
  | .dynamicImport source options _ =>
    r.value source
    options.forM fun e => do
      r.value e
      op .drop
    op .dynamicImport
  | .privateIn s right _ =>
    let name ← privateAtom s
    r.value right
    access .hasPrivate name

/-- The code of an expression, which is no part of the optional chain at hand. -/
def expr (r : Parts) (name : Option Atom) (e : Expr) : Emit Unit :=
  withChainEnd none (spine r name e)

end Emit

end ScriptBytecode
