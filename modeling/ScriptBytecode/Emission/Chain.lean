import ScriptBytecode.Emission.Target

/-!
# Members, calls and optional chains

A nullish value at an optional link ends the whole chain that the link belongs to.
-/

namespace ScriptBytecode

/-- Is there an optional link among the members and calls that an expression is made of? -/
def Expr.hasOptionalLink : Expr → Bool
  | .member ⟨inner, _, isOptional, _⟩ => isOptional || inner.hasOptionalLink
  | .call callee _ isOptional _ => isOptional || callee.hasOptionalLink
  | _ => false
termination_by structural e => e

def Expr.isSpread : Expr → Bool
  | .spread _ _ => true
  | _ => false

namespace Emit

/-- What a callee leaves on the stack. -/
inductive Callee where
  /-- The function. -/
  | plain
  /-- The value of `this` and the function. -/
  | method
deriving DecidableEq, Inhabited

/-- How an argument list is applied. -/
inductive Application where
  | call | construct
deriving DecidableEq, Inhabited

def Application.code : Application → Nat
  | call => 0
  | construct => 2

/-- Emits an expression as an optional chain of its own if it has optional links and is in none. -/
def ownChain (e : Expr) (body : Emit Unit) : Emit Unit := do
  if (← draft).chainEnd.isNone && e.hasOptionalLink then chain body else body

/-- Leaves the chain if the value on top of the stack is nullish, with `undefined` in place of it and
of the `below` values under it. -/
def optionalLink (below : Nat) : Emit Unit := do
  let some exit := (← draft).chainEnd | fault .optionalOutsideChain
  if below = 0 then
    put ⟨.pseudo .optionalLink, .label exit⟩
  else
    let present ← newLabel
    ops [.dup, .isUndefinedOrNull]
    jump .ifFalse present
    ops (.replicate (below + 1) .drop)
    op .undefined
    jump .goto exit
    mark present

/-- Leaves a member of `super` on the stack. -/
def superMember (r : Parts) (m : Member) (span : Span) : Emit Unit := do
  superBase span
  superKey r m.key m.span
  op .getSuperValue

/-- The object of a member, behind its optional link. -/
def memberObject (r : Parts) (m : Member) : Emit Unit := do
  r.spine m.object
  if m.isOptional then optionalLink 0

def member (r : Parts) (m : Member) : Emit Unit := do
  match m.object with
  | .superValue span => superMember r m span
  | _ =>
    memberObject r m
    let inChain := (← draft).chainEnd.isSome
    match m.key with
    | .name s =>
      let key ← intern s
      if inChain then put ⟨.pseudo .chainField, .atom key⟩ else opAtom .getField key
    | .computed e =>
      r.value e
      if inChain then put ⟨.pseudo .chainElement, .none⟩ else op .getArrayEl
    | .privateName s => access .getPrivate (← privateAtom s)

def callee (r : Parts) (e : Expr) : Emit Callee := do
  match e with
  | .member m =>
    match m.object with
    | .superValue span =>
      pushThis
      superMember r m span
    | _ =>
      memberObject r m
      match m.key with
      | .name s => opAtom .getField2 (← intern s)
      | .computed e =>
        r.value e
        op .getArrayEl2
      | .privateName s => access .getPrivateKeep (← privateAtom s)
    return .method
  | .ident id =>
    if ← underWith then
      access .getRef (← intern id.name)
      return .method
    else
      r.spine e
      return .plain
  | _ =>
    r.spine e
    return .plain

/-- An array of elements, among which there may be spreads and holes. The elements before the first
of these are put on the stack, all others are added one by one. -/
def array (r : Parts) (elements : List (Option Expr)) : Emit Unit := do
  let isPlain : Option Expr → Bool
    | some e => !e.isSpread
    | none => false
  let (plain, others) := elements.span isPlain
  plain.forM (·.forM r.value)
  opCount .arrayFrom plain.length
  if !others.isEmpty then
    pushInt plain.length
    others.forM fun
      | some (.spread arg _) => do
        r.value arg
        op .append
      | some e => do
        r.value e
        ops [.defineArrayEl, .inc]
      | none => op .inc
    if elements.getLast? matches some none then
      -- holes at the end count for the length
      op .dup1
      opAtom .putField .length
    else op .drop

/-- Arguments and call, with an array in place of the arguments if there is a spread among them. -/
def applyTo (r : Parts) (args : List Expr) (prepare : Emit Unit) (how : Application)
    (plainly : Opcode) : Emit Unit := do
  if args.any (·.isSpread) then
    prepare
    array r (args.map some)
    opCount .apply how.code
  else
    args.forM r.value
    opCount plainly args.length

def callWith (r : Parts) (c : Callee) (args : List Expr) : Emit Unit :=
  match c with
  | .plain => applyTo r args (op .undefined) .call .call
  | .method => applyTo r args (op .swap) .call .callMethod

/-- Constructs through the class on the stack. -/
def construct (r : Parts) (args : List Expr) : Emit Unit :=
  applyTo r args (pure ()) .construct .callConstructor

/-- Runs the field initializer of the class on `this`. -/
def initializeFields : Emit Unit := do
  access .getVar .fieldsInit
  pushThis
  op .swap
  opCount .callMethod 0
  op .drop

/-- Constructs through the parent class, binds `this` and initializes the fields. -/
def superCall (r : Parts) (args : List Expr) (span : Span) : Emit Unit := do
  let owner ← owner
  if !owner.role.isDerived then misuse .superCallOutsideDerived span
  access .getVar .activeFunction
  op .getSuper
  access .getVar .newTarget
  construct r args
  op .dup
  access .putVarInit .this
  if owner.role.initializesFields then initializeFields

def call (r : Parts) (e : Expr) (args : List Expr) (isOptional : Bool) : Emit Unit := do
  match e with
  | .superValue span => superCall r args span
  | _ =>
    let c ← callee r e
    if isOptional then optionalLink (if c = .method then 1 else 0)
    callWith r c args

def new (r : Parts) (e : Expr) (args : List Expr) : Emit Unit := do
  r.value e
  op .dup
  construct r args

/-! ## Delete -/

def deleteMember (r : Parts) (m : Member) (span : Span) : Emit Unit := do
  memberObject r m
  match m.key with
  | .name s => pushText s
  | .computed e => r.value e
  | .privateName _ => misuse .deletePrivateField span
  op .delete

/-- What is no reference is only evaluated. -/
def deleteValue (r : Parts) (e : Expr) : Emit Unit := do
  r.value e
  ops [.drop, .pushTrue]

def delete (r : Parts) (e : Expr) (span : Span) : Emit Unit := do
  match e with
  | .ident id =>
    if ← isStrict then misuse .deleteIdentifierInStrict span
    access .deleteVar (← intern id.name)
  | .member m =>
    if m.object matches .superValue _ then unsupported .deleteSuperProperty span
    ownChain e (deleteMember r m span)
  | .chain (.member m) _ => chain (deleteMember r m span)
  | _ => deleteValue r e

end Emit

end ScriptBytecode
