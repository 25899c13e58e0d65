import ScriptBytecode.Emission.Parts
import ScriptBytecode.Text.Integer

/-!
# Literals, templates and objects
-/

namespace ScriptBytecode.Emit

def literal (l : Literal) (span : Span) : Emit Unit := do
  match l with
  | .null => op .null
  | .undefined => op .undefined
  | .bool true => op .pushTrue
  | .bool false => op .pushFalse
  | .number x =>
    match Value.number x with
    | .int n => pushInt n
    | v => pushConstant v
  | .bigint text =>
    let some n := Text.integer? text | misuse (.bigIntLiteral text) span
    pushConstant (.bigint n)
  | .string s => pushText s
  | .regex pattern flags =>
    pushConstant (.string pattern)
    pushConstant (.string flags)
    op .regexp

/-! ## Templates -/

/-- The text of a template element outside a tagged template. -/
def cookedText (q : TemplateElement) : Emit String := do
  let some text := q.cooked | misuse .templateEscape q.span
  return text

/-- Puts expressions and the texts behind them on the stack; a text that is empty or missing is left
out. Returns their number. -/
def templateParts (r : Parts) : List Expr → List String → Emit Nat
  | [], _ => return 0
  | e :: es, texts => do
    r.value e
    let here ← match texts.head? with
      | some text => if text.isEmpty then pure 1 else do
        pushText text
        pure 2
      | none => pure 1
    return here + (← templateParts r es texts.tail)

/-- The first text, with all that follows concatenated to it. -/
def template (r : Parts) (t : Template) : Emit Unit := do
  let texts ← t.quasis.mapM cookedText
  pushText (texts.headD "")
  if !t.expressions.isEmpty then
    opAtom .getField2 .concat
    let argCount ← templateParts r t.expressions texts.tail
    opCount .callMethod argCount

/-- The object of texts that a tag function is called with. -/
def templateObject (t : Template) : Emit Unit := do
  let id ← freshId
  let cooked := t.quasis.map fun q => q.cooked.elim .undefined .string
  let raw := t.quasis.map fun q => Value.string q.raw
  pushConstant (.template id cooked raw)

/-! ## Objects -/

/-- Which of its properties a method is stored in. -/
inductive MethodSlot where
  | value | getter | setter
deriving DecidableEq, Inhabited

def MethodSlot.code : MethodSlot → Nat
  | value => 0
  | getter => 1
  | setter => 2

/-- The flag of methods that enumeration finds. -/
def enumerableFlag : Nat := 4

/-- Which stack values a spread copies from, to and without. -/
def spreadCopyMask : Nat := 2 ||| 1 <<< 2

/-- Defines a method of the object on top of the stack. -/
def method (r : Parts) (key : PropertyKey) (role : Role) (flags : Nat) (f : FunctionNode) :
    Emit Unit := do
  match key with
  | .computed e =>
    r.value e
    op .toPropkey
    pushClosure (← r.function .emptyString role f)
    opInt .defineMethodComputed flags
  | _ =>
    let key ← keyAtom key
    pushClosure (← r.function key role f)
    opAtomInt .defineMethod key flags

def methodSlot? (kind : PropertyKind) (isMethod : Bool) : Option MethodSlot :=
  match kind with
  | .get => some .getter
  | .set => some .setter
  | .init => if isMethod then some .value else none

/-- Defines a property of the object on top of the stack. -/
def property (r : Parts) (key : PropertyKey) (value : Expr) (isShorthand : Bool) (span : Span) :
    Emit Unit := do
  match key with
  | .computed e =>
    r.value e
    op .toPropkey
    r.value value
    if value.isAnonymousFunction then op .setNameComputed
    ops [.defineArrayEl, .drop]
  | .privateName _ => misuse .privateNameInObject span
  | _ =>
    let key ← keyAtom key
    if key = .proto && !isShorthand then
      r.value value
      op .setProto
    else
      r.expr (some key) value
      opAtom .defineField key

def objectMember (r : Parts) (m : ObjectMember) : Emit Unit := do
  match m with
  | .spread arg _ =>
    r.value arg
    op .null
    opInt .copyDataProperties spreadCopyMask
    ops [.drop, .drop]
  | .property key value kind isMethod isShorthand span =>
    locate span
    match methodSlot? kind isMethod with
    | some slot =>
      let .function f := value | misuse .methodWithoutBody span
      method r key (.method false) (slot.code + enumerableFlag) f
    | none => property r key value isShorthand span

def object (r : Parts) (members : List ObjectMember) : Emit Unit := do
  op .object
  members.forM (objectMember r)

end ScriptBytecode.Emit
