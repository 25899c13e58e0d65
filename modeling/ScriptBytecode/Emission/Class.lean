import ScriptBytecode.Emission.Declaration
import ScriptBytecode.Emission.Exit
import ScriptBytecode.Emission.Literal

/-!
# Classes

A class makes, in this order: variables for its private names; the parent class and the constructor;
methods, accessors and the keys of fields, as they come; the function that initializes the fields of
instances; and the fields and blocks of the class itself.
-/

namespace ScriptBytecode

/-- The constructor of a class that has none. -/
def ClassNode.defaultConstructor (c : ClassNode) : FunctionNode :=
  let args : Ident := ⟨"args", c.span⟩
  let forward : Stmt :=
    .expr (.call (.superValue c.span) [.spread (.ident args) c.span] false c.span) c.span
  let isDerived := c.heritage.isSome
  { id := none
    params := if isDerived then [.rest (.ident args) c.span] else []
    body := .block (if isDerived then [forward] else [])
    isAsync := false
    isGenerator := false
    isArrow := false
    source := none
    span := c.span }

def ClassNode.constructor? (c : ClassNode) : Option FunctionNode :=
  c.body.findSome? fun
    | .method _ value .constructor _ _ => some value
    | _ => none

namespace ClassElement

/-- A private name that an element declares, and what it stands for. -/
def privateName? : ClassElement → Option (String × VarKind × Span)
  | field (.privateName name) _ _ span => some (name, .privateField, span)
  | method (.privateName name) _ .get _ span => some (name, .privateGetter, span)
  | method (.privateName name) _ .set _ span => some (name, .privateSetter, span)
  | method (.privateName name) _ _ _ span => some (name, .privateMethod, span)
  | _ => none

/-- Is it a private method or accessor of instances, or with `ofClass` of the class itself? -/
def needsBrand (ofClass : Bool) : ClassElement → Bool
  | method (.privateName _) _ _ isStatic _ => isStatic == ofClass
  | _ => false

def isInstanceField : ClassElement → Bool
  | field _ _ isStatic _ => !isStatic
  | _ => false

end ClassElement

/-- The key of a field when it is initialized. -/
inductive FieldKey where
  | named (key : Atom)
  /-- A hidden variable holds the key. -/
  | computed (holder : Atom)
  | privateName (name : Atom)
deriving DecidableEq, Inhabited

/-- What an initializer does. -/
inductive InitStep where
  | field (key : FieldKey) (value : Option Expr)
  | block (body : List Stmt)

namespace Emit

/-! ## Private names -/

/-- What a private name stands for after another declaration of it; a getter and a setter may share
one. -/
def joinKinds : VarKind → VarKind → Option VarKind
  | .privateGetter, .privateSetter | .privateSetter, .privateGetter => some .privateAccessor
  | _, _ => none

def addPrivateName (declared : List (Atom × VarKind)) (e : ClassElement) :
    Emit (List (Atom × VarKind)) := do
  match e.privateName? with
  | none => return declared
  | some (name, kind, span) =>
    let name ← privateAtom name
    if name = .privateConstructor then misuse .privateConstructor span
    match declared.lookup name with
    | none => return declared ++ [(name, kind)]
    | some earlier =>
      let some joined := joinKinds earlier kind
        | misuse (.duplicatePrivateName (← displayName name)) span
      return declared.map fun d => if d.1 = name then (name, joined) else d

/-- The variable of the setter of a private name that has a getter too. -/
def setterAtom (name : Atom) : Emit Atom := do
  intern ((← displayName name) ++ "<set>")

def declarePrivateNames (elements : List ClassElement) : Emit Unit := do
  let declared ← elements.foldlM addPrivateName []
  declared.forM fun (name, kind) => do
    declare name kind false true
    if kind = .privateAccessor then declare (← setterAtom name) .privateSetter false true

/-- Makes the symbols of private fields. -/
def makePrivateSymbols (elements : List ClassElement) : Emit Unit :=
  elements.forM fun
    | .field (.privateName name) _ _ _ => do
      let name ← privateAtom name
      opAtom .privateSymbol name
      access .putVarInit name
    | _ => pure ()

/-! ## Methods -/

def isAccessor (name : Atom) : Emit Bool := do
  let scopes := (← frame).scopes
  return ((scopes.lookup? name scopes.current).bind scopes.var?).any (·.kind = .privateAccessor)

/-- Defines a method of the class whose prototype is on top of the stack, or with `isStatic` of the
class itself, which is below. -/
def classMethod (r : Parts) (key : PropertyKey) (f : FunctionNode) (kind : MethodKind)
    (isStatic : Bool) (span : Span) : Emit Unit := do
  locate span
  if isStatic then op .swap
  match key with
  | .privateName name =>
    let name ← privateAtom name
    pushClosure (← r.function name (.method true) f)
    op .setHomeObject
    let slot ← if kind = .set && (← isAccessor name) then setterAtom name else pure name
    access .putVarInit slot
  | _ =>
    let slot : MethodSlot := match kind with
      | .get => .getter
      | .set => .setter
      | _ => .value
    method r key (.method true) slot.code f
  if isStatic then op .swap

/-! ## Fields -/

/-- Evaluates the key of a field if it is computed; `count` numbers the hidden variables. -/
def fieldKey (r : Parts) (key : PropertyKey) (count : Nat) : Emit FieldKey := do
  match key with
  | .privateName name => return .privateName (← privateAtom name)
  | .computed e =>
    let v ← intern ("<computed_field" ++ toString count ++ ">")
    declare v .normal false false
    r.value e
    op .toPropkey
    access .putVarInit v
    return .computed v
  | _ => return .named (← keyAtom key)

/-- Emits methods and field keys, and returns what the initializers of instances and of the class are
to do. -/
def elements (r : Parts) : List ClassElement → Nat → Emit (List InitStep × List InitStep)
  | [], _ => return ([], [])
  | e :: rest, count => do
    match e with
    | .method _ _ .constructor _ _ => elements r rest count
    | .method key value kind isStatic span =>
      classMethod r key value kind isStatic span
      elements r rest count
    | .field key value isStatic _ =>
      let step := InitStep.field (← fieldKey r key count) value
      let count := if key matches .computed _ then count + 1 else count
      let (instances, statics) ← elements r rest count
      return if isStatic then (instances, step :: statics) else (step :: instances, statics)
    | .staticBlock body _ =>
      let (instances, statics) ← elements r rest count
      return (instances, .block body :: statics)

def fieldValue (r : Parts) (value : Option Expr) (name : Option Atom) : Emit Unit :=
  match value with
  | some e => r.expr name e
  | none => op .undefined

def initStep (r : Parts) : InitStep → Emit Unit
  | .field key value => do
    op .pushThis
    match key with
    | .named key =>
      fieldValue r value (some key)
      opAtom .defineField key
    | .computed v =>
      access .getVar v
      fieldValue r value none
      if value.any (·.isAnonymousFunction) then op .setNameComputed
      ops [.defineArrayEl, .drop]
    | .privateName name =>
      access .getVar name
      fieldValue r value (some name)
      op .definePrivateField
    op .drop
  | .block stmts => do
    declareVars (stmtsVarNames stmts)
    block r stmts

/-- Emits the function that initializes fields of `this`. -/
def initializer (r : Parts) (steps : List InitStep) (addBrand : Bool) (span : Span) : Emit Nat :=
  nested .fieldsInit .fieldInitializer span do
    if addBrand then
      op .pushThis
      access .getVar .homeObject
      op .addBrand
    steps.forM (initStep r)
    returnWith false

/-! ## The whole class -/

/-- The flag of a class with a parent class. -/
def heritageFlag (isDerived : Bool) : Nat :=
  if isDerived then 1 else 0

def classBody (r : Parts) (name : Atom) (c : ClassNode) : Emit Unit := do
  let isDerived := c.heritage.isSome
  let instanceBrand := c.body.any (·.needsBrand false)
  let classBrand := c.body.any (·.needsBrand true)
  let initializesFields := instanceBrand || c.body.any (·.isInstanceField)
  let ownName ← c.id.mapM fun id => intern id.name
  ownName.forM fun name => declare name .normal true true
  declarePrivateNames c.body
  if initializesFields then declare .fieldsInit .normal false false
  if instanceBrand then declare .brand .normal false false
  makePrivateSymbols c.body

  match c.heritage with
  | some e => r.value e
  | none => op .undefined
  let made ← r.function name (.constructor isDerived initializesFields)
    (c.constructor?.getD c.defaultConstructor)
  opInt .pushConst (← addFunction made)
  opAtomInt .defineClass name (heritageFlag isDerived)
  if instanceBrand then
    op .dup
    access .putVarInit .brand
  if classBrand then ops [.swap, .dup, .dup, .addBrand, .swap]

  let (instances, statics) ← elements r c.body 0
  if initializesFields then
    pushClosure (← initializer r instances instanceBrand c.span)
    op .setHomeObject
    access .putVarInit .fieldsInit
  op .drop
  ownName.forM fun name => do
    op .dup
    access .putVarInit name
  if !statics.isEmpty then
    let child ← initializer r statics false c.span
    op .dup
    pushClosure child
    op .setHomeObject
    opCount .callMethod 0
    op .drop

/-- Leaves a class on the stack. Its code is strict. -/
def classDef (r : Parts) (name : Atom) (c : ClassNode) : Emit Unit := do
  locate c.span
  let strict ← isStrict
  modifyFrame ({ · with strict := true })
  inScope (classBody r name c)
  modifyFrame ({ · with strict })

end Emit

end ScriptBytecode
