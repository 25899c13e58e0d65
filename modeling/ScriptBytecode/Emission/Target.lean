import ScriptBytecode.Emission.Parts

/-!
# Assignment targets

A target is put on the stack in parts: the object and the key that the store will need and, where the
old value matters, that value above them.
-/

namespace ScriptBytecode

/-- A target whose parts are on the stack. -/
inductive Target where
  /-- A name, which needs no part. -/
  | var (name : Atom)
  /-- A name that the object of a `with` statement may hide: object and key. -/
  | ref
  /-- The object. -/
  | field (key : Atom)
  /-- Object and key. -/
  | element
  /-- The object. -/
  | privateField (name : Atom)
  /-- `this`, the object that is searched, and the key. -/
  | superField
deriving DecidableEq, Inhabited

/-- The number of parts. -/
def Target.depth : Target → Nat
  | .var _ => 0
  | .field _ | .privateField _ => 1
  | .ref | .element => 2
  | .superField => 3

namespace Emit

/-- Puts `this` and the prototype of the home object on the stack. -/
def superBase (span : Span) : Emit Unit := do
  if !(← owner).role.isMethod then misuse .superOutsideMethod span
  pushThis
  access .getVar .homeObject
  op .getSuper

/-- The key of a property of `super`. -/
def superKey (r : Parts) (key : MemberKey) (span : Span) : Emit Unit := do
  match key with
  | .name s => pushText s
  | .computed e =>
    r.value e
    op .toPropkey
  | .privateName _ => misuse .privateNameOnSuper span

/-- A name as a target; with `read`, its value is put on the stack too. -/
def nameTarget (name : Atom) (read : Bool) : Emit Target := do
  if ← underWith then
    let label ← newLabel
    let scope ← currentScope
    put ⟨.pseudo .makeRef, .atomLabel name label (scopeOperand scope)⟩
    if read then op .getRefValue
    return .ref
  else
    if read then access .getVar name
    return .var name

/-- Strict code may not assign to `eval` or `arguments`. -/
def identTarget (id : Ident) (read : Bool) : Emit Target := do
  let name ← intern id.name
  if (← isStrict) && (name = .eval || name = .arguments) then
    misuse (.strictAssignment (← displayName name)) id.span
  nameTarget name read

def memberTarget (r : Parts) (m : Member) (read : Bool) : Emit Target := do
  if m.isOptional then misuse .optionalAssignmentTarget m.span
  match m.object with
  | .superValue span =>
    superBase span
    superKey r m.key m.span
    if read then ops [.dup3, .getSuperValue]
    return .superField
  | object =>
    r.value object
    match m.key with
    | .name s =>
      let key ← intern s
      if read then opAtom .getField2 key
      return .field key
    | .computed e =>
      r.value e
      if read then ops [.toPropkey2, .dup2, .getArrayEl]
      return .element
    | .privateName s =>
      let name ← privateAtom s
      if read then access .getPrivateKeep name
      return .privateField name

def exprTarget (r : Parts) (e : Expr) (read : Bool) : Emit Target := do
  match e with
  | .ident id => identTarget id read
  | .member m => memberTarget r m read
  | other => misuse .assignmentTarget other.span

/-- Stores the value on top of the stack; with `keep` a copy of it stays. -/
def store (t : Target) (keep : Bool) : Emit Unit := do
  if keep then
    op (match t.depth with
      | 0 => .dup
      | 1 => .insert2
      | 2 => .insert3
      | _ => .insert4)
  match t with
  | .var name => access .putVar name
  | .ref => op .putRefValue
  | .field key => opAtom .putField key
  | .element => op .putArrayEl
  | .privateField name => access .putPrivate name
  | .superField => op .putSuperValue

/-- Moves a value from below the parts of a target to above them. -/
def raiseValue (t : Target) : Emit Unit :=
  match t.depth with
  | 0 => pure ()
  | 1 => op .swap
  | 2 => op .rot3l
  | _ => op .rot4l

/-- Moves the old value, which is below the new one, to below the parts of a target. -/
def sinkOldValue (t : Target) : Emit Unit :=
  match t.depth with
  | 0 => pure ()
  | 1 => op .perm3
  | 2 => op .perm4
  | _ => op .perm5

/-- Drops the parts of a target from below the value on top of the stack. -/
def dropParts (t : Target) : Emit Unit :=
  ops (.replicate t.depth .nip)

end Emit

end ScriptBytecode
