import ScriptBytecode.Emission.Target

/-!
# Binding patterns

Takes the value on top of the stack apart and binds its pieces.
-/

namespace ScriptBytecode

def PatternMember.isRest : PatternMember → Bool
  | .rest _ _ => true
  | _ => false

def PatternMember.hasComputedKey : PatternMember → Bool
  | .property (.computed _) _ _ _ => true
  | _ => false

namespace Emit

/-- Which stack values an object pattern with a rest copies from, to and without. -/
def restCopyMask : Nat := 1 <<< 2 ||| 2 <<< 5

def bindName (kind : BindKind) (name : Atom) : Emit Unit :=
  access (if kind = .lexical then .putVarInit else .putVar) name

/-- The name that a default value of a pattern may take. -/
def patternName? (p : Pattern) : Emit (Option Atom) := do
  match p with
  | .ident id => return some (← intern id.name)
  | _ => return none

/-- Binds a member of the object on top of the stack, which stays. With `hasRest` the key is noted in
the object below. -/
def bindMember (r : Parts) (kind : BindKind) (hasRest : Bool) (m : PatternMember) : Emit Unit := do
  match m with
  | .property (.computed e) value _ _ =>
    op .dup
    r.value e
    op .getArrayEl
    r.bind kind value
  | .property key value _ _ =>
    op .dup
    let key ← keyAtom key
    opAtom .getField key
    r.bind kind value
    if hasRest then
      ops [.swap, .null]
      opAtom .defineField key
      op .swap
  | .rest target _ =>
    op .object
    opInt .copyDataProperties restCopyMask
    r.bind kind target
    op .drop

def bindObject (r : Parts) (kind : BindKind) (members : List PatternMember) (span : Span) :
    Emit Unit := do
  let hasRest := members.getLast?.any PatternMember.isRest
  if hasRest then
    if members.any PatternMember.hasComputedKey then unsupported .computedKeyBesideRest span
    ops [.object, .swap]
  members.forM (bindMember r kind hasRest)
  op .drop

/-- Binds an element of the iterator on top of the stack, which stays. -/
def bindElement (r : Parts) (kind : BindKind) : Option Pattern → Emit Unit
  | none => do
    opInt .forOfNext 0
    ops [.drop, .drop]
  | some (.rest target _) => do
    let next ← newLabel
    let done ← newLabel
    opInt .arrayFrom 0
    pushInt 0
    mark next
    opInt .forOfNext 2
    jump .ifTrue done
    ops [.defineArrayEl, .inc]
    jump .goto next
    mark done
    ops [.drop, .drop]
    r.bind kind target
  | some p => do
    opInt .forOfNext 0
    op .drop
    r.bind kind p

def bindArray (r : Parts) (kind : BindKind) (elements : List (Option Pattern)) : Emit Unit := do
  op .forOfStart
  elements.forM (bindElement r kind)
  op .iteratorClose

def bind (r : Parts) (kind : BindKind) : Pattern → Emit Unit
  | .ident id => do bindName kind (← intern id.name)
  | .withDefault target value _ => do
    let name ← patternName? target
    orDefault r value name
    r.bind kind target
  | .object members span => bindObject r kind members span
  | .array elements _ => bindArray r kind elements
  | .member m => do
    if kind != .assign then misuse .memberInBinding m.span
    let t ← memberTarget r m false
    raiseValue t
    store t false
  | .rest _ span => misuse .restOutsidePattern span

end Emit

end ScriptBytecode
