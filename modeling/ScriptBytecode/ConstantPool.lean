import ScriptBytecode.Value

/-!
# Constant pools

A pool holds the constants of one function without repetition: primitive values by content (doubles by
their bits), compound values and nested functions by identity.
-/

namespace ScriptBytecode

inductive Constant where
  | value (v : Value)
  /-- A nested function that has no record yet. -/
  | function (n : Nat)

instance : Inhabited Constant := ⟨.value .null⟩

structure ConstantPool where
  entries : Array Constant
deriving Inhabited

namespace ConstantPool

def empty : ConstantPool := ⟨#[]⟩

/-- Are two values one constant? -/
def isSame (a b : Value) : Bool :=
  match a.identity?, b.identity? with
  | some i, some j => i == j
  | none, none => a.same b
  | _, _ => false

def holds (v : Value) : Constant → Bool
  | .value w => isSame v w
  | .function _ => false

def holdsFunction (n : Nat) : Constant → Bool
  | .value _ => false
  | .function m => n == m

def push (p : ConstantPool) (c : Constant) : Nat × ConstantPool :=
  (p.entries.size, ⟨p.entries.push c⟩)

/-- The index of a value, which is added if it is new. -/
def add (p : ConstantPool) (v : Value) : Nat × ConstantPool :=
  match p.entries.findIdx? (holds v) with
  | some i => (i, p)
  | none => p.push (.value v)

/-- The index of a nested function, which is added if it is new. -/
def addFunction (p : ConstantPool) (n : Nat) : Nat × ConstantPool :=
  match p.entries.findIdx? (holdsFunction n) with
  | some i => (i, p)
  | none => p.push (.function n)

def get? (p : ConstantPool) (i : Nat) : Option Constant :=
  p.entries[i]?

def size (p : ConstantPool) : Nat :=
  p.entries.size

end ConstantPool

end ScriptBytecode
