/-!
# Label tables

The labels of one function: where each is bound and which jumps refer to it.
-/

namespace ScriptBytecode

structure LabelSlot where
  refs : Nat
  pos : Option Nat
  /-- The offsets of the operands that refer to the label. -/
  sites : List Nat
deriving DecidableEq, Inhabited

structure LabelTable where
  slots : List LabelSlot
deriving DecidableEq, Inhabited

namespace LabelTable

def empty : LabelTable := ⟨[]⟩

/-- A new label, bound nowhere. -/
def new (t : LabelTable) : Nat × LabelTable :=
  (t.slots.length, ⟨t.slots ++ [⟨0, none, []⟩]⟩)

/-- Changes to a label that does not exist have no effect. -/
def modify (t : LabelTable) (l : Nat) (f : LabelSlot → LabelSlot) : LabelTable :=
  ⟨t.slots.modify l f⟩

def bind (t : LabelTable) (l pos : Nat) : LabelTable :=
  t.modify l ({ · with pos := some pos })

def addRef (t : LabelTable) (l site : Nat) : LabelTable :=
  t.modify l fun s => { s with refs := s.refs + 1, sites := s.sites ++ [site] }

def release (t : LabelTable) (l : Nat) : LabelTable :=
  t.modify l fun s => { s with refs := s.refs - 1 }

def get? (t : LabelTable) (l : Nat) : Option LabelSlot :=
  t.slots[l]?

def isBound (t : LabelTable) (l : Nat) : Bool :=
  (t.get? l).any (·.pos.isSome)

def size (t : LabelTable) : Nat :=
  t.slots.length

/-- The labels that are referred to and bound nowhere. -/
def unbound (t : LabelTable) : List Nat :=
  (List.range t.size).filter fun l => (t.get? l).any fun s => 0 < s.refs && s.pos.isNone

end LabelTable

end ScriptBytecode
