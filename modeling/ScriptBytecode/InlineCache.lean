import ScriptBytecode.Instr.Codec

/-!
# Inline caches

Every property name that code reads or writes directly has one cache slot, in the order of first use,
which counts the places that share it.
-/

namespace ScriptBytecode

structure CacheSlot where
  atom : Atom
  uses : Nat
deriving DecidableEq, Inhabited

abbrev InlineCache := List CacheSlot

namespace InlineCache

def slotOf? (c : InlineCache) (a : Atom) : Option Nat :=
  c.findIdx? (·.atom == a)

/-- Counts one more use of a name. -/
def add : InlineCache → Atom → InlineCache
  | [], a => [⟨a, 1⟩]
  | s :: rest, a => if s.atom = a then { s with uses := s.uses + 1 } :: rest else s :: add rest a

/-- The name that an instruction reads or writes as a property. -/
def access? (i : Instr) : Option Atom :=
  match i.op with
  | .final .getField | .final .getField2 | .final .putField => i.arg.atom?
  | _ => none

/-- The slots of finished code. -/
def ofCode (code : Bytes) : Result InlineCache := do
  let instrs ← decodeFinal code
  return (instrs.filterMap (access? ·.instr)).foldl add []

end InlineCache

end ScriptBytecode
