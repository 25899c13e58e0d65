import ScriptBytecode.Instr.Codec

/-!
# Code buffers

A buffer that code is appended to, field by field. Fields written before can be overwritten.
-/

namespace ScriptBytecode

structure CodeBuffer where
  code : Bytes
  /-- Where the last opcode was put. -/
  lastOpPos : Option Nat
deriving DecidableEq, Inhabited

namespace CodeBuffer

def empty : CodeBuffer := ⟨[], none⟩

def size (b : CodeBuffer) : Nat :=
  b.code.length

def putOp (b : CodeBuffer) (op : Op) : CodeBuffer :=
  ⟨b.code ++ [op.byte.toUInt8], some b.size⟩

/-- Appends a field of `width` bytes. -/
def put (b : CodeBuffer) (width n : Nat) : CodeBuffer :=
  { b with code := b.code ++ leBytes width n }

/-- Overwrites a field; one that does not lie in the buffer whole is left alone. -/
def patch (b : CodeBuffer) (pos width n : Nat) : CodeBuffer :=
  if pos + width ≤ b.size then
    { b with code := b.code.take pos ++ leBytes width n ++ b.code.drop (pos + width) }
  else b

/-- The last opcode, read as code under construction. -/
def lastOp? (b : CodeBuffer) : Option Op := do
  let pos ← b.lastOpPos
  let byte ← b.code[pos]?
  Op.ofRawByte? byte.toNat

/-- Other content, of which no opcode is known. -/
def replace (code : Bytes) : CodeBuffer :=
  ⟨code, none⟩

end CodeBuffer

end ScriptBytecode
