import ScriptBytecode.Instr
import ScriptBytecode.Error

/-!
# Instructions as bytes

Code under construction keeps label numbers in label fields. Finished code holds in a label field the
distance from that field to the target; `decodeFinal` turns it into the absolute target.
-/

namespace ScriptBytecode

/-- The operand fields of a shape. A field that the operand lacks is written as zero. -/
def Shape.encode (arg : Operand) (label : Nat) : Shape → Bytes
  | .empty => []
  | .int _ w => number w
  | .intPair =>
    match arg with
    | .intPair a b => leBytes 2 a ++ leBytes 2 b
    | _ => leBytes 4 0
  | .atom => handle
  | .atomInt w => handle ++ number w
  | .label w => leBytes w label
  | .atomLabel w => handle ++ leBytes 4 label ++ number w
  | .labelInt w => leBytes 4 label ++ number w
where
  number (w : Nat) : Bytes := leBytes w (unsignedWord (8 * w) (arg.int?.getD 0))
  handle : Bytes := leBytes 4 (arg.atom?.elim 0 (·.id))

/-- The bytes of an instruction whose label field holds `label`. -/
def Instr.encode (i : Instr) (label : Nat) : Bytes :=
  i.op.byte.toUInt8 :: i.op.format.shape.encode i.arg label

/-- Code under construction as bytes. -/
def encodeRaw (code : List Instr) : Bytes :=
  code.flatMap fun i => i.encode (i.arg.label?.getD 0)

/-- Whether bytes are code under construction or finished code. -/
inductive Phase where
  | raw
  | final
deriving DecidableEq

namespace Decode

/-- The next `w` bytes as a number; they stand at offset `pos`. -/
def field (pos w : Nat) (bytes : Bytes) : Result (Nat × Bytes) :=
  if (bytes.take w).length = w then .ok (ofLeBytes (bytes.take w), bytes.drop w)
  else .error (.internal (.truncatedInstr pos))

/-- A label field: a label number, or the target that a distance leads to, which lies in the code or
just behind it. -/
def label (phase : Phase) (total start pos w : Nat) (bytes : Bytes) : Result (Nat × Bytes) :=
  match phase with
  | .raw => field pos 4 bytes
  | .final => do
    let (n, rest) ← field pos w bytes
    let target := (pos : Int) + signedWord (8 * w) n
    if target < 0 || (total : Int) < target then .error (.internal (.jumpOutside start target))
    else .ok (target.toNat, rest)

/-- The operand at offset `pos` of the instruction at `start`, in code of `total` bytes. -/
def operand (phase : Phase) (total start pos : Nat) (bytes : Bytes) :
    Shape → Result (Operand × Bytes)
  | .empty => .ok (.none, bytes)
  | .int signed w => do
    let (n, rest) ← field pos w bytes
    return (.int (if signed then signedWord (8 * w) n else n), rest)
  | .intPair => do
    let (a, rest) ← field pos 2 bytes
    let (b, rest) ← field (pos + 2) 2 rest
    return (.intPair a b, rest)
  | .atom => do
    let (a, rest) ← field pos 4 bytes
    return (.atom ⟨a⟩, rest)
  | .atomInt w => do
    let (a, rest) ← field pos 4 bytes
    let (n, rest) ← field (pos + 4) w rest
    return (.atomInt ⟨a⟩ n, rest)
  | .label w => do
    let (l, rest) ← label phase total start pos w bytes
    return (.label l, rest)
  | .atomLabel w => do
    let (a, rest) ← field pos 4 bytes
    let (l, rest) ← label phase total start (pos + 4) 4 rest
    let (n, rest) ← field (pos + 8) w rest
    return (.atomLabel ⟨a⟩ l n, rest)
  | .labelInt w => do
    let (l, rest) ← label phase total start pos 4 bytes
    let (n, rest) ← field (pos + 4) w rest
    return (.labelInt l n, rest)

def opcode (phase : Phase) (byte : Nat) : Option Op :=
  match phase with
  | .raw => Op.ofRawByte? byte
  | .final => Op.ofFinalByte? byte

/-- The instruction with opcode byte `b` at offset `pos`, and the bytes after it. -/
def instr (phase : Phase) (total pos : Nat) (b : UInt8) (bytes : Bytes) : Result (Instr × Bytes) :=
  match opcode phase b.toNat with
  | none => .error (.unknownOpcode b.toNat pos)
  | some op => do
    let (arg, rest) ← operand phase total pos (pos + 1) bytes op.format.shape
    return (⟨op, arg⟩, rest)

/-- Reads at most `fuel` instructions, the first at offset `pos`, behind those in `done`. -/
def instrs (phase : Phase) (total : Nat) : Nat → Nat → Array Located → Bytes → Result (Array Located)
  | 0, _, done, _ => .ok done
  | _ + 1, _, done, [] => .ok done
  | fuel + 1, pos, done, b :: bytes => do
    let (i, rest) ← instr phase total pos b bytes
    instrs phase total fuel (pos + 1 + i.op.format.operandSize) (done.push ⟨pos, i⟩) rest

end Decode

/-- An instruction takes at least a byte, so the length of the code bounds their number. -/
def decode (phase : Phase) (code : Bytes) : Result (List Located) :=
  return (← Decode.instrs phase code.length code.length 0 #[] code).toList

def decodeRaw (code : Bytes) : Result (List Located) :=
  decode .raw code

def decodeFinal (code : Bytes) : Result (List Located) :=
  decode .final code

end ScriptBytecode
