import ScriptBytecode.Opcode
import ScriptBytecode.Word
import ScriptBytecode.Atom

/-!
# Instructions

An instruction is an opcode with an operand. Label operands name a label in code under construction and
an absolute target in code that was read back.
-/

namespace ScriptBytecode

inductive Operand where
  | none
  /-- A number, slot, constant index or count. -/
  | int (n : Int)
  | atom (a : Atom)
  | atomInt (a : Atom) (n : Nat)
  | label (l : Nat)
  | atomLabel (a : Atom) (l n : Nat)
  | labelInt (l n : Nat)
  /-- An argument count and a scope. -/
  | intPair (a b : Nat)
deriving DecidableEq, Inhabited

namespace Operand

def atom? : Operand → Option Atom
  | atom a | atomInt a _ | atomLabel a _ _ => some a
  | _ => Option.none

def label? : Operand → Option Nat
  | label l | atomLabel _ l _ | labelInt l _ => some l
  | _ => Option.none

/-- The number in an operand, as a signed 32-bit word. -/
def int? : Operand → Option Int
  | int n => some n
  | atomInt _ n | atomLabel _ _ n | labelInt _ n | intPair n _ => some (signedWord 32 n)
  | _ => Option.none

/-- The same operand with another label. -/
def withLabel (o : Operand) (l : Nat) : Operand :=
  match o with
  | label _ => label l
  | atomLabel a _ n => atomLabel a l n
  | labelInt _ n => labelInt l n
  | other => other

end Operand

structure Instr where
  op : Op
  arg : Operand
deriving DecidableEq, Inhabited

namespace Instr

/-- An instruction of finished code. -/
def of (op : Opcode) (arg : Operand) : Instr :=
  ⟨.final op, arg⟩

/-- An instruction of finished code without an operand. -/
def plain (op : Opcode) : Instr :=
  of op .none

/-- The marker of a label. -/
def mark (l : Nat) : Instr :=
  ⟨.pseudo .label, .label l⟩

/-- The marker of a source line. -/
def line (n : Nat) : Instr :=
  ⟨.pseudo .lineNum, .int (signedWord 32 n)⟩

def opcode? (i : Instr) : Option Opcode :=
  match i.op with
  | .final op => some op
  | .pseudo _ => none

def is (i : Instr) (op : Opcode) : Bool :=
  i.op == .final op

def isMark (i : Instr) : Bool :=
  i.op == .pseudo .label

/-- Markers take no room in finished code. -/
def isMarker (i : Instr) : Bool :=
  match i.op with
  | .pseudo .label | .pseudo .lineNum => true
  | _ => false

/-- The size in finished code. -/
def size (i : Instr) : Nat :=
  if i.isMarker then 0 else 1 + i.op.format.operandSize

/-- The label that an instruction may jump to. -/
def target? (i : Instr) : Option Nat :=
  if i.op.format.hasLabel then i.arg.label? else none

/-- How many values are taken from the stack, call arguments included, and how many put on it. -/
def stackEffect (i : Instr) : Nat × Nat :=
  let info := i.op.info
  match info.format with
  | .count | .countU16 => (info.pops + (i.arg.int?.getD 0).toNat, info.pushes)
  | .impliedCount =>
    match i.opcode?.map Opcode.longForm with
    | some (_, some n) => (info.pops + n.toNat, info.pushes)
    | _ => (info.pops, info.pushes)
  | _ => (info.pops, info.pushes)

end Instr

/-- An instruction with the offset it was read from. -/
structure Located where
  pos : Nat
  instr : Instr
deriving DecidableEq, Inhabited

/-- One more than the greatest label in use. -/
def nextLabel (code : List Instr) : Nat :=
  code.foldl (fun next i => max next (i.target?.elim 0 (· + 1))) 0

end ScriptBytecode
