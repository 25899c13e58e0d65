import ScriptBytecode.Atom.Predefined
import ScriptBytecode.Instr

/-!
# Short forms

Passes work on long forms with explicit operands; the shortest encoding is chosen at the end.
-/

namespace ScriptBytecode

/-- The long form of an instruction with its operand made explicit. -/
def Instr.lengthen (i : Instr) : Instr :=
  match i.op with
  | .pseudo _ => i
  | .final .getLength => .of .getField (.atom .length)
  | .final .pushEmptyString => .of .pushAtomValue (.atom .emptyString)
  | .final op =>
    match op.longForm with
    | (long, some n) => .of long (.int n)
    | (long, none) => .of long i.arg

namespace ShortForm

/-- The opcode `n` places after `first`, with no operand. -/
def implied? (first : Opcode) (n : Int) : Option Instr :=
  (first.plus? n.toNat).map .plain

/-- The short form of an opcode with a number. -/
def ofInt? (op : Opcode) (n : Int) : Option Instr :=
  let short (o : Opcode) : Option Instr := some (.of o (.int n))
  let upTo3 := 0 ≤ n && n ≤ 3
  let byte := 0 ≤ n && n ≤ 255
  match op with
  | .pushI32 =>
    if n = -1 then some (.plain .pushMinus1)
    else if 0 ≤ n && n ≤ 7 then implied? .push0 n
    else if fitsSigned 8 n then short .pushI8
    else if fitsSigned 16 n then short .pushI16
    else none
  | .pushConst => if byte then short .pushConst8 else none
  | .fclosure => if byte then short .fclosure8 else none
  | .getLoc => if upTo3 then implied? .getLoc0 n else if byte then short .getLoc8 else none
  | .putLoc => if upTo3 then implied? .putLoc0 n else if byte then short .putLoc8 else none
  | .setLoc => if upTo3 then implied? .setLoc0 n else if byte then short .setLoc8 else none
  | .getArg => if upTo3 then implied? .getArg0 n else none
  | .putArg => if upTo3 then implied? .putArg0 n else none
  | .setArg => if upTo3 then implied? .setArg0 n else none
  | .getVarRef => if upTo3 then implied? .getVarRef0 n else none
  | .putVarRef => if upTo3 then implied? .putVarRef0 n else none
  | .setVarRef => if upTo3 then implied? .setVarRef0 n else none
  | .call => if upTo3 then implied? .call0 n else none
  | _ => none

/-- The short form of a jump, a number or one of two names. Jumps take the narrowest form; layout widens
those that need it. -/
def find? (op : Opcode) (arg : Operand) : Option Instr :=
  match op, arg with
  | .goto, _ => some (.of .goto8 arg)
  | .ifFalse, _ => some (.of .ifFalse8 arg)
  | .ifTrue, _ => some (.of .ifTrue8 arg)
  | .pushAtomValue, .atom a => if a = .emptyString then some (.plain .pushEmptyString) else none
  | .getField, .atom a => if a = .length then some (.plain .getLength) else none
  | _, .int n => ofInt? op n
  | _, _ => none

end ShortForm

/-- The shortest form of an instruction in long form. -/
def Instr.shorten (i : Instr) : Instr :=
  match i.op with
  | .pseudo _ => i
  | .final op => (ShortForm.find? op i.arg).getD i

end ScriptBytecode
