import ScriptBytecode.Optimizer.Rule

/-!
# Constant folding

Arithmetic and comparisons of 32-bit literals are replaced by their value, where that is a 32-bit integer
or a boolean. Results that would be negative zero are left to the machine.
-/

namespace ScriptBytecode.Folding

def intLiteral? (i : Instr) : Option Int :=
  match i.op, i.arg with
  | .final .pushI32, .int n => some n
  | _, _ => none

def pushInt (n : Int) : Instr :=
  .of .pushI32 (.int n)

def pushBool (b : Bool) : Instr :=
  .plain (if b then .pushTrue else .pushFalse)

/-- The push of `n`, if it is a 32-bit integer. -/
def pushExact (n : Int) : Option Instr :=
  if fitsSigned 32 n then some (pushInt n) else none

/-- A bit operation on two's complements. -/
def bitwise (f : Nat → Nat → Nat) (a b : Int) : Instr :=
  pushInt (signedWord 32 (f (unsignedWord 32 a) (unsignedWord 32 b)))

def shiftCount (b : Int) : Nat :=
  unsignedWord 5 b

def fold? (op : Opcode) (a b : Int) : Option Instr :=
  match op with
  | .add => pushExact (a + b)
  | .sub => pushExact (a - b)
  | .mul => if a * b = 0 && (a < 0 || b < 0) then none else pushExact (a * b)
  | .bitAnd => some (bitwise Nat.land a b)
  | .bitOr => some (bitwise Nat.lor a b)
  | .bitXor => some (bitwise Nat.xor a b)
  | .shl => some (pushInt (signedWord 32 (unsignedWord 32 (a * Nat.pow 2 (shiftCount b)))))
  | .sar => some (pushInt (a / Nat.pow 2 (shiftCount b)))
  | .lt => some (pushBool (a < b))
  | .lte => some (pushBool (a ≤ b))
  | .gt => some (pushBool (b < a))
  | .gte => some (pushBool (b ≤ a))
  | .eq | .strictEq => some (pushBool (a == b))
  | .neq | .strictNeq => some (pushBool (a != b))
  | _ => none

/-- A literal behind a sign, or two literals and an operator. -/
def rule : Rule
  | [] => none
  | i :: tail => do
    let a ← intLiteral? i
    let (gap, j, rest) ← Rule.next? tail
    if j.is .neg && a ≠ 0 && a ≠ -0x80000000 then return pushInt (-a) :: gap ++ rest
    if j.is .plus then return i :: gap ++ rest
    let b ← intLiteral? j
    let (gap', k, rest) ← Rule.next? rest
    let op ← k.opcode?
    let folded ← fold? op a b
    return folded :: gap ++ gap' ++ rest

def run (code : List Instr) : List Instr :=
  Rule.apply rule code

end ScriptBytecode.Folding
