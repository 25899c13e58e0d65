import ScriptBytecode.Atom.Predefined
import ScriptBytecode.Optimizer.Rule

/-!
# Peephole rules

Each rule replaces two or three neighbours in a basic block by something shorter. `first` and `second` are
the neighbours, `gap` the markers between them and `rest` what follows.
-/

namespace ScriptBytecode.Peephole

/-- Opcodes that push a value and do nothing else. -/
def isPurePush : Opcode → Bool
  | .pushI32 | .pushConst | .pushAtomValue | .undefined | .null | .pushTrue | .pushFalse | .getLoc
  | .getArg | .getVarRef | .dup | .fclosure => true
  | _ => false

/-- The opcodes that read, write and write through a kind of slot. -/
structure SlotOps where
  get : Opcode
  put : Opcode
  set : Opcode

def slotOps? : Opcode → Option SlotOps
  | .getLoc | .putLoc | .setLoc => some ⟨.getLoc, .putLoc, .setLoc⟩
  | .getArg | .putArg | .setArg => some ⟨.getArg, .putArg, .setArg⟩
  | .getVarRef | .putVarRef | .setVarRef => some ⟨.getVarRef, .putVarRef, .setVarRef⟩
  | _ => none

section Rules

variable (first second : Instr) (op next : Opcode) (gap rest : List Instr)

/-- A value that is pushed and dropped. -/
def pushDrop : Option (List Instr) :=
  if next = .drop && isPurePush op then some (gap ++ rest) else none

/-- `put x; get x` is `set x`, and `set x; drop` is `put x`. -/
def storeLoad : Option (List Instr) := do
  let ops ← slotOps? op
  if op = ops.put && next = ops.get && second.arg = first.arg then
    return .of ops.set first.arg :: gap ++ rest
  if op = ops.set && next = .drop then return .of ops.put first.arg :: gap ++ rest
  none

/-- `dup; put x` is `set x`. -/
def dupStore : Option (List Instr) := do
  if op ≠ .dup then none
  let ops ← slotOps? next
  if next = ops.put then return .of ops.set second.arg :: gap ++ rest
  none

/-- A local that is counted up or down in place. -/
def bump : Option (List Instr) := do
  if op ≠ .getLoc then none
  let fused ← match next with
    | .inc => some Opcode.incLoc
    | .dec => some Opcode.decLoc
    | _ => none
  let (gap', third, rest) ← Rule.next? rest
  let idx := first.arg.int?.getD (-1)
  if third.is .putLoc && third.arg = first.arg && 0 ≤ idx && idx ≤ 255 then
    return .of fused first.arg :: gap ++ gap' ++ rest
  none

/-- A negation before a branch turns the branch round. -/
def invertBranch : Option (List Instr) :=
  match op, next with
  | .lnot, .ifFalse => some (gap ++ { second with op := .final .ifTrue } :: rest)
  | .lnot, .ifTrue => some (gap ++ { second with op := .final .ifFalse } :: rest)
  | _, _ => none

/-- A branch on a constant is taken always or never. -/
def constantBranch : Option (List Instr) :=
  match op, next with
  | .pushTrue, .ifTrue | .pushFalse, .ifFalse =>
    some (gap ++ { second with op := .final .goto } :: rest)
  | .pushTrue, .ifFalse | .pushFalse, .ifTrue => some (gap ++ rest)
  | _, _ => none

/-- A store whose value is kept below it and then dropped. -/
def bareStore : Option (List Instr) :=
  match op, next with
  | .insert2, .putField | .insert2, .putPrivateField | .insert3, .putArrayEl
  | .insert3, .putRefValue | .insert4, .putSuperValue => do
    let (gap', third, rest) ← Rule.next? rest
    if third.is .drop then return gap ++ second :: gap' ++ rest
    none
  | _, _ => none

def returnUndefined : Option (List Instr) :=
  match op, next with
  | .undefined, .returnValue => some (.plain .returnUndef :: gap ++ rest)
  | _, _ => none

/-- A type name compared with a constant. -/
def typeTest : Option (List Instr) :=
  match op, next with
  | .typeof, .pushAtomValue => do
    let (gap', third, rest) ← Rule.next? rest
    if !(third.is .strictEq || third.is .eq) then none
    let test ←
      if second.arg = .atom .undefined then some Opcode.typeofIsUndefined
      else if second.arg = .atom .functionName then some Opcode.typeofIsFunction
      else none
    return .plain test :: gap ++ gap' ++ rest
  | _, _ => none

/-- A value compared with null or undefined. -/
def nullTest : Option (List Instr) :=
  match op, next with
  | .null, .strictEq => some (.plain .isNull :: gap ++ rest)
  | .undefined, .strictEq => some (.plain .isUndefined :: gap ++ rest)
  | _, _ => none

end Rules

/-- The first of the rules that fires. -/
def rule : Rule
  | [] => none
  | first :: tail => do
    let op ← first.opcode?
    let (gap, second, rest) ← Rule.next? tail
    let next ← second.opcode?
    pushDrop op next gap rest
      <|> storeLoad first second op next gap rest
      <|> dupStore second op next gap rest
      <|> bump first op next gap rest
      <|> invertBranch second op next gap rest
      <|> constantBranch second op next gap rest
      <|> bareStore second op next gap rest
      <|> returnUndefined op next gap rest
      <|> typeTest second op next gap rest
      <|> nullTest op next gap rest

def run (code : List Instr) : List Instr :=
  Rule.apply rule code

end ScriptBytecode.Peephole
