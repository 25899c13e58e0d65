import ScriptBytecode.Optimizer.Rule

/-!
# Jump threading

A jump to a jump goes where that one goes, a jump to a return becomes that return, and a jump to the next
instruction is dropped.
-/

namespace ScriptBytecode.Threading

def isThreaded : Opcode → Bool
  | .goto | .ifFalse | .ifTrue => true
  | _ => false

/-- The first instruction that does something. -/
def firstCode? (code : List Instr) : Option Instr :=
  code.find? fun i => !i.isMarker && !i.is .nop

/-- The code behind the last marker of a label, or else `found`. -/
def behind? (l : Nat) (found : Option (List Instr)) : List Instr → Option (List Instr)
  | [] => found
  | i :: rest => behind? l (if i.isMark && i.arg.label? = some l then some rest else found) rest

/-- The first instruction at a label. -/
def landing? (code : List Instr) (l : Nat) : Option Instr :=
  (behind? l none code).bind firstCode?

/-- Follows jumps from label `l` on, at most `hops` of them and never back to the label `start`. -/
def follow (code : List Instr) (start : Nat) : Nat → Nat → Nat
  | 0, l => l
  | hops + 1, l =>
    match landing? code l with
    | some i =>
      match (if i.is .goto then i.arg.label? else none) with
      | some next => if next ≠ l && next ≠ start then follow code start hops next else l
      | none => l
    | none => l

/-- What becomes of a jump in `code`. -/
def retarget (code : List Instr) (i : Instr) : Instr :=
  match i.opcode?, i.arg.label? with
  | some op, some start =>
    if !isThreaded op then i
    else
      let l := follow code start 8 start
      let i := if l = start then i else { i with arg := .label l }
      match (if op = .goto then (landing? code l).bind (·.opcode?) else none) with
      | some .returnValue => .plain .returnValue
      | some .returnUndef => .plain .returnUndef
      | _ => i
  | _, _ => i

/-- Retargets the jumps from left to right; those on the left, in reverse order, are done. -/
def threadFrom (left : List Instr) : List Instr → List Instr
  | [] => left.reverse
  | i :: rest =>
    let isJump := i.opcode?.any isThreaded
    let i := if isJump then retarget (left.reverseAux (i :: rest)) i else i
    threadFrom (i :: left) rest

/-- Does control come to a label without doing anything? -/
def reaches (l : Nat) : List Instr → Bool
  | [] => false
  | i :: rest =>
    match i.op with
    | .final .nop => reaches l rest
    | .final _ => false
    | .pseudo .label => i.arg.label? = some l || reaches l rest
    | .pseudo _ => reaches l rest

/-- Jumps to the next instruction only take the value that they test. -/
def dropFrom (left : List Instr) : List Instr → List Instr
  | [] => left.reverse
  | i :: rest =>
    match i.opcode?, i.arg.label? with
    | some op, some l =>
      if isThreaded op && reaches l rest then
        if op = .goto then dropFrom left rest else dropFrom (.plain .drop :: left) rest
      else dropFrom (i :: left) rest
    | _, _ => dropFrom (i :: left) rest

def run (code : List Instr) : List Instr :=
  Rule.compact (dropFrom [] (threadFrom [] code))

end ScriptBytecode.Threading
