import ScriptBytecode.Instr

/-!
# Local rules

A rule looks at the code from some instruction on and may replace it. A rule is tried from left to
right; wherever it fires, the search goes back by one instruction within the basic block, because the
rule may now fire there.
-/

namespace ScriptBytecode

/-- Given the code from some instruction on, the code in its place if the rule fires at that instruction. -/
abbrev Rule := List Instr → Option (List Instr)

namespace Rule

/-- The next instruction of the basic block: what lies before it (line markers), the instruction and what
follows it. A label ends the block. -/
def next? : List Instr → Option (List Instr × Instr × List Instr)
  | [] => none
  | i :: rest =>
    match i.op with
    | .pseudo .label => none
    | .pseudo _ => (next? rest).map fun (gap, j, rest) => (i :: gap, j, rest)
    | .final _ => some ([], i, rest)

/-- The instruction before, taken with the markers after it from the code on the left, which is in reverse
order. A label or the start of the code is the end of the block. -/
def back? (moved : List Instr) : List Instr → Option (List Instr × List Instr)
  | [] => none
  | i :: left =>
    match i.op with
    | .pseudo .label => none
    | .pseudo _ => back? (i :: moved) left
    | .final _ => some (left, i :: moved)

/-- The code on the left in reverse order and, if the rule fired, the new code on the right. -/
def search (rule : Rule) (left : List Instr) : List Instr → List Instr × Option (List Instr)
  | [] => (left, none)
  | i :: rest =>
    match rule (i :: rest) with
    | some right => (left, some right)
    | none => search rule (i :: left) rest

/-- Applies a rule at most `times` times. -/
def repeatedly (rule : Rule) : Nat → List Instr → List Instr → List Instr
  | 0, left, right => left.reverseAux right
  | times + 1, left, right =>
    match search rule left right with
    | (left, none) => left.reverse
    | (left, some right) =>
      match back? [] left with
      | some (left, moved) => repeatedly rule times left (moved ++ right)
      | none => repeatedly rule times left right

/-- Code without instructions that do nothing. -/
def compact (code : List Instr) : List Instr :=
  code.filter fun i => !i.is .nop

/-- Applies a rule wherever it fires. Every rule here shortens the code, so its length bounds how often. -/
def apply (rule : Rule) (code : List Instr) : List Instr :=
  let code := compact code
  repeatedly rule code.length [] code

end Rule

end ScriptBytecode
