import ScriptBytecode.Instr

/-!
# Dead code

Code behind an instruction that never passes control on is removed up to the next label that something
jumps to; labels that nothing jumps to are removed.
-/

namespace ScriptBytecode.DeadCode

/-- The labels that finished instructions refer to. -/
def referenced (code : List Instr) : List Nat :=
  code.filterMap fun i => if i.opcode?.any Opcode.isJump then i.arg.label? else none

/-- Keeps what control can come to; `live` says whether it comes to the next instruction, and what is
kept so far is in reverse order. -/
def keep (used : List Nat) (live : Bool) (kept : List Instr) : List Instr → List Instr
  | [] => kept.reverse
  | i :: rest =>
    match i.op with
    | .pseudo .label =>
      if i.arg.label?.any used.contains then keep used true (i :: kept) rest
      else keep used live kept rest
    | .pseudo _ => keep used live (i :: kept) rest
    | .final op =>
      if live then keep used (!op.isTerminator) (i :: kept) rest else keep used false kept rest

def run (code : List Instr) : List Instr :=
  keep (referenced code) true [] code

end ScriptBytecode.DeadCode
