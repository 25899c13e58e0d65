import ScriptBytecode.Instr.Codec

/-!
# Stack size

The size of a function's operand stack is the greatest depth on any path through its code. Paths are
followed from the first instruction; an instruction is followed again only if it is reached at a greater
depth than before. As depths stay below `65538` this comes to an end for every code, also where a loop
grows the stack.
-/

namespace ScriptBytecode.StackSize

def limit : Nat := 65535

/-- How the depth at the target of a branch differs from the depth behind the branch. -/
def atTarget (op : Opcode) (depth : Nat) : Nat :=
  match op.longForm.1 with
  | .gosub | .withGetVar | .withDeleteVar => depth + 1
  | .withMakeRef | .withGetRef | .withGetRefUndef => depth + 2
  | .withPutVar => depth - 1
  | _ => depth

/-- Follows the paths of `work`, each given by the index of an instruction and the depth before it. `seen`
holds the greatest depth at which each instruction was followed, `top` the greatest depth so far. -/
def follow (code : Array Located) : Nat → List (Nat × Nat) → Array (Option Nat) → Nat → Result Nat
  | 0, _, _, top => .ok top
  | _ + 1, [], _, top => .ok top
  | fuel + 1, (idx, depth) :: work, seen, top =>
    match code[idx]? with
    | none => follow code fuel work seen top
    | some here =>
      if ((seen[idx]?).join).any (depth ≤ ·) then follow code fuel work seen top
      else
        let (pops, pushes) := here.instr.stackEffect
        if depth < pops then
          .error (.internal (.stackUnderflow here.pos here.instr.op.name pops depth))
        else
          let seen := seen.setIfInBounds idx (some depth)
          let after := depth - pops + pushes
          let top := max top after
          if limit < top then .error (.internal .stackTooLarge)
          else
            match here.instr.opcode? with
            | none => follow code fuel work seen top
            | some op =>
              let next := if op.isTerminator then work else (idx + 1, after) :: work
              match here.instr.target? with
              | none => follow code fuel next seen top
              | some target =>
                match code.findIdx? (·.pos == target) with
                | none => .error (.internal (.jumpInsideInstr here.pos))
                | some idx' =>
                  let depth' := atTarget op after
                  let next :=
                    if op.isTerminator then (idx', depth') :: work
                    else (idx + 1, after) :: (idx', depth') :: work
                  follow code fuel next seen (max top depth')

end ScriptBytecode.StackSize

namespace ScriptBytecode

/-- The greatest stack depth of finished code. -/
def stackSize (code : Bytes) : Result Nat := do
  let instrs ← decodeFinal code
  let n := instrs.length
  StackSize.follow instrs.toArray (2 * 65540 * n + 2) [(0, 0)] (Array.replicate n none) 0

end ScriptBytecode
