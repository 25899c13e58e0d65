import ScriptBytecode.Instr.Labels
import ScriptBytecode.Optimizer.DeadCode
import ScriptBytecode.Optimizer.Folding
import ScriptBytecode.Optimizer.Peephole
import ScriptBytecode.Optimizer.ShortForm
import ScriptBytecode.Optimizer.Threading

/-!
# Optimizer

The passes that are switched on run in rounds until a round changes nothing, ten rounds at most.
-/

namespace ScriptBytecode

structure OptimizerConfig where
  peephole : Bool
  constantFolding : Bool
  jumpThreading : Bool
  deadCode : Bool
  shortOpcodes : Bool
deriving DecidableEq

namespace OptimizerConfig

def all : OptimizerConfig := ⟨true, true, true, true, true⟩

def none : OptimizerConfig := ⟨false, false, false, false, false⟩

instance : Inhabited OptimizerConfig := ⟨all⟩

end OptimizerConfig

namespace Optimizer

def round (c : OptimizerConfig) (code : List Instr) : List Instr :=
  let code := if c.constantFolding then Folding.run code else code
  let code := if c.peephole then Peephole.run code else code
  let code := if c.jumpThreading then Threading.run code else code
  if c.deadCode then DeadCode.run code else code

def rounds (c : OptimizerConfig) : Nat → List Instr → List Instr
  | 0, code => code
  | n + 1, code =>
    let after := round c code
    if after == code then code else rounds c n after

end Optimizer

/-- Optimizes code with labels. -/
def optimizeInstrs (c : OptimizerConfig) (code : List Instr) : List Instr :=
  let code := Optimizer.rounds c 10 (code.map Instr.lengthen)
  if c.shortOpcodes then code.map Instr.shorten else code

/-- Optimizes finished code together with its line table. -/
def optimize (c : OptimizerConfig) (code : Bytes) (lines : LineTable) : Result Assembled := do
  let labelled := labelize (← decodeFinal code) lines
  assemble (optimizeInstrs c (labelled.map (·.instr)))

end ScriptBytecode
