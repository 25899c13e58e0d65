import ScriptBytecode.Optimizer

/-!
# Options of a compilation
-/

namespace ScriptBytecode

structure CompileOptions where
  /-- Compile as a module, whatever the program says. -/
  asModule : Bool
  stripDebug : Bool
  stripSource : Bool
  filename : String
  optimizer : OptimizerConfig

namespace CompileOptions

def standard : CompileOptions := ⟨false, false, false, "<input>", .all⟩

instance : Inhabited CompileOptions := ⟨standard⟩

end CompileOptions

end ScriptBytecode
