import ScriptBytecode.ConstantPool
import ScriptBytecode.Naming.Frame

/-!
# Function trees

A function under construction with the functions inside it. In its constants a nested function is the
index of a child.
-/

namespace ScriptBytecode

structure FunctionTree where
  frame : Frame
  code : List Instr
  pool : ConstantPool
  children : List FunctionTree

instance : Inhabited FunctionTree := ⟨⟨default, [], .empty, []⟩⟩

end ScriptBytecode
