import ScriptBytecode.Ast.ToJson
import ScriptBytecode.CodeBuffer
import ScriptBytecode.Json.Writer
import ScriptBytecode.LabelTable
import ScriptBytecode.Main
import ScriptBytecode.Proofs.AtomUses
import ScriptBytecode.Proofs.Execution.Folding
import ScriptBytecode.Proofs.Execution.Jumps
import ScriptBytecode.Proofs.Execution.Peephole
import ScriptBytecode.Proofs.Hoisting
import ScriptBytecode.Proofs.LineTables
import ScriptBytecode.Proofs.ModuleRecords
import ScriptBytecode.Proofs.ObjectAcceptance
import ScriptBytecode.Proofs.ObjectTransfer
import ScriptBytecode.Proofs.RecoveredCode
import ScriptBytecode.Proofs.ScopeChains
import ScriptBytecode.Proofs.Scoping
import ScriptBytecode.Proofs.StackDepths
import ScriptBytecode.Proofs.Stripping
