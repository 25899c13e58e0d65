import ScriptBytecode.Instr.Layout

/-!
# Label recovery

Finished code read back has absolute targets in place of labels. `labelize` numbers the targets from
left to right and puts label and line markers where they belong, which is the form that layout takes.
-/

namespace ScriptBytecode

namespace Labels

/-- Puts a number into an ascending list without repetitions. -/
def insert (n : Nat) : List Nat → List Nat
  | [] => [n]
  | m :: rest => if n < m then n :: m :: rest else if n = m then m :: rest else m :: insert n rest

/-- The jump targets of code, ascending. -/
def targets (code : List Located) : List Nat :=
  code.foldl (fun found here => here.instr.target?.elim found (insert · found)) []

/-- The label of a target is its place among the targets. -/
def relabel (targets : List Nat) (i : Instr) : Instr :=
  match i.target?.bind targets.idxOf? with
  | some l => { i with arg := i.arg.withLabel l }
  | none => i

def markAt (targets : List Nat) (pos : Nat) : List Located :=
  ((targets.idxOf? pos).map fun l => ⟨0, .mark l⟩).toList

def lineAt (lines : LineTable) (pos : Nat) : List Located :=
  ((lines.lineAt? pos).map fun n => ⟨0, .line n⟩).toList

/-- The offset behind the last instruction. -/
def stop (code : List Located) : Nat :=
  code.getLast?.elim 0 fun here => here.pos + here.instr.size

end Labels

/-- Gives code that was read back its labels and line markers. -/
def labelize (code : List Located) (lines : LineTable) : List Located :=
  let targets := Labels.targets code
  code.flatMap (fun here =>
    Labels.markAt targets here.pos ++ Labels.lineAt lines here.pos
      ++ [{ here with instr := Labels.relabel targets here.instr }])
    ++ Labels.markAt targets (Labels.stop code)

end ScriptBytecode
