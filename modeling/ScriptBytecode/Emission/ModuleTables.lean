import ScriptBytecode.Error
import ScriptBytecode.Value

/-!
# Module tables

What a module requires, imports and exports, as it is collected from its body. The closure variables
of a module are its imports and then its own top-level variables; exports of a binding are matched
against them at the end.
-/

namespace ScriptBytecode

/-- The export of a binding of the module. -/
structure LocalExport where
  binding : Atom
  exported : Atom
  place : Location
deriving DecidableEq, Inhabited

structure ModuleTables where
  requires : Array Property
  imports : Array Import
  localExports : Array LocalExport
  /-- Exports of what other modules export. -/
  indirectExports : Array Export
  starExports : Array Nat

namespace ModuleTables

def empty : ModuleTables := ⟨#[], #[], #[], #[], #[]⟩

instance : Inhabited ModuleTables := ⟨empty⟩

/-- The index of a required module, which is added unless it is there with the same attributes. -/
def require (t : ModuleTables) (source : Atom) (attributes : Value) : Nat × ModuleTables :=
  match t.requires.findIdx? fun r => r.key == source && r.value.same attributes with
  | some idx => (idx, t)
  | none => (t.requires.size, { t with requires := t.requires.push ⟨source, attributes⟩ })

/-- An export of what another module exports as `name`. -/
def exportFrom (t : ModuleTables) (source name exported : Atom) : ModuleTables :=
  let (idx, t) := t.require source .undefined
  { t with indirectExports := t.indirectExports.push (.ofModule idx name exported) }

def exportAllFrom (t : ModuleTables) (source : Atom) : ModuleTables :=
  let (idx, t) := t.require source .undefined
  { t with starExports := t.starExports.push idx }

/-- An import that is exported again is an export of the other module, unless it is a whole
module. -/
def resolveExport (t : ModuleTables) (closureVars : Array ClosureVar) (e : LocalExport) :
    Result Export :=
  match closureVars.findIdx? (·.name == e.binding) with
  | none => .error (.invalidContext .undeclaredExport e.place)
  | some k =>
    if (closureVars[k]?).any (·.isLocal) then .ok (.ofLocal k e.exported)
    else
      match t.imports.find? (·.varIdx == k) with
      | some i =>
        if i.isStar then .ok (.ofLocal k e.exported) else .ok (.ofModule i.reqModule i.name e.exported)
      | none => .ok (.ofLocal k e.exported)

/-- The record of a module with its compiled body. -/
def record (t : ModuleTables) (name : Atom) (closureVars : Array ClosureVar)
    (body : FunctionRecord) : Result ModuleRecord := do
  let exports ← t.localExports.toList.mapM (t.resolveExport closureVars)
  return {
    name
    requires := t.requires.toList
    exports := exports ++ t.indirectExports.toList
    starExports := t.starExports.toList
    imports := t.imports.toList
    body }

end ModuleTables

end ScriptBytecode
