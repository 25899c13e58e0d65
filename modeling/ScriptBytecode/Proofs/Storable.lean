import ScriptBytecode.Object.Writer
import ScriptBytecode.Proofs.AtomTable

/-!
# What the object format can hold

A value can be stored if its numbers fit their fields, its lengths are below `2 ^ 31` and its atoms have
names that are found again. `Value.strip` is what stripping leaves of a value.
-/

namespace ScriptBytecode

/-- The number of UTF-16 units of a text. -/
def Text.unitCount (s : String) : Nat :=
  (s.toList.flatMap units).length

/-- An atom that a name list can hold: one that holds a number, a predefined one, or a string atom of
the table. -/
def Atom.Storable (t : AtomTable) (a : Atom) : Prop :=
  (a.isIndex = true ∧ a.id < 0x100000000) ∨ a.isPredefined = true ∨
    ∃ name, t.Knows a name ∧ Text.unitCount name < 0x80000000

structure Variable.Storable (t : AtomTable) (v : Variable) : Prop where
  name : v.name.Storable t
  level : v.scopeLevel < 0x100000000
  next : ∀ n ∈ v.scopeNext, n < 0xffffffff

structure ClosureVar.Storable (t : AtomTable) (v : ClosureVar) : Prop where
  name : v.name.Storable t
  index : v.varIdx < 0x10000

structure DebugInfo.Storable (t : AtomTable) (d : DebugInfo) : Prop where
  filename : d.filename.Storable t
  line : d.line < 0x100000000
  lines : d.lines.length < 0x80000000
  source : ∀ s ∈ d.source, s ≠ "" ∧ (Text.utf8 s).length < 0x80000000

/-- Code that is made of instructions, all atoms of which can be stored. -/
def CodeStorable (t : AtomTable) (code : Bytes) : Prop :=
  ∃ instrs, decodeFinal code = .ok instrs ∧ ∀ site ∈ Object.atomSites instrs, site.2.Storable t

/-- A function record up to its constants. -/
structure FunctionRecord.HeadStorable (t : AtomTable) (f : FunctionRecord) : Prop where
  name : f.name.Storable t
  mode : f.mode < 0x100
  argCount : f.argCount < 0x10000
  varCount : f.varCount < 0x10000
  definedArgCount : f.definedArgCount < 0x10000
  stackSize : f.stackSize < 0x10000
  slots : f.slotVars.length = f.argCount + f.varCount
  slotVars : ∀ v ∈ f.slotVars, v.Storable t
  closureCount : f.closureVars.length < 0x80000000
  closureVars : ∀ v ∈ f.closureVars, v.Storable t
  codeSize : f.code.length < 0x80000000
  code : CodeStorable t f.code
  hasDebug : f.flags.hasDebug = f.debug.isSome
  debug : ∀ d ∈ f.debug, d.Storable t
  constantCount : f.constants.length < 0x80000000

def Export.Storable (t : AtomTable) : Export → Prop
  | .ofLocal varIdx name => varIdx < 0x100000000 ∧ name.Storable t
  | .ofModule reqModule localName name =>
    reqModule < 0x100000000 ∧ localName.Storable t ∧ name.Storable t

structure Import.Storable (t : AtomTable) (i : Import) : Prop where
  varIdx : i.varIdx < 0x100000000
  name : i.name.Storable t
  reqModule : i.reqModule < 0x100000000

/-- A module record up to its required modules and its body. -/
structure ModuleRecord.HeadStorable (t : AtomTable) (m : ModuleRecord) : Prop where
  name : m.name.Storable t
  requireCount : m.requires.length < 0x80000000
  exportCount : m.exports.length < 0x80000000
  exports : ∀ e ∈ m.exports, e.Storable t
  starCount : m.starExports.length < 0x80000000
  stars : ∀ n ∈ m.starExports, n < 0x100000000
  importCount : m.imports.length < 0x80000000
  imports : ∀ i ∈ m.imports, i.Storable t

mutual

/-- A value that the object format can hold. `heap` gives the array, object or template of each
identity, so that one identity stands for one of them. -/
def Value.Storable (t : AtomTable) (heap : List (Nat × Value)) : Value → Prop
  | .null | .undefined | .bool _ | .float _ => True
  | .int n => fitsSigned 32 n = true
  | .string s => Text.unitCount s < 0x80000000
  | .bigint n => (Object.bigIntBytes n).length < 0x80000000
  | .array id items =>
    heap.lookup id = some (.array id items) ∧ items.length < 0x80000000 ∧ storableAll t heap items
  | .object id props =>
    heap.lookup id = some (.object id props) ∧ props.length < 0x80000000 ∧
      storableProps t heap props
  | .template id cooked raw =>
    heap.lookup id = some (.template id cooked raw) ∧ cooked.length < 0x80000000 ∧
      storableAll t heap cooked ∧ raw.length < 0x80000000 ∧ storableAll t heap raw
  | .function _ f => FunctionRecord.Storable t heap f
  | .module _ m => ModuleRecord.Storable t heap m

def storableAll (t : AtomTable) (heap : List (Nat × Value)) : List Value → Prop
  | [] => True
  | v :: rest => v.Storable t heap ∧ storableAll t heap rest

def storableProps (t : AtomTable) (heap : List (Nat × Value)) : List Property → Prop
  | [] => True
  | ⟨key, v⟩ :: rest => key.Storable t ∧ v.Storable t heap ∧ storableProps t heap rest

def FunctionRecord.Storable (t : AtomTable) (heap : List (Nat × Value)) : FunctionRecord → Prop
  | ⟨name, flags, kind, mode, args, vars, defined, stack, slotVars, closure, code, debug,
      constants, cache⟩ =>
    FunctionRecord.HeadStorable t ⟨name, flags, kind, mode, args, vars, defined, stack, slotVars,
      closure, code, debug, constants, cache⟩ ∧ storableAll t heap constants

def ModuleRecord.Storable (t : AtomTable) (heap : List (Nat × Value)) : ModuleRecord → Prop
  | ⟨name, requires, exports, stars, imports, body⟩ =>
    ModuleRecord.HeadStorable t ⟨name, requires, exports, stars, imports, body⟩ ∧
      storableProps t heap requires ∧ body.Storable t heap

end

/-! ## Stripping -/

def DebugInfo.strip (o : Object.WriteOptions) (d : DebugInfo) : DebugInfo :=
  { d with source := if o.stripSource then none else d.source }

/-- The debug block that is left of one. -/
def Object.WriteOptions.debug (o : Object.WriteOptions) (d : Option DebugInfo) : Option DebugInfo :=
  if o.stripDebug then none else d.map (·.strip o)

mutual

def Value.strip (o : Object.WriteOptions) : Value → Value
  | .array id items => .array id (stripAll o items)
  | .object id props => .object id (stripProps o props)
  | .template id cooked raw => .template id (stripAll o cooked) (stripAll o raw)
  | .function id f => .function id (f.strip o)
  | .module id m => .module id (m.strip o)
  | v => v

def stripAll (o : Object.WriteOptions) : List Value → List Value
  | [] => []
  | v :: rest => v.strip o :: stripAll o rest

def stripProps (o : Object.WriteOptions) : List Property → List Property
  | [] => []
  | ⟨key, v⟩ :: rest => ⟨key, v.strip o⟩ :: stripProps o rest

/-- Without debug information the flag that announces it goes too. -/
def FunctionRecord.strip (o : Object.WriteOptions) : FunctionRecord → FunctionRecord
  | ⟨name, flags, kind, mode, args, vars, defined, stack, slotVars, closure, code, debug,
      constants, cache⟩ =>
    ⟨name, { flags with hasDebug := !o.stripDebug && flags.hasDebug }, kind, mode, args, vars,
      defined, stack, slotVars, closure, code, o.debug debug, stripAll o constants, cache⟩

def ModuleRecord.strip (o : Object.WriteOptions) : ModuleRecord → ModuleRecord
  | ⟨name, requires, exports, stars, imports, body⟩ =>
    ⟨name, stripProps o requires, exports, stars, imports, body.strip o⟩

end

end ScriptBytecode
