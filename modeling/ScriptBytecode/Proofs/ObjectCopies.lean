import ScriptBytecode.Proofs.CodeAtoms
import ScriptBytecode.Proofs.Storable

/-!
# Copies of values

`Value.stored` is what a reader is to make of a written value: the value without what was stripped, with its
atoms replaced by those of the reader's table. The reader gives compound values identities of its own, so that
what it makes is a copy; `Value.Mirrors` says how the identities of the two go together.
-/

namespace ScriptBytecode

open Object (WriteOptions recode atomSites)

/-! ## What is left of a value in the object format -/

/-- The cache of code, empty if it is none. -/
def InlineCache.of (code : Bytes) : InlineCache :=
  (ofCode code).toOption.getD []

def Variable.rename (ρ : Atom → Atom) (v : Variable) : Variable :=
  { v with name := ρ v.name }

def ClosureVar.rename (ρ : Atom → Atom) (v : ClosureVar) : ClosureVar :=
  { v with name := ρ v.name }

/-- An empty source counts as none. -/
def DebugInfo.stored (o : WriteOptions) (ρ : Atom → Atom) (d : DebugInfo) : DebugInfo :=
  { d with
    filename := ρ d.filename
    source := if o.stripSource then none else d.source.filter (!·.isEmpty) }

def Export.rename (ρ : Atom → Atom) : Export → Export
  | .ofLocal varIdx name => .ofLocal varIdx (ρ name)
  | .ofModule reqModule localName name => .ofModule reqModule (ρ localName) (ρ name)

def Import.rename (ρ : Atom → Atom) (i : Import) : Import :=
  { i with name := ρ i.name }

/-- The debug block that is stored of one. -/
def Object.WriteOptions.shown (o : WriteOptions) (d : Option DebugInfo) : Option DebugInfo :=
  if o.stripDebug then none else d

section

variable (o : WriteOptions) (ρ : Atom → Atom)

mutual

/-- What is read where a value was written, if the reader has `ρ a` for the atom `a`. -/
def Value.stored : Value → Value
  | .array id items => .array id (storedAll items)
  | .object id props => .object id (storedProps props)
  | .template id cooked raw => .template id (storedAll cooked) (storedAll raw)
  | .function id f => .function id f.stored
  | .module id m => .module id m.stored
  | v => v

def storedAll : List Value → List Value
  | [] => []
  | v :: rest => v.stored :: storedAll rest

def storedProps : List Property → List Property
  | [] => []
  | ⟨key, v⟩ :: rest => ⟨ρ key, v.stored⟩ :: storedProps rest

/-- The flag for debug information is set if there is some. -/
def FunctionRecord.stored : FunctionRecord → FunctionRecord
  | ⟨name, flags, kind, mode, args, vars, defined, stack, slotVars, closure, code, debug, constants, _⟩ =>
    ⟨ρ name, { flags with hasDebug := (o.shown debug).isSome }, kind, mode, args, vars, defined, stack,
      slotVars.map (·.rename ρ), closure.map (·.rename ρ), recode (fun a => (ρ a).id) code,
      (o.shown debug).map (·.stored o ρ), storedAll constants, .of (recode (fun a => (ρ a).id) code)⟩

def ModuleRecord.stored : ModuleRecord → ModuleRecord
  | ⟨name, requires, exports, stars, imports, body⟩ =>
    ⟨ρ name, storedProps requires, exports.map (·.rename ρ), stars, imports.map (·.rename ρ), body.stored⟩

end

end

/-! ## Copies -/

/-- A function record up to its constants. -/
def FunctionRecord.head (f : FunctionRecord) : FunctionRecord :=
  { f with constants := [] }

mutual

/-- The second value is a copy of the first: wherever the first has an array, object or template, the second
has one, and `I` relates their identities. -/
def Value.Mirrors (I : Nat → Nat → Prop) : Value → Value → Prop
  | .null, .null => True
  | .undefined, .undefined => True
  | .bool a, .bool b => a = b
  | .int a, .int b => a = b
  | .float a, .float b => a = b
  | .string a, .string b => a = b
  | .bigint a, .bigint b => a = b
  | .array i as, .array j bs => I i j ∧ mirrorsAll I as bs
  | .object i ps, .object j qs => I i j ∧ mirrorsProps I ps qs
  | .template i as cs, .template j bs ds => I i j ∧ mirrorsAll I as bs ∧ mirrorsAll I cs ds
  | .function _ f, .function _ g => f.Mirrors I g
  | .module _ m, .module _ n => m.Mirrors I n
  | _, _ => False
termination_by structural v => v

def mirrorsAll (I : Nat → Nat → Prop) : List Value → List Value → Prop
  | [], [] => True
  | a :: as, b :: bs => a.Mirrors I b ∧ mirrorsAll I as bs
  | _, _ => False
termination_by structural vs => vs

def mirrorsProps (I : Nat → Nat → Prop) : List Property → List Property → Prop
  | [], [] => True
  | ⟨k, a⟩ :: ps, ⟨l, b⟩ :: qs => k = l ∧ a.Mirrors I b ∧ mirrorsProps I ps qs
  | _, _ => False
termination_by structural ps => ps

def FunctionRecord.Mirrors (I : Nat → Nat → Prop) : FunctionRecord → FunctionRecord → Prop
  | ⟨name, flags, kind, mode, args, vars, defined, stack, slotVars, closure, code, debug, constants, cache⟩, g =>
    g.head = ⟨name, flags, kind, mode, args, vars, defined, stack, slotVars, closure, code, debug, [], cache⟩ ∧
      mirrorsAll I constants g.constants
termination_by structural f => f

def ModuleRecord.Mirrors (I : Nat → Nat → Prop) : ModuleRecord → ModuleRecord → Prop
  | ⟨name, requires, exports, stars, imports, body⟩, n =>
    n.name = name ∧ mirrorsProps I requires n.requires ∧ n.exports = exports ∧ n.starExports = stars ∧
      n.imports = imports ∧ body.Mirrors I n.body
termination_by structural m => m

end

mutual

theorem Value.mirrors_refl : (v : Value) → v.Mirrors Eq v
  | .null | .undefined => trivial
  | .bool _ | .int _ | .float _ | .string _ | .bigint _ => rfl
  | .array _ items => ⟨rfl, mirrorsAll_refl items⟩
  | .object _ props => ⟨rfl, mirrorsProps_refl props⟩
  | .template _ cooked raw => ⟨rfl, mirrorsAll_refl cooked, mirrorsAll_refl raw⟩
  | .function _ f => FunctionRecord.mirrors_refl f
  | .module _ m => ModuleRecord.mirrors_refl m

theorem mirrorsAll_refl : (vs : List Value) → mirrorsAll Eq vs vs
  | [] => trivial
  | v :: rest => ⟨Value.mirrors_refl v, mirrorsAll_refl rest⟩

theorem mirrorsProps_refl : (ps : List Property) → mirrorsProps Eq ps ps
  | [] => trivial
  | ⟨_, v⟩ :: rest => ⟨rfl, Value.mirrors_refl v, mirrorsProps_refl rest⟩

theorem FunctionRecord.mirrors_refl : (f : FunctionRecord) → f.Mirrors Eq f
  | ⟨_, _, _, _, _, _, _, _, _, _, _, _, constants, _⟩ => ⟨rfl, mirrorsAll_refl constants⟩

theorem ModuleRecord.mirrors_refl : (m : ModuleRecord) → m.Mirrors Eq m
  | ⟨_, requires, _, _, _, body⟩ =>
    ⟨rfl, mirrorsProps_refl requires, rfl, rfl, rfl, FunctionRecord.mirrors_refl body⟩

end

/-! A copy is equal to its original but for identities and caches. -/

variable {I : Nat → Nat → Prop}

mutual

theorem Value.same_of_mirrors : (a b : Value) → a.Mirrors I b → b.same a
  | .null, b, h | .undefined, b, h => by cases b <;> simp_all [Value.Mirrors, Value.same]
  | .bool _, b, h | .int _, b, h | .float _, b, h | .string _, b, h | .bigint _, b, h => by
    cases b <;> simp_all [Value.Mirrors, Value.same]
  | .array _ as, b, h => by
    cases b with
    | array j bs => simpa [Value.same] using sameAll_of_mirrors as bs h.2
    | _ => exact h.elim
  | .object _ ps, b, h => by
    cases b with
    | object j qs => simpa [Value.same] using sameProps_of_mirrors ps qs h.2
    | _ => exact h.elim
  | .template _ as cs, b, h => by
    cases b with
    | template j bs ds =>
      simpa [Value.same] using And.intro (sameAll_of_mirrors as bs h.2.1) (sameAll_of_mirrors cs ds h.2.2)
    | _ => exact h.elim
  | .function _ f, b, h => by
    cases b with
    | function j g => simpa [Value.same] using FunctionRecord.same_of_mirrors f g h
    | _ => exact h.elim
  | .module _ m, b, h => by
    cases b with
    | module j n => simpa [Value.same] using ModuleRecord.same_of_mirrors m n h
    | _ => exact h.elim

theorem sameAll_of_mirrors : (as bs : List Value) → mirrorsAll I as bs → sameAll bs as
  | [], bs, h => by
    cases bs with
    | nil => rfl
    | cons => exact h.elim
  | a :: as, bs, h => by
    cases bs with
    | nil => exact h.elim
    | cons b bs => simpa [sameAll] using And.intro (Value.same_of_mirrors a b h.1) (sameAll_of_mirrors as bs h.2)

theorem sameProps_of_mirrors : (ps qs : List Property) → mirrorsProps I ps qs → sameProps qs ps
  | [], qs, h => by
    cases qs with
    | nil => rfl
    | cons => exact h.elim
  | ⟨k, a⟩ :: ps, qs, h => by
    cases qs with
    | nil => exact h.elim
    | cons q qs =>
      obtain ⟨l, b⟩ := q
      obtain ⟨rfl, hvalue, hrest⟩ := h
      simpa [sameProps] using And.intro (Value.same_of_mirrors a b hvalue) (sameProps_of_mirrors ps qs hrest)

theorem FunctionRecord.same_of_mirrors : (f g : FunctionRecord) → f.Mirrors I g → g.same f
  | ⟨_, _, _, _, _, _, _, _, _, _, _, _, constants, _⟩, g, h => by
    obtain ⟨hhead, hconstants⟩ := h
    obtain ⟨name, flags, kind, mode, args, vars, defined, stack, slotVars, closure, code, debug, constants', cache⟩ := g
    cases hhead
    simpa [FunctionRecord.same] using sameAll_of_mirrors constants constants' hconstants

theorem ModuleRecord.same_of_mirrors : (m n : ModuleRecord) → m.Mirrors I n → n.same m
  | ⟨_, requires, _, _, _, body⟩, n, h => by
    obtain ⟨name, requires', exports, stars, imports, body'⟩ := n
    obtain ⟨rfl, hrequires, rfl, rfl, rfl, hbody⟩ := h
    simpa [ModuleRecord.same] using And.intro (sameProps_of_mirrors requires requires' hrequires)
      (FunctionRecord.same_of_mirrors body body' hbody)

end

/-! ## Values that fit their fields -/

/-- An atom that stands for itself in every object: a number or a predefined one. -/
def Atom.isStatic (a : Atom) : Bool :=
  a.isIndex || a.isPredefined

/-- An atom with a 32-bit handle, the name of which a name list can hold. -/
structure Atom.Fits (t : AtomTable) (a : Atom) : Prop where
  handle : a.id < 0x100000000
  name : a.isPredefined = false → ∀ e ∈ t.entry? a, Text.unitCount e.name < 0x80000000

/-- An atom that is neither a number nor predefined, with a name that a name list can hold. -/
def Atom.Listed (t : AtomTable) (a : Atom) : Prop :=
  a.isPredefined = false ∧ ∃ e, t.entry? a = some e ∧ Text.unitCount e.name < 0x80000000

section

variable (P : Atom → Prop)

structure Variable.Fits (v : Variable) : Prop where
  name : P v.name
  level : v.scopeLevel < 0x100000000
  next : ∀ n ∈ v.scopeNext, n < 0xffffffff

structure ClosureVar.Fits (v : ClosureVar) : Prop where
  name : P v.name
  index : v.varIdx < 0x10000

structure DebugInfo.Fits (d : DebugInfo) : Prop where
  filename : P d.filename
  line : d.line < 0x100000000

/-- A function record up to its constants. -/
structure FunctionRecord.HeadFits (f : FunctionRecord) : Prop where
  name : P f.name
  mode : f.mode < 0x100
  argCount : f.argCount < 0x10000
  varCount : f.varCount < 0x10000
  definedArgCount : f.definedArgCount < 0x10000
  stackSize : f.stackSize < 0x10000
  slotVars : ∀ v ∈ f.slotVars, v.Fits P
  closureVars : ∀ v ∈ f.closureVars, v.Fits P
  code : ∀ instrs, decodeFinal f.code = .ok instrs → ∀ site ∈ atomSites instrs, P site.2
  debug : ∀ d ∈ f.debug, d.Fits P

def Export.Fits : Export → Prop
  | .ofLocal varIdx name => varIdx < 0x100000000 ∧ P name
  | .ofModule reqModule localName name => reqModule < 0x100000000 ∧ P localName ∧ P name

structure Import.Fits (i : Import) : Prop where
  varIdx : i.varIdx < 0x100000000
  name : P i.name
  reqModule : i.reqModule < 0x100000000

/-- A module record up to its required modules and its body. -/
structure ModuleRecord.HeadFits (m : ModuleRecord) : Prop where
  name : P m.name
  exports : ∀ e ∈ m.exports, e.Fits P
  stars : ∀ n ∈ m.starExports, n < 0x100000000
  imports : ∀ i ∈ m.imports, i.Fits P

variable (heap : List (Nat × Value))

mutual

/-- A value whose numbers fit their fields, whose texts can be stored and all atoms of which are `P`. `heap`
gives the array, object or template of each identity, so that one identity stands for one of them. -/
def Value.Fits : Value → Prop
  | .null | .undefined | .bool _ | .float _ | .bigint _ => True
  | .int n => fitsSigned 32 n = true
  | .string s => Text.unitCount s < 0x80000000
  | .array id items => heap.lookup id = some (.array id items) ∧ fitsAll items
  | .object id props => heap.lookup id = some (.object id props) ∧ fitsProps props
  | .template id cooked raw => heap.lookup id = some (.template id cooked raw) ∧ fitsAll cooked ∧ fitsAll raw
  | .function _ f => f.Fits
  | .module _ m => m.Fits

def fitsAll : List Value → Prop
  | [] => True
  | v :: rest => v.Fits ∧ fitsAll rest

def fitsProps : List Property → Prop
  | [] => True
  | ⟨key, v⟩ :: rest => P key ∧ v.Fits ∧ fitsProps rest

def FunctionRecord.Fits : FunctionRecord → Prop
  | ⟨name, flags, kind, mode, args, vars, defined, stack, slotVars, closure, code, debug, constants, cache⟩ =>
    FunctionRecord.HeadFits P ⟨name, flags, kind, mode, args, vars, defined, stack, slotVars, closure, code, debug,
      constants, cache⟩ ∧ fitsAll constants

def ModuleRecord.Fits : ModuleRecord → Prop
  | ⟨name, requires, exports, stars, imports, body⟩ =>
    ModuleRecord.HeadFits P ⟨name, requires, exports, stars, imports, body⟩ ∧ fitsProps requires ∧ body.Fits

end

end

end ScriptBytecode
