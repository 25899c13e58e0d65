import ScriptBytecode.Object.Tag
import ScriptBytecode.Atom.Table
import ScriptBytecode.Text.Utf16
import ScriptBytecode.Text.Utf8
import ScriptBytecode.Value

/-!
# Writing objects

The value is written first, which numbers the atoms in the order in which they are met; then the list of
their names is put in front of it. With references allowed, an array, object or template that was written
before is written as a reference to its first occurrence.
-/

namespace ScriptBytecode.Object

structure WriteOptions where
  allowReference : Bool
  stripDebug : Bool
  stripSource : Bool
deriving DecidableEq, Inhabited

structure WriteState where
  /-- The atoms numbered so far. -/
  atoms : Array Atom
  /-- The index of each object met so far, by identity. -/
  objects : List (Nat × Nat)
  /-- The number of object indices given out. -/
  count : Nat

structure WriteEnv where
  table : AtomTable
  options : WriteOptions

abbrev Write := ReaderT WriteEnv (StateT WriteState (Except Error))

namespace Write

def fail {α : Type} (why : WriteFault) : Write α :=
  throw (.unwritable why)

def count (n : Nat) : Write Bytes :=
  if n < 0x100000000 then return Leb128.write n else fail (.countTooLarge n)

/-- The index of an atom; an atom that is met first gets the next one. -/
def atomIndex (a : Atom) : Write Nat := do
  if a.isIndex || a.isPredefined then return a.id
  let s ← get
  match s.atoms.findIdx? (· == a) with
  | some i => return Atom.firstDynamic + i
  | none =>
    if (← read).table.has a then
      set { s with atoms := s.atoms.push a }
      return Atom.firstDynamic + s.atoms.size
    else fail (.unknownAtom a)

def atom (a : Atom) : Write Bytes := do
  match a.index? with
  | some n => return Leb128.write (2 * n + 1)
  | none => return Leb128.write (2 * (← atomIndex a) % 0x100000000)

/-- Gives an object the next index, unless references are allowed and it has one. -/
def register (id : Nat) : Write (Option Nat) := do
  let s ← get
  match (if (← read).options.allowReference then s.objects.lookup id else none) with
  | some index => return some index
  | none =>
    set { s with objects := (id, s.count) :: s.objects, count := s.count + 1 }
    return none

/-- Uses up an index for an object that nothing refers to. -/
def registerAnonymous : Write Unit :=
  modify fun s => { s with count := s.count + 1 }

/-- The reference to an object met before, or else its first occurrence. -/
def shared (id : Nat) (body : Write Bytes) : Write Bytes := do
  match ← register id with
  | some index => return Tag.reference.byte :: Leb128.write index
  | none => body

def variable_ (v : Variable) : Write Bytes := do
  let flag := FunctionFlags.bit
  let bits := v.kind.toBits + flag v.isConst 4 + flag v.isLexical 5 + flag v.isCaptured 6
  return (← atom v.name) ++ Leb128.write v.scopeLevel
    ++ Leb128.write (v.scopeNext.elim 0 (· + 1)) ++ [bits.toUInt8]

def closureVar (v : ClosureVar) : Write Bytes := do
  let flag := FunctionFlags.bit
  let bits := flag v.isLocal 0 + flag v.isArg 1 + flag v.isConst 2 + flag v.isLexical 3
    + v.kind.toBits * 16
  return (← atom v.name) ++ Leb128.write v.varIdx ++ [bits.toUInt8]

/-- Code with its atoms replaced by their indices. -/
def code (bytes : Bytes) : Write Bytes := do
  let instrs ← decodeFinal bytes
  let sites ← (atomSites instrs).mapM fun (pos, a) => return (pos, ← atomIndex a)
  return patch 0 sites bytes

def debug (d : DebugInfo) : Write Bytes := do
  let file ← atom d.filename
  let lines ← count d.lines.length
  let source := if (← read).options.stripSource then [] else d.source.elim [] Text.utf8
  let size ← count source.length
  return file ++ Leb128.write d.line ++ lines ++ d.lines ++ size ++ source

def debug? : Option DebugInfo → Write Bytes
  | some d => debug d
  | none => return []

/-- The arguments and locals; without any, not even their count is written. -/
def slotVars (slots : Nat) (vars : List Variable) : Write Bytes :=
  if slots = 0 then return []
  else return (← count slots) ++ (← vars.mapM variable_).flatten

/-- A function record up to its constants. -/
def functionHead (f : FunctionRecord) (constants : Nat) : Write Bytes := do
  let slots := f.argCount + f.varCount
  if f.slotVars.length ≠ slots then fail (.variableCount f.name f.slotVars.length slots)
  let info := if (← read).options.stripDebug then none else f.debug
  let flags := { f.flags with hasDebug := info.isSome }
  let name ← atom f.name
  let closureCount ← count f.closureVars.length
  let constantCount ← count constants
  let codeCount ← count f.code.length
  let slotVars ← slotVars slots f.slotVars
  let closure ← f.closureVars.mapM closureVar
  let code ← code f.code
  let info ← debug? info
  return Tag.function.byte :: leBytes 2 (flags.pack f.kind) ++ [f.mode.toUInt8] ++ name
    ++ Leb128.write f.argCount ++ Leb128.write f.varCount ++ Leb128.write f.definedArgCount
    ++ Leb128.write f.stackSize ++ closureCount ++ constantCount ++ codeCount ++ slotVars
    ++ closure.flatten ++ code ++ info

def exportEntry : Export → Write Bytes
  | .ofLocal varIdx name =>
    return localExport.toUInt8 :: Leb128.write varIdx ++ (← atom name)
  | .ofModule reqModule localName name =>
    return indirectExport.toUInt8 :: Leb128.write reqModule ++ (← atom localName) ++ (← atom name)

def importEntry (i : Import) : Write Bytes :=
  return Leb128.write i.varIdx ++ [if i.isStar then 1 else 0] ++ (← atom i.name)
    ++ Leb128.write i.reqModule

mutual

def value : Value → Write Bytes
  | .null => return [Tag.null.byte]
  | .undefined => return [Tag.undefined.byte]
  | .bool false => return [Tag.false.byte]
  | .bool true => return [Tag.true.byte]
  | .int n => return Tag.int.byte :: Leb128.writeSigned n
  | .float x => return Tag.float.byte :: leBytes 8 x.bits.toNat
  | .string s => return Tag.string.byte :: Text.store s
  | .bigint n => do
    let bytes := bigIntBytes n
    return Tag.bigInt.byte :: (← count bytes.length) ++ bytes
  | .array id items => shared id do
    return Tag.array.byte :: (← count items.length) ++ (← values items)
  | .object id props => shared id do
    return Tag.object.byte :: (← count props.length) ++ (← properties props)
  | .template id cooked raw => shared id do
    let first := (← count cooked.length) ++ (← values cooked)
    registerAnonymous
    return Tag.template.byte :: first
      ++ Tag.array.byte :: (← count raw.length) ++ (← values raw)
  | .function _ f => function f
  | .module _ m => module m

def values : List Value → Write Bytes
  | [] => return []
  | v :: rest => return (← value v) ++ (← values rest)

def properties : List Property → Write Bytes
  | [] => return []
  | ⟨key, v⟩ :: rest => return (← atom key) ++ (← value v) ++ (← properties rest)

def function : FunctionRecord → Write Bytes
  | ⟨name, flags, kind, mode, args, vars, defined, stack, slotVars, closure, code, debug,
      constants, cache⟩ => do
    let f : FunctionRecord := ⟨name, flags, kind, mode, args, vars, defined, stack, slotVars,
      closure, code, debug, [], cache⟩
    return (← functionHead f constants.length) ++ (← values constants)

def module : ModuleRecord → Write Bytes
  | ⟨name, requires, exports, stars, imports, body⟩ => do
    let name ← atom name
    let reqs := (← count requires.length) ++ (← properties requires)
    let exports := (← count exports.length) ++ (← exports.mapM exportEntry).flatten
    let stars := (← count stars.length) ++ stars.flatMap Leb128.write
    let imports := (← count imports.length) ++ (← imports.mapM importEntry).flatten
    return Tag.module.byte :: name ++ reqs ++ exports ++ stars ++ imports ++ (← function body)

end

end Write

/-- The names of the numbered atoms. -/
def atomNames (table : AtomTable) (atoms : List Atom) : Result (List String) :=
  atoms.mapM fun a =>
    match table.name? a with
    | some name => .ok name
    | none => .error (.unwritable (.unknownAtom a))

def encode (v : Value) (table : AtomTable) (options : WriteOptions) : Result Bytes := do
  let (body, s) ← ((Write.value v).run ⟨table, options⟩).run ⟨#[], [], 0⟩
  let names ← atomNames table s.atoms.toList
  return version.toUInt8 :: Leb128.write names.length ++ names.flatMap Text.store ++ body

end ScriptBytecode.Object
