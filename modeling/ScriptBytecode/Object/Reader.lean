import ScriptBytecode.Object.Tag
import ScriptBytecode.Atom.Table
import ScriptBytecode.Text.Utf16
import ScriptBytecode.Text.Utf8
import ScriptBytecode.Value

/-!
# Reading objects

The reader moves over the bytes once. Atom names are interned into a table as they are met; arrays,
objects and templates are numbered in the order of their tags, and a reference gives the object of that
number, if it is complete. The identity of a compound value is the offset of its tag.
-/

namespace ScriptBytecode.Object

structure ReadState where
  rest : Bytes
  pos : Nat
  table : AtomTable
  /-- The atoms of the name list. -/
  atoms : Array Atom
  /-- The numbered objects; those still being read have no value. -/
  objects : Array (Option Value)

structure ReadOptions where
  allowReference : Bool
deriving DecidableEq, Inhabited

abbrev Read := ReaderT ReadOptions (StateT ReadState (Except Error))

namespace Read

/-- Fails at the current offset. -/
def fail {α : Type} (why : ReadFault) : Read α := do
  throw (.unreadable why (← get).pos)

def byte : Read Nat := do
  let s ← get
  match s.rest with
  | [] => fail .endOfInput
  | b :: rest =>
    set { s with rest, pos := s.pos + 1 }
    return b.toNat

def bytes (n : Nat) : Read Bytes := do
  let s ← get
  let taken := s.rest.take n
  if taken.length = n then
    set { s with rest := s.rest.drop n, pos := s.pos + n }
    return taken
  else fail (.missingBytes n)

def leb : Read Nat := do
  let s ← get
  let (n, used, rest) ← Leb128.read s.pos s.rest
  set { s with rest, pos := s.pos + used }
  return n

def signedLeb : Read Int := do
  return Leb128.unzigzag (← leb)

/-- A number of 16 bits at most. -/
def leb16 (field : String) : Read Nat := do
  let n ← leb
  if n < 0x10000 then return n else fail (.outOfRange field n)

/-- Reads `n` items behind those of `done`. -/
def many {α : Type} (item : Read α) : Nat → Array α → Read (Array α)
  | 0, done => return done
  | n + 1, done => do
    let a ← item
    many item n (done.push a)

/-- A count and as many items. -/
def counted {α : Type} (item : Read α) : Read (List α) := do
  return (← many item (← leb) #[]).toList

def text : Read String := do
  let header ← leb
  let n := header / 2
  if header % 2 = 1 then
    let units := Text.pairs (← bytes (2 * n))
    match Text.ofUnits [] units with
    | some cs => return String.ofList cs
    | none => fail .invalidUtf16
  else return String.ofList ((← bytes n).map fun b => Char.ofNat b.toNat)

/-- The atom of an index. -/
def atomOfIndex (n : Nat) : Read Atom := do
  let a : Atom := ⟨n⟩
  if a.isIndex || a.isPredefined then return a
  match (← get).atoms[n - Atom.firstDynamic]? with
  | some a => return a
  | none => fail (.invalidAtomIndex n)

def atom : Read Atom := do
  let n ← leb
  if n % 2 = 1 then
    match Atom.ofIndex? (n / 2) with
    | some a => return a
    | none => fail .integerAtomRange
  else atomOfIndex (n / 2)

def atomName : Read Unit := do
  let name ← text
  modify fun s =>
    let (a, table) := s.table.intern name
    { s with table, atoms := s.atoms.push a }

/-- Version and name list. -/
def head : Read Unit := do
  let v ← byte
  if v ≠ version then fail (.invalidVersion v version)
  let _ ← many atomName (← leb) #[]

def reserve : Read Nat :=
  modifyGet fun s => (s.objects.size, { s with objects := s.objects.push none })

def complete (slot : Nat) (v : Value) : Read Value := do
  modify fun s => { s with objects := s.objects.setIfInBounds slot (some v) }
  return v

def varKind (bits : Nat) : Read VarKind :=
  match VarKind.ofBits? bits with
  | some k => return k
  | none => fail (.invalidVarKind bits)

def variable_ : Read Variable := do
  let name ← atom
  let level ← leb
  let next ← leb
  let bits ← byte
  let kind ← varKind (bits % 16)
  return ⟨name, level, if next = 0 then none else some (next - 1), kind, bits.testBit 4,
    bits.testBit 5, bits.testBit 6⟩

def closureVar : Read ClosureVar := do
  let name ← atom
  let idx ← leb16 "closure variable index"
  let bits ← byte
  let kind ← varKind (bits / 16)
  return ⟨name, idx, bits.testBit 0, bits.testBit 1, bits.testBit 2, bits.testBit 3, kind⟩

/-- Faults in code are told by their offset in the object. -/
def shiftFault (start : Nat) : Error → Error
  | .unknownOpcode byte offset => .unknownOpcode byte (start + offset)
  | e => e

/-- Code with its atom indices replaced by atoms. -/
def code (n : Nat) : Read Bytes := do
  let start := (← get).pos
  let stored ← bytes n
  let instrs ← (decodeFinal stored).mapError (shiftFault start)
  let sites ← (atomSites instrs).mapM fun (pos, a) => return (pos, (← atomOfIndex a.id).id)
  return patch 0 sites stored

def debug : Read DebugInfo := do
  let filename ← atom
  let line ← leb
  let lines ← bytes (← leb)
  let stored ← bytes (← leb)
  match Text.readUtf8? stored with
  | some s => return ⟨filename, line, lines, if s.isEmpty then none else some s⟩
  | none => fail .invalidUtf8

def debug? (present : Bool) : Read (Option DebugInfo) :=
  if present then return some (← debug) else return none

/-- The arguments and locals; without any, not even their count is stored. -/
def slotVars (slots : Nat) : Read (List Variable) :=
  if slots = 0 then return []
  else do
    let stored ← leb
    if stored ≠ slots then fail (.localCount stored slots)
    else return (← many variable_ slots #[]).toList

def function (value : Read Value) : Read FunctionRecord := do
  let (flags, kind) := FunctionFlags.unpack (ofLeBytes (← bytes 2))
  let mode ← byte
  let name ← atom
  let args ← leb16 "argument count"
  let vars ← leb16 "variable count"
  let defined ← leb16 "defined argument count"
  let stack ← leb16 "stack size"
  let closureCount ← leb
  let constantCount ← leb
  let codeSize ← leb
  let slotVars ← slotVars (args + vars)
  let closure ← many closureVar closureCount #[]
  let code ← code codeSize
  let info ← debug? flags.hasDebug
  let constants ← many value constantCount #[]
  let cache ← InlineCache.ofCode code
  return ⟨name, flags, kind, mode, args, vars, defined, stack, slotVars, closure.toList, code, info,
    constants.toList, cache⟩

def exportEntry : Read Export := do
  let type ← byte
  if type = localExport then
    let varIdx ← leb
    return .ofLocal varIdx (← atom)
  else if type = indirectExport then
    let reqModule ← leb
    let localName ← atom
    return .ofModule reqModule localName (← atom)
  else fail (.invalidExport type)

def importEntry : Read Import := do
  let varIdx ← leb
  let isStar := (← byte) ≠ 0
  let name ← atom
  return ⟨varIdx, isStar, name, ← leb⟩

def property (value : Read Value) : Read Property := do
  let key ← atom
  return ⟨key, ← value⟩

def module (value : Read Value) : Read ModuleRecord := do
  let name ← atom
  let requires ← counted (property value)
  let exports ← counted exportEntry
  let stars ← counted leb
  let imports ← counted importEntry
  match ← value with
  | .function _ body => return ⟨name, requires, exports, stars, imports, body⟩
  | other => fail (.moduleBody other.typeName)

/-- The content of a value behind its tag, which stands at offset `start`. -/
def content (value : Read Value) (start : Nat) (tag : Tag) : Read Value := do
  match tag with
  | .null => return .null
  | .undefined => return .undefined
  | .false => return .bool false
  | .true => return .bool true
  | .int => return .int (← signedLeb)
  | .float => return .float ⟨(ofLeBytes (← bytes 8)).toUInt64⟩
  | .string => return .string (← text)
  | .bigInt => return .bigint (ofBigIntBytes (← bytes (← leb)))
  | .array =>
    let slot ← reserve
    complete slot (.array start (← counted value))
  | .object =>
    let slot ← reserve
    complete slot (.object start (← counted (property value)))
  | .template =>
    let slot ← reserve
    let cooked ← counted value
    match ← value with
    | .array _ raw => complete slot (.template start cooked raw)
    | other => fail (.templateRaw other.typeName)
  | .function => return .function start (← function value)
  | .module => return .module start (← module value)
  | .reference =>
    if !(← read).allowReference then throw (.unreadable .referencesRefused start)
    let index ← leb
    match (← get).objects[index]? with
    | some (some v) => return v
    | some none => fail (.objectUnfinished index)
    | none => fail (.invalidReference index)
  | .bigFloat | .bigDecimal | .typedArray | .arrayBuffer | .sharedArrayBuffer | .date
  | .objectValue => throw (.unreadable (.unsupportedTag tag.name) start)

/-- A value nested at most `depth` deep. -/
def value : Nat → Read Value
  | 0 => fail .endOfInput
  | depth + 1 => do
    let start := (← get).pos
    let b ← byte
    match Tag.ofByte? b with
    | some tag => content (value depth) start tag
    | none => throw (.unreadable (.invalidTag b) start)

/-- A whole object: every level of nesting takes a byte at least. -/
def object (size : Nat) : Read Value := do
  head
  let v ← value (size + 1)
  if (← get).rest.isEmpty then return v else fail .trailingBytes

end Read

/-- Reads an object; gives its value and the table with the object's atoms. -/
def decode (bytes : Bytes) (table : AtomTable) (options : ReadOptions) : Result (Value × AtomTable) := do
  let (v, s) ← ((Read.object bytes.length).run options).run ⟨bytes, 0, table, #[], #[]⟩
  return (v, s.table)

end ScriptBytecode.Object
