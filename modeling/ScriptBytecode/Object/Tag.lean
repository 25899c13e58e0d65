import ScriptBytecode.Instr.Codec

/-!
# Parts of the object format

An object starts with the version and the names of its atoms; then follows one value. Every value starts
with a tag. Atoms are written as indices: predefined atoms and small numbers keep their handle, all
others are numbered from `Atom.firstDynamic` on in the order of the name list.
-/

namespace ScriptBytecode.Object

def version : Nat := 2

inductive Tag where
  | null | undefined | false | true | int | float | string | object | array | bigInt | bigFloat
  | bigDecimal | template | function | module | typedArray | arrayBuffer | sharedArrayBuffer | date
  | objectValue | reference
deriving DecidableEq, Inhabited

namespace Tag

def byte (t : Tag) : UInt8 :=
  (t.ctorIdx + 1).toUInt8

def ofByte? (n : Nat) : Option Tag :=
  if 1 ≤ n && n ≤ 21 then some (Tag.ofNat (n - 1)) else none

def name : Tag → String
  | null => "Null"
  | undefined => "Undefined"
  | false => "False"
  | true => "True"
  | int => "Int32"
  | float => "Float64"
  | string => "String"
  | object => "Object"
  | array => "Array"
  | bigInt => "BigInt"
  | bigFloat => "BigFloat"
  | bigDecimal => "BigDecimal"
  | template => "TemplateObject"
  | function => "FunctionBytecode"
  | module => "Module"
  | typedArray => "TypedArray"
  | arrayBuffer => "ArrayBuffer"
  | sharedArrayBuffer => "SharedArrayBuffer"
  | date => "Date"
  | objectValue => "ObjectValue"
  | reference => "ObjectReference"

end Tag

/-- The tags of export entries. -/
def localExport : Nat := 0

def indirectExport : Nat := 1

/-! ## Big integers -/

/-- The two's complement of `n` in the fewest bytes, `fuel` and one at most. -/
def signedBytes : Nat → Int → Bytes
  | 0, n => [(n % 256).toNat.toUInt8]
  | fuel + 1, n =>
    let b := (n % 256).toNat
    let rest := n / 256
    if (rest = 0 && b < 128) || (rest = -1 && 128 ≤ b) then [b.toUInt8]
    else b.toUInt8 :: signedBytes fuel rest

/-- Zero takes no byte. -/
def bigIntBytes (n : Int) : Bytes :=
  if n = 0 then [] else signedBytes (n.natAbs.log2 / 8 + 1) n

def ofBigIntBytes (bytes : Bytes) : Int :=
  if bytes.isEmpty then 0 else signedWord (8 * bytes.length) (ofLeBytes bytes)

/-! ## Atoms in code -/

/-- The atom operands of code, each with its offset. -/
def atomSites (code : List Located) : List (Nat × Atom) :=
  code.filterMap fun here =>
    if here.instr.op.format.hasAtom then here.instr.arg.atom?.map (here.pos + 1, ·) else none

/-- Overwrites four-byte fields at ascending offsets; the bytes start at offset `pos`. -/
def patch (pos : Nat) : List (Nat × Nat) → Bytes → Bytes
  | [], bytes => bytes
  | (site, n) :: rest, bytes =>
    bytes.take (site - pos) ++ leBytes 4 n ++ patch (site + 4) rest (bytes.drop (site - pos + 4))

end ScriptBytecode.Object
