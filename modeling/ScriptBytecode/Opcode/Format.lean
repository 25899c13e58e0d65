/-!
# Operand formats

Every opcode has one operand format. A format says what the operand means and, through its `Shape`,
which fields follow the opcode byte.
-/

namespace ScriptBytecode

/-- The fields after an opcode byte. Widths are in bytes; an atom takes four. -/
inductive Shape where
  | empty
  | int (signed : Bool) (width : Nat)
  | intPair
  | atom
  | atomInt (width : Nat)
  | label (width : Nat)
  | atomLabel (width : Nat)
  | labelInt (width : Nat)
deriving DecidableEq

namespace Shape

/-- The number of bytes that the fields take. -/
def size : Shape → Nat
  | empty => 0
  | int _ w => w
  | intPair => 4
  | atom => 4
  | atomInt w => 4 + w
  | label w => w
  | atomLabel w => 8 + w
  | labelInt w => 4 + w

def hasLabel : Shape → Bool
  | label _ | atomLabel _ | labelInt _ => true
  | _ => false

def hasAtom : Shape → Bool
  | atom | atomInt _ | atomLabel _ => true
  | _ => false

/-- How far the label field stands from the opcode byte. -/
def labelOffset : Shape → Nat
  | atomLabel _ => 5
  | _ => 1

/-- The width of the label field. -/
def labelWidth : Shape → Nat
  | label w => w
  | _ => 4

end Shape

/-- What an operand means. The implied formats have no field: the opcode itself stands for a number. -/
inductive Format where
  | none | impliedInt | impliedLoc | impliedArg | impliedVarRef | impliedCount
  | u8 | i8 | loc8 | const8 | label8
  | u16 | i16 | label16 | count | loc | arg | varRef | countU16
  | u32 | i32 | const | label | atom
  | atomU8 | atomU16 | atomLabelU8 | atomLabelU16 | labelU16
deriving DecidableEq, Inhabited

namespace Format

def shape : Format → Shape
  | none | impliedInt | impliedLoc | impliedArg | impliedVarRef | impliedCount => .empty
  | u8 | loc8 | const8 => .int false 1
  | i8 => .int true 1
  | u16 | count | loc | arg | varRef => .int false 2
  | i16 => .int true 2
  | u32 | i32 | const => .int true 4
  | countU16 => .intPair
  | atom => .atom
  | atomU8 => .atomInt 1
  | atomU16 => .atomInt 2
  | label8 => .label 1
  | label16 => .label 2
  | label => .label 4
  | atomLabelU8 => .atomLabel 1
  | atomLabelU16 => .atomLabel 2
  | labelU16 => .labelInt 2

def operandSize (f : Format) : Nat :=
  f.shape.size

def hasLabel (f : Format) : Bool :=
  f.shape.hasLabel

def hasAtom (f : Format) : Bool :=
  f.shape.hasAtom

end Format

end ScriptBytecode
