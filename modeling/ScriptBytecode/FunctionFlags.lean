/-!
# Function kinds and flags

Both share one 16-bit word: the kind takes bits four and five, every flag one of the others.
-/

namespace ScriptBytecode

inductive FunctionKind where
  | normal | generator | async | asyncGenerator
deriving DecidableEq, Inhabited

namespace FunctionKind

def of (isAsync isGenerator : Bool) : FunctionKind :=
  match isAsync, isGenerator with
  | false, false => normal
  | false, true => generator
  | true, false => async
  | true, true => asyncGenerator

def toBits : FunctionKind → Nat
  | normal => 0
  | generator => 1
  | async => 2
  | asyncGenerator => 3

/-- Only the last two bits count. -/
def ofBits (n : Nat) : FunctionKind :=
  of (n.testBit 1) (n.testBit 0)

def isGenerator : FunctionKind → Bool
  | generator | asyncGenerator => true
  | _ => false

def isAsync : FunctionKind → Bool
  | async | asyncGenerator => true
  | _ => false

theorem ofBits_toBits (k : FunctionKind) : ofBits k.toBits = k := by
  cases k <;> rfl

end FunctionKind

structure FunctionFlags where
  hasPrototype : Bool
  simpleParams : Bool
  derivedConstructor : Bool
  needHomeObject : Bool
  newTargetAllowed : Bool
  superCallAllowed : Bool
  superAllowed : Bool
  argumentsAllowed : Bool
  hasDebug : Bool
  isEval : Bool
deriving DecidableEq

namespace FunctionFlags

def none : FunctionFlags :=
  ⟨false, false, false, false, false, false, false, false, false, false⟩

instance : Inhabited FunctionFlags := ⟨none⟩

/-- A flag's share of the word. -/
def bit (flag : Bool) (place : Nat) : Nat :=
  if flag then Nat.pow 2 place else 0

def toBits (f : FunctionFlags) : Nat :=
  bit f.hasPrototype 0 + bit f.simpleParams 1 + bit f.derivedConstructor 2 + bit f.needHomeObject 3
    + bit f.newTargetAllowed 6 + bit f.superCallAllowed 7 + bit f.superAllowed 8
    + bit f.argumentsAllowed 9 + bit f.hasDebug 10 + bit f.isEval 11

/-- Bits that are no flag do not count. -/
def ofBits (n : Nat) : FunctionFlags where
  hasPrototype := n.testBit 0
  simpleParams := n.testBit 1
  derivedConstructor := n.testBit 2
  needHomeObject := n.testBit 3
  newTargetAllowed := n.testBit 6
  superCallAllowed := n.testBit 7
  superAllowed := n.testBit 8
  argumentsAllowed := n.testBit 9
  hasDebug := n.testBit 10
  isEval := n.testBit 11

/-- The word of flags and kind. -/
def pack (f : FunctionFlags) (kind : FunctionKind) : Nat :=
  f.toBits + kind.toBits * 16

def unpack (word : Nat) : FunctionFlags × FunctionKind :=
  (ofBits word, .ofBits (word / 16))

end FunctionFlags

end ScriptBytecode
