/-!
# Atoms

An atom is a 32-bit handle of a name. Handles with the top bit set hold a small natural number
directly; all others are indices into an atom table.
-/

namespace ScriptBytecode

structure Atom where
  id : Nat
deriving DecidableEq, Inhabited, Hashable

/-- What an atom stands for. Only string atoms are found by their name. -/
inductive AtomKind where
  | string
  | symbol
  | privateBrand
deriving DecidableEq, Inhabited

namespace Atom

/-- The atom of "no name". -/
def null : Atom := ⟨0⟩

def indexTag : Nat := 0x80000000

def maxIndex : Nat := indexTag - 1

/-- The atom that holds `n`, for `n` below `2 ^ 31`. -/
def ofIndex? (n : Nat) : Option Atom :=
  if n ≤ maxIndex then some ⟨n + indexTag⟩ else none

def isIndex (a : Atom) : Bool :=
  indexTag ≤ a.id

def index? (a : Atom) : Option Nat :=
  if a.isIndex then some (a.id - indexTag) else none

def isNull (a : Atom) : Bool :=
  a.id == 0

/-- How an atom without a table is written: the number it holds, or its handle. -/
def text (a : Atom) : String :=
  match a.index? with
  | some n => "#" ++ toString n
  | none => "atom(" ++ toString a.id ++ ")"

/-- The number whose canonical decimal numeral is `s`, if it is below `2 ^ 31`. -/
def parseIndex (s : String) : Option Nat :=
  let digits := s.toList
  if digits.isEmpty || 10 < digits.length || !digits.all Char.isDigit then none
  else if 1 < digits.length && digits.head? == some '0' then none
  else
    let n := digits.foldl (fun n c => 10 * n + (c.toNat - 48)) 0
    if n ≤ maxIndex then some n else none

end Atom

end ScriptBytecode
