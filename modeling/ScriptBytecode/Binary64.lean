/-!
# Double-precision numbers

A double is kept as its 64 bits. Nothing here uses floating-point arithmetic: a finite double is read as
`m * 2 ^ e`, and a quotient of naturals is rounded to the nearest double in exact arithmetic.
-/

namespace ScriptBytecode

structure Binary64 where
  bits : UInt64
deriving DecidableEq, Inhabited

namespace Binary64

/-- What a double stands for: no number, an infinity, or `m * 2 ^ e` with a sign. -/
inductive Reading where
  | nan
  | infinite (negative : Bool)
  | finite (negative : Bool) (m : Nat) (e : Int)
deriving DecidableEq

/-- The highest bit, `2 ^ 63`. -/
abbrev signBit : Nat := 0x8000000000000000

/-- The number of fractions, `2 ^ 52`; the exponent stands above the fraction. -/
abbrev fractionCount : Nat := 0x10000000000000

def isNegative (x : Binary64) : Bool :=
  signBit ≤ x.bits.toNat

/-- The bits without the sign. -/
def magnitude (x : Binary64) : Nat :=
  x.bits.toNat % signBit

def read (x : Binary64) : Reading :=
  let exponent : Nat := x.magnitude / fractionCount
  let fraction := x.magnitude % fractionCount
  if exponent = 2047 then
    if fraction = 0 then .infinite x.isNegative else .nan
  else if exponent = 0 then .finite x.isNegative fraction (-1074)
  else .finite x.isNegative (fraction + fractionCount) ((exponent : Int) - 1075)

def ofMagnitude (negative : Bool) (n : Nat) : Binary64 :=
  ⟨(if negative then n + signBit else n).toUInt64⟩

/-- The power of two `e` to which a quotient is rounded: so that 53 bits remain, but never below the
exponent of the smallest doubles. -/
def unitOf (num den : Nat) : Int :=
  let e := (num.log2 : Int) - den.log2 - 53
  let q := num * Nat.pow 2 (-e).toNat / (den * Nat.pow 2 e.toNat)
  max (if q < 2 * fractionCount then e else e + 1) (-1074)

/-- The magnitude of the double nearest to `num / den`, the even one of two at the same distance; `none`
if that is beyond the greatest double. -/
def nearest (num den : Nat) : Option Nat :=
  if num = 0 then some 0
  else
    let e := unitOf num den
    let num := num * Nat.pow 2 (-e).toNat
    let den := den * Nat.pow 2 e.toNat
    let q := num / den
    let twice := 2 * (num % den)
    let m := if den < twice || (twice = den && q % 2 = 1) then q + 1 else q
    let bits := (e + 1074).toNat * fractionCount + m
    if bits < 2047 * fractionCount then some bits else none

/-- The integer that a double is. -/
def toInt? (x : Binary64) : Option Int :=
  match x.read with
  | .finite negative m e =>
    let num := m * Nat.pow 2 e.toNat
    let den := Nat.pow 2 (-e).toNat
    if num % den = 0 then
      let n : Int := (num / den : Nat)
      some (if negative then -n else n)
    else none
  | _ => none

def isNegativeZero (x : Binary64) : Bool :=
  x.bits.toNat == signBit

end Binary64

end ScriptBytecode
