import ScriptBytecode.Binary64

/-!
# Reading decimals

A decimal numeral is read in two steps, each rounded to the nearest double: its leading digits as a
64-bit integer, then the product or quotient of that with a power of ten. Numerals of up to 15 digits
and small exponents come out exact; others may be off by a last bit.
-/

namespace ScriptBytecode.Binary64

/-- The exact value of a magnitude as a quotient. -/
def ratio (magnitude : Nat) : Nat × Nat :=
  match (ofMagnitude false magnitude).read with
  | .finite _ m e => (m * Nat.pow 2 e.toNat, Nat.pow 2 (-e).toNat)
  | _ => (0, 1)

/-- The magnitude of the double nearest to `10 ^ k`. -/
def powerOfTen (k : Nat) : Nat :=
  (nearest (Nat.pow 10 k) 1).getD 0

def timesPower (magnitude k : Nat) : Option Nat :=
  let (a, b) := ratio magnitude
  let (c, d) := ratio (powerOfTen k)
  nearest (a * c) (b * d)

def overPower (magnitude k : Nat) : Nat :=
  let (a, b) := ratio magnitude
  let (c, d) := ratio (powerOfTen k)
  (nearest (a * d) (b * c)).getD 0

/-- Divides by `10 ^ 308` while the exponent is below that of the greatest power, then by what is left.
Each division but the last uses up one step. -/
def overPowers : Nat → Nat → Nat → Nat
  | 0, magnitude, _ => magnitude
  | steps + 1, magnitude, k =>
    if k ≤ 308 then overPower magnitude k
    else if magnitude = 0 then 0
    else overPowers steps (overPower magnitude 308) (k - 308)

/-- `significand * 10 ^ exponent`; `none` if it is too large for a double. Three divisions by `10 ^ 308`
bring every 64-bit significand to zero. -/
def ofDecimal (significand : Nat) (exponent : Int) : Option Nat := do
  let start ← nearest significand 1
  if 0 ≤ exponent then
    if exponent ≤ 308 then timesPower start exponent.toNat
    else if start = 0 then some 0 else none
  else some (overPowers 5 start (-exponent).toNat)

end ScriptBytecode.Binary64
