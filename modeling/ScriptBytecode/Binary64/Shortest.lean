import ScriptBytecode.Binary64

/-!
# Shortest decimals

A double is written with the fewest digits that are read back as the same double: the coarsest grid of
multiples of a power of ten that has a point among the reals which round to it, and on that grid the
point nearest to it. The text is positional, whatever the magnitude.
-/

namespace ScriptBytecode.Binary64

/-- The reals that round to a double, as `low / den` to `high / den` around `mid / den`. -/
structure Neighbourhood where
  low : Nat
  mid : Nat
  high : Nat
  den : Nat
  /-- Do the ends belong to it? -/
  closed : Bool

/-- The reals that round to `m * 2 ^ e`. Below a power of two the doubles are closer together. -/
def neighbourhood (m : Nat) (e : Int) : Neighbourhood :=
  let up := Nat.pow 2 (e - 2).toNat
  let gap := if m = fractionCount && e ≠ -1074 then 1 else 2
  ⟨(4 * m - gap) * up, 4 * m * up, (4 * m + 2) * up, Nat.pow 2 (2 - e).toNat, m % 2 = 0⟩

/-- Does the multiple `d` of `10 ^ k` lie in the neighbourhood? -/
def Neighbourhood.holds (n : Neighbourhood) (d : Nat) (k : Int) : Bool :=
  let p := d * n.den * Nat.pow 10 k.toNat
  let s := Nat.pow 10 (-k).toNat
  if n.closed then n.low * s ≤ p && p ≤ n.high * s else n.low * s < p && p < n.high * s

/-- The multiple of `10 ^ k` in the neighbourhood that is nearest to its middle; of two at the same
distance the greater. -/
def Neighbourhood.onGrid (n : Neighbourhood) (k : Int) : Option Nat :=
  let num := n.mid * Nat.pow 10 (-k).toNat
  let den := n.den * Nat.pow 10 k.toNat
  let d := num / den
  let nearer := if 2 * (num % den) < den then d else d + 1
  let other := if nearer = d then d + 1 else d
  if n.holds nearer k then some nearer else if n.holds other k then some other else none

/-- The first grid from `10 ^ k` down that has a point in the neighbourhood. -/
def Neighbourhood.coarsest (n : Neighbourhood) : Nat → Int → Nat × Int
  | 0, k => (0, k)
  | steps + 1, k =>
    match n.onGrid k with
    | some d => (d, k)
    | none => coarsest n steps (k - 1)

/-- Digits and exponent of the shortest decimal. Doubles lie between `10 ^ -324` and `10 ^ 309` and need 17
digits at most. -/
def shortest (m : Nat) (e : Int) : Nat × Int :=
  (neighbourhood m e).coarsest 660 309

/-- `d * 10 ^ k` without an exponent. -/
def positional (d : Nat) (k : Int) : String :=
  if 0 ≤ k then toString (d * Nat.pow 10 k.toNat)
  else
    let places := (-k).toNat
    let fraction := toString (d % Nat.pow 10 places)
    toString (d / Nat.pow 10 places) ++ "."
      ++ String.ofList (List.replicate (places - fraction.length) '0') ++ fraction

def text (x : Binary64) : String :=
  match x.read with
  | .nan => "NaN"
  | .infinite negative => (if negative then "-" else "") ++ "inf"
  | .finite negative m e =>
    let (d, k) := if m = 0 then (0, 0) else shortest m e
    (if negative then "-" else "") ++ positional d k

/-- How a number names a property: an integer below `10 ^ 21` by its numeral, with values beyond 64 bits
cut to the nearest 64-bit integer, anything else by its shortest decimal. -/
def keyText (x : Binary64) : String :=
  match x.toInt? with
  | some n =>
    if n.natAbs < 1000000000000000000000 then
      toString (max (-0x8000000000000000) (min n 0x7fffffffffffffff))
    else x.text
  | none => x.text

end ScriptBytecode.Binary64
