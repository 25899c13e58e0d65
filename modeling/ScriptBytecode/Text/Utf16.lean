import ScriptBytecode.Leb128

/-!
# Stored text

Text is stored as a header, which holds the length and the width of its units, and the units. Units are
bytes if every character fits into one, else the 16-bit units of UTF-16.
-/

namespace ScriptBytecode.Text

/-- The UTF-16 units of a character. -/
def units (c : Char) : List Nat :=
  let n := c.toNat
  if n < 0x10000 then [n]
  else [0xd800 + (n - 0x10000) / 0x400, 0xdc00 + (n - 0x10000) % 0x400]

def isHigh (u : Nat) : Bool :=
  0xd800 ≤ u && u < 0xdc00

def isLow (u : Nat) : Bool :=
  0xdc00 ≤ u && u < 0xe000

/-- The characters of UTF-16 units behind those of `done`, which are in reverse order; `none` if a surrogate
stands alone. -/
def ofUnits : List Char → List Nat → Option (List Char)
  | done, [] => some done.reverse
  | done, u :: rest =>
    if isLow u then none
    else if isHigh u then
      match rest with
      | v :: rest =>
        if isLow v then
          ofUnits (Char.ofNat (0x10000 + (u - 0xd800) * 0x400 + (v - 0xdc00)) :: done) rest
        else none
      | [] => none
    else ofUnits (Char.ofNat u :: done) rest

/-- The units of two bytes each. -/
def pairs : Bytes → List Nat
  | a :: b :: rest => (a.toNat + 256 * b.toNat) :: pairs rest
  | _ => []

def isWide (s : String) : Bool :=
  s.toList.any (0xff < ·.toNat)

/-- A text in its stored form. -/
def store (s : String) : Bytes :=
  if isWide s then
    let us := s.toList.flatMap units
    Leb128.write (us.length * 2 % 0x100000000 + 1) ++ us.flatMap (leBytes 2)
  else
    Leb128.write (s.toList.length * 2 % 0x100000000) ++ s.toList.map (·.toNat.toUInt8)

end ScriptBytecode.Text
