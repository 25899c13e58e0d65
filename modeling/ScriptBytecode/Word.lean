/-!
# Words and bytes

Code and objects are byte lists. A field of `k` bytes holds a natural number below `256 ^ k`, least
significant byte first; a signed field holds the same bits read in two's complement.
-/

namespace ScriptBytecode

abbrev Bytes := List UInt8

/-- The last `k` base-256 digits of `n`, least significant first. -/
def leBytes : Nat → Nat → Bytes
  | 0, _ => []
  | k + 1, n => n.toUInt8 :: leBytes k (n / 256)

def ofLeBytes : Bytes → Nat
  | [] => 0
  | b :: rest => b.toNat + 256 * ofLeBytes rest

/-- The signed number whose two's complement on `bits` bits is `n`. -/
def signedWord (bits n : Nat) : Int :=
  if n < Nat.pow 2 (bits - 1) then n else (n : Int) - Nat.pow 2 bits

/-- The two's complement of `i` on `bits` bits. -/
def unsignedWord (bits : Nat) (i : Int) : Nat :=
  (i % Nat.pow 2 bits).toNat

/-- Does `i` have a two's complement on `bits` bits? -/
def fitsSigned (bits : Nat) (i : Int) : Bool :=
  -Nat.pow 2 (bits - 1) ≤ i && i < Nat.pow 2 (bits - 1)

def hexDigit (n : Nat) : Char :=
  if n < 10 then Char.ofNat (48 + n) else Char.ofNat (87 + n)

/-- The two lower-case hexadecimal digits of a byte. -/
def hexByte (b : UInt8) : String :=
  String.ofList [hexDigit (b.toNat / 16), hexDigit (b.toNat % 16)]

@[simp] theorem length_leBytes (k n : Nat) : (leBytes k n).length = k := by
  induction k generalizing n with
  | zero => rfl
  | succ k ih => simp [leBytes, ih]

end ScriptBytecode
