import ScriptBytecode.Error

/-!
# LEB128 numbers

A 32-bit number is written in groups of seven bits, lowest first; every byte but the last has its
high bit set. Signed numbers are folded onto the naturals (`0, -1, 1, -2, …`) first, so that small
negative numbers stay short.
-/

namespace ScriptBytecode.Leb128

/-- The groups of `n`, at most `more` of them followed by another. -/
def groups : Nat → Nat → Bytes
  | 0, n => [(n % 128).toUInt8]
  | more + 1, n =>
    if n < 128 then [n.toUInt8] else (n % 128 + 128).toUInt8 :: groups more (n / 128)

/-- A number below `2 ^ 32`, in one to five bytes. -/
def write (n : Nat) : Bytes :=
  groups 4 n

/-- Folds the integers onto the naturals. -/
def zigzag (i : Int) : Nat :=
  if 0 ≤ i then 2 * i.toNat else 2 * (-i).toNat - 1

def unzigzag (n : Nat) : Int :=
  if n % 2 = 0 then (n / 2 : Nat) else -((n / 2 : Nat) : Int) - 1

def writeSigned (i : Int) : Bytes :=
  write (zigzag i)

/-- Reads up to `left` further groups of a number that began at `start`; `seen` groups are already in
`value`. Gives the number, how many bytes it took and the bytes after it. -/
def readGroups (start : Nat) : Nat → Nat → Nat → Bytes → Result (Nat × Nat × Bytes)
  | 0, _, _, _ => .error (.unreadable .overlongLeb start)
  | _ + 1, seen, _, [] => .error (.unreadable .truncatedLeb (start + seen))
  | left + 1, seen, value, b :: rest =>
    let value := (value + b.toNat % 128 * Nat.pow 2 (7 * seen)) % 0x100000000
    if b.toNat < 128 then .ok (value, seen + 1, rest)
    else readGroups start left (seen + 1) value rest

/-- The number at the start of `bytes`, which stand at offset `start`. -/
def read (start : Nat) (bytes : Bytes) : Result (Nat × Nat × Bytes) :=
  readGroups start 5 0 0 bytes

def readSigned (start : Nat) (bytes : Bytes) : Result (Int × Nat × Bytes) := do
  let (n, used, rest) ← read start bytes
  return (unzigzag n, used, rest)

end ScriptBytecode.Leb128
