import ScriptBytecode.Leb128

/-!
# Line tables

A line table says at which offset of the code which source line begins. It is stored as differences
from one entry to the next: small ones in a single byte, all others behind a zero byte.
-/

namespace ScriptBytecode

structure LineEntry where
  pc : Nat
  line : Nat
deriving DecidableEq, Inhabited

abbrev LineTable := List LineEntry

namespace LineTable

/-- The line of an offset; of several entries for one offset the last counts. -/
def lineAt? (t : LineTable) (pc : Nat) : Option Nat :=
  t.foldl (fun found e => if e.pc = pc then some e.line else found) none

/-- One byte holds a line difference from `-1` to `3` and an offset difference up to `50`. -/
def packed (dpc dline : Int) : Option Bytes :=
  if -1 ≤ dline && dline < 4 && dpc ≤ 50 then
    some [(unsignedWord 8 (dline + 1 + dpc * 5 + 1)).toUInt8]
  else none

def step (dpc dline : Int) : Bytes :=
  (packed dpc dline).getD
    (0 :: Leb128.write (unsignedWord 32 dpc) ++ Leb128.writeSigned dline)

/-- The differences from an entry at `pc` and `line` on. An entry that repeats the one before it is
left out. -/
def encodeFrom (pc line : Nat) : LineTable → Bytes
  | [] => []
  | e :: rest =>
    let dpc := signedWord 32 (e.pc - pc)
    let dline := signedWord 32 e.line - signedWord 32 line
    if dline = 0 && dpc = 0 then encodeFrom pc line rest
    else step dpc dline ++ encodeFrom e.pc e.line rest

/-- A table whose code starts on line `base`. -/
def encode (base : Nat) (t : LineTable) : Bytes :=
  encodeFrom 0 base t

/-- Reads at most `fuel` differences from offset `pos` of the encoded table. -/
def decodeFrom : Nat → Nat → Nat → Int → Array LineEntry → Bytes → Result (Array LineEntry)
  | 0, _, _, _, done, _ => .ok done
  | _ + 1, _, _, _, done, [] => .ok done
  | fuel + 1, pos, pc, line, done, b :: bytes => do
    let (dpc, dline, used, rest) ←
      if b = 0 then do
        let (dpc, used, rest) ← Leb128.read (pos + 1) bytes
        let (dline, more, rest) ← Leb128.readSigned (pos + 1 + used) rest
        pure (dpc, dline, used + more, rest)
      else
        let v := b.toNat - 1
        pure (v / 5, (v % 5 : Nat) - (1 : Int), 0, bytes)
    let pc := pc + dpc
    let line := line + dline
    decodeFrom fuel (pos + 1 + used) pc line (done.push ⟨pc, unsignedWord 32 (max line 0)⟩) rest

def decode (base : Nat) (bytes : Bytes) : Result LineTable :=
  return (← decodeFrom bytes.length 0 0 base #[] bytes).toList

end LineTable

end ScriptBytecode
