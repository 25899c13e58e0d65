import ScriptBytecode.Word

/-!
# UTF-8
-/

namespace ScriptBytecode.Text

def utf8Char (c : Char) : Bytes :=
  let n := c.toNat
  let tail (k : Nat) : UInt8 := (0x80 + n / Nat.pow 64 k % 64).toUInt8
  if n < 0x80 then [n.toUInt8]
  else if n < 0x800 then [(0xc0 + n / 64).toUInt8, tail 0]
  else if n < 0x10000 then [(0xe0 + n / 0x1000).toUInt8, tail 1, tail 0]
  else [(0xf0 + n / 0x40000).toUInt8, tail 2, tail 1, tail 0]

def utf8 (s : String) : Bytes :=
  s.toList.flatMap utf8Char

/-- The six bits of a byte that continues a character. -/
def tailBits? (b : UInt8) : Option Nat :=
  if 0x80 ≤ b.toNat && b.toNat < 0xc0 then some (b.toNat - 0x80) else none

/-- The character `n`, if it needs no fewer bytes than it was written with. -/
def charFrom? (least n : Nat) : Option Char :=
  if least ≤ n && n.isValidChar then some (Char.ofNat n) else none

/-- The characters of UTF-8 bytes behind those of `done`, which are in reverse order. -/
def ofUtf8 (done : List Char) : Bytes → Option (List Char)
  | [] => some done.reverse
  | a :: rest =>
    if a.toNat < 0x80 then ofUtf8 (Char.ofNat a.toNat :: done) rest
    else
      match rest with
      | [] => none
      | b :: rest =>
        match tailBits? b with
        | none => none
        | some y =>
          if 0xc0 ≤ a.toNat && a.toNat < 0xe0 then
            match charFrom? 0x80 ((a.toNat - 0xc0) * 64 + y) with
            | none => none
            | some ch => ofUtf8 (ch :: done) rest
          else
            match rest with
            | [] => none
            | c :: rest =>
              match tailBits? c with
              | none => none
              | some z =>
                if 0xe0 ≤ a.toNat && a.toNat < 0xf0 then
                  match charFrom? 0x800 ((a.toNat - 0xe0) * 0x1000 + y * 64 + z) with
                  | none => none
                  | some ch => ofUtf8 (ch :: done) rest
                else
                  match rest with
                  | [] => none
                  | d :: rest =>
                    match tailBits? d with
                    | none => none
                    | some w =>
                      if 0xf0 ≤ a.toNat && a.toNat < 0xf8 then
                        let n := (a.toNat - 0xf0) * 0x40000 + y * 0x1000 + z * 64 + w
                        match charFrom? 0x10000 n with
                        | none => none
                        | some ch => ofUtf8 (ch :: done) rest
                      else none

def readUtf8? (bytes : Bytes) : Option String :=
  (ofUtf8 [] bytes).map String.ofList

end ScriptBytecode.Text
