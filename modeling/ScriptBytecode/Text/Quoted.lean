import ScriptBytecode.Text.Hidden
import ScriptBytecode.Word

/-!
# Quoted text

Listings show strings in double quotes. Quotes, backslashes and characters that are not shown are
written as escapes.
-/

namespace ScriptBytecode.Text

/-- The hexadecimal digits of `n`, at least one. -/
def hexDigits (n : Nat) : List Char :=
  (go 8 n []).dropWhile (· == '0') |> fun ds => if ds.isEmpty then ['0'] else ds
where
  go : Nat → Nat → List Char → List Char
    | 0, _, ds => ds
    | k + 1, n, ds => go k (n / 16) (hexDigit (n % 16) :: ds)

def isShown (c : Char) : Bool :=
  if c.toNat < 0x80 then 0x20 ≤ c.toNat && c.toNat < 0x7f else !isHidden c

/-- A character between quotes. -/
def quoteChar (c : Char) : List Char :=
  if c = '\x22' then ['\x5c', '\x22']
  else if c = '\x5c' then ['\x5c', '\x5c']
  else if c = '\n' then ['\x5c', 'n']
  else if c = '\r' then ['\x5c', 'r']
  else if c = '\t' then ['\x5c', 't']
  else if c = '\x00' then ['\x5c', '0']
  else if isShown c then [c]
  else '\x5c' :: 'u' :: '\x7b' :: hexDigits c.toNat ++ ['\x7d']

def quote (s : String) : String :=
  String.ofList ('\x22' :: s.toList.flatMap quoteChar ++ ['\x22'])

end ScriptBytecode.Text
