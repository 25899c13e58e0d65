/-!
# Integer literals

The digits of a big integer: decimal, or after a base mark hexadecimal, octal or binary. Underscores
may stand anywhere, the case of letters does not matter, and a sign may stand before the digits.
-/

namespace ScriptBytecode.Text

def digitValue? (base : Nat) (c : Char) : Option Nat :=
  let value :=
    if '0' ≤ c && c ≤ '9' then some (c.toNat - '0'.toNat)
    else if 'a' ≤ c && c ≤ 'z' then some (c.toNat - 'a'.toNat + 10)
    else none
  value.filter (· < base)

/-- The number that some digits spell, of which there is one at least. -/
def natOfDigits? (base : Nat) : List Char → Option Nat
  | [] => none
  | digits => digits.foldlM (fun n c => (digitValue? base c).map (n * base + ·)) 0

def intOfDigits? (base : Nat) : List Char → Option Int
  | '-' :: digits => (natOfDigits? base digits).map fun n => -(n : Int)
  | '+' :: digits => (natOfDigits? base digits).map Int.ofNat
  | digits => (natOfDigits? base digits).map Int.ofNat

/-- The integer of a literal, which may end in its suffix. -/
def integer? (text : String) : Option Int :=
  let chars := (text.toList.reverse.dropWhile (· == 'n')).reverse
  match (chars.filter (· != '_')).map Char.toLower with
  | '0' :: 'x' :: digits => intOfDigits? 16 digits
  | '0' :: 'o' :: digits => intOfDigits? 8 digits
  | '0' :: 'b' :: digits => intOfDigits? 2 digits
  | digits => intOfDigits? 10 digits

end ScriptBytecode.Text
