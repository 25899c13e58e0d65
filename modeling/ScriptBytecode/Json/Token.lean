import ScriptBytecode.Json
import ScriptBytecode.Binary64.Decimal
import ScriptBytecode.Text.Utf16

/-!
# JSON tokens

The grammar is strict: no leading zeros or signs other than a minus, no raw control characters in texts,
no comments.
-/

namespace ScriptBytecode.Json

inductive Token where
  | openBrace | closeBrace | openBracket | closeBracket | comma | colon
  /-- A literal or number. -/
  | scalar (v : Json)
  /-- A text, or nothing where a surrogate in it is unpaired. -/
  | text (s : Option String)
deriving Inhabited

namespace Token

def digitValue (c : Char) : Nat :=
  c.toNat - 48

/-- Appends digits to `n` as long as it stays below `2 ^ 64`; also gives the number of digits taken. -/
def gather (n taken : Nat) : List Char → Nat × Nat
  | [] => (n, taken)
  | c :: rest =>
    let next := n * 10 + digitValue c
    if next < 0x10000000000000000 then gather next (taken + 1) rest else (n, taken)

def decimal (negative : Bool) (significand : Nat) (exponent : Int) : Json :=
  match Binary64.ofDecimal significand exponent with
  | some m => .float (.ofMagnitude negative m)
  | none => .invalid

/-- A numeral without fraction and exponent. Zero with a minus sign is no integer. -/
def integer (negative : Bool) (n : Nat) : Json :=
  if !negative then .int n
  else if 0 < n && n ≤ 0x8000000000000000 then .int (-n)
  else decimal true n 0

/-- The digits of an exponent, after its mark. -/
def exponent? : List Char → Option (Int × List Char)
  | '-' :: cs => unsigned (-1) cs
  | '+' :: cs => unsigned 1 cs
  | cs => unsigned 1 cs
where
  unsigned (sign : Int) (cs : List Char) : Option (Int × List Char) :=
    let ds := cs.takeWhile Char.isDigit
    if ds.isEmpty then none
    else some (sign * (ds.foldl (fun n c => n * 10 + digitValue c) 0 : Nat),
      cs.dropWhile Char.isDigit)

/-- The end of a numeral with a fraction or an exponent. -/
def scaled (negative : Bool) (significand : Nat) (exponent : Int) (cs : List Char) :
    Option (Json × List Char) :=
  match cs with
  | 'e' :: cs | 'E' :: cs => do
    let (e, rest) ← exponent? cs
    return (decimal negative significand (exponent + e), rest)
  | _ => some (decimal negative significand exponent, cs)

/-- A numeral after its sign. -/
def number? (negative : Bool) (cs : List Char) : Option (Json × List Char) :=
  let whole := cs.takeWhile Char.isDigit
  let rest := cs.dropWhile Char.isDigit
  if whole.isEmpty || (1 < whole.length && whole.head? == some '0') then none
  else
    let (n, taken) := gather 0 0 whole
    let dropped : Int := (whole.length - taken : Nat)
    match rest with
    | '.' :: rest =>
      let fraction := rest.takeWhile Char.isDigit
      if fraction.isEmpty then none
      else
        let (n, taken) := gather n 0 fraction
        scaled negative n (dropped - taken) (rest.dropWhile Char.isDigit)
    | 'e' :: _ | 'E' :: _ => scaled negative n dropped rest
    | _ => some (if dropped = 0 then integer negative n else decimal negative n dropped, rest)

def hexValue? (c : Char) : Option Nat :=
  if c.isDigit then some (c.toNat - 48)
  else if 'a' ≤ c && c ≤ 'f' then some (c.toNat - 87)
  else if 'A' ≤ c && c ≤ 'F' then some (c.toNat - 55)
  else none

def hex4? (a b c d : Char) : Option Nat := do
  return ((← hexValue? a) * 16 + (← hexValue? b)) * 256 + (← hexValue? c) * 16 + (← hexValue? d)

/-- The character that a one-letter escape stands for. -/
def escape? : Char → Option Nat
  | '\x22' => some 0x22
  | '\x5c' => some 0x5c
  | '/' => some 0x2f
  | 'b' => some 0x8
  | 'f' => some 0xc
  | 'n' => some 0xa
  | 'r' => some 0xd
  | 't' => some 0x9
  | _ => none

/-- A text after its opening quote: the units up to the closing quote, behind those of `done`, which are
in reverse order, and what follows. Surrogates are joined afterwards. -/
def units? (done : List Nat) : List Char → Option (List Nat × List Char)
  | [] => none
  | '\x22' :: rest => some (done.reverse, rest)
  | '\x5c' :: 'u' :: a :: b :: c :: d :: rest =>
    match hex4? a b c d with
    | some n => units? (n :: done) rest
    | none => none
  | '\x5c' :: c :: rest =>
    match escape? c with
    | some n => units? (n :: done) rest
    | none => none
  | c :: rest => if c.toNat < 0x20 then none else units? (c.toNat :: done) rest

def ofUnits (units : List Nat) : Token :=
  text ((Text.ofUnits [] units).map String.ofList)

def isSpace (c : Char) : Bool :=
  c = ' ' || c = '\n' || c = '\r' || c = '\t'

/-- The token that starts with `c`, and what follows it. -/
def next? (c : Char) (cs : List Char) : Option (Token × List Char) :=
  match c, cs with
  | '\x7b', _ => some (openBrace, cs)
  | '\x7d', _ => some (closeBrace, cs)
  | '[', _ => some (openBracket, cs)
  | ']', _ => some (closeBracket, cs)
  | ',', _ => some (comma, cs)
  | ':', _ => some (colon, cs)
  | '\x22', _ => (units? [] cs).map fun (units, rest) => (ofUnits units, rest)
  | '-', _ => (number? true cs).map fun (v, rest) => (scalar v, rest)
  | 't', 'r' :: 'u' :: 'e' :: rest => some (scalar (.bool true), rest)
  | 'f', 'a' :: 'l' :: 's' :: 'e' :: rest => some (scalar (.bool false), rest)
  | 'n', 'u' :: 'l' :: 'l' :: rest => some (scalar .null, rest)
  | _, _ =>
    if c.isDigit then (number? false (c :: cs)).map fun (v, rest) => (scalar v, rest) else none

/-- The tokens of a text behind those of `done`; every token takes a character at least. -/
def scan : Nat → Array Token → List Char → Option (Array Token)
  | 0, done, _ => some done
  | _ + 1, done, [] => some done
  | fuel + 1, done, c :: cs =>
    if isSpace c then scan fuel done cs
    else
      match next? c cs with
      | some (t, rest) => scan fuel (done.push t) rest
      | none => none

def all? (s : String) : Option (List Token) :=
  (scan s.length #[] s.toList).map (·.toList)

end Token

end ScriptBytecode.Json
