import ScriptBytecode.Json
import ScriptBytecode.Binary64.Shortest
import ScriptBytecode.Word

/-!
# Writing JSON

The text of a value, without spaces.
-/

namespace ScriptBytecode.Json

def escapeChar (c : Char) : List Char :=
  if c = '\x22' then ['\x5c', '\x22']
  else if c = '\x5c' then ['\x5c', '\x5c']
  else if c.toNat = 0x8 then ['\x5c', 'b']
  else if c.toNat = 0xc then ['\x5c', 'f']
  else if c = '\n' then ['\x5c', 'n']
  else if c = '\r' then ['\x5c', 'r']
  else if c = '\t' then ['\x5c', 't']
  else if c.toNat < 0x20 then
    ['\x5c', 'u', '0', '0', hexDigit (c.toNat / 16), hexDigit (c.toNat % 16)]
  else [c]

def quoted (s : String) : String :=
  String.ofList ('\x22' :: s.toList.flatMap escapeChar ++ ['\x22'])

mutual

/-- Appends the text of a value to `out`. -/
def writeTo (out : String) : Json → String
  | .null | .invalid => out ++ "null"
  | .bool true => out ++ "true"
  | .bool false => out ++ "false"
  | .int n => out ++ toString n
  | .float x => out ++ x.text
  | .string s => out ++ quoted s
  | .array items => writeItems (out ++ "[") true items ++ "]"
  | .object fields => writeFields (out ++ "\x7b") true fields ++ "\x7d"

def writeItems (out : String) (first : Bool) : List Json → String
  | [] => out
  | v :: rest => writeItems (writeTo (if first then out else out ++ ",") v) false rest

def writeFields (out : String) (first : Bool) : List (String × Json) → String
  | [] => out
  | (key, v) :: rest =>
    let out := if first then out else out ++ ","
    writeFields (writeTo (out ++ quoted key ++ ":") v) false rest

end

def write (v : Json) : String :=
  writeTo "" v

end ScriptBytecode.Json
