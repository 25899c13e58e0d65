import ScriptBytecode.Binary64

/-!
# JSON values

Objects keep their fields in order, repeated ones included. Numbers that are 64-bit integers are kept
apart from all others.
-/

namespace ScriptBytecode

inductive Json where
  | null
  | bool (b : Bool)
  | int (n : Int)
  | float (x : Binary64)
  | string (s : String)
  | array (items : List Json)
  | object (fields : List (String × Json))
  /-- A number beyond the doubles, a text with an unpaired surrogate or an object with such a text for a
  key: well-formed, but no value. -/
  | invalid

instance : Inhabited Json := ⟨.null⟩

namespace Json

mutual

/-- How deep arrays and objects are nested. -/
def depth : Json → Nat
  | .array items => 1 + itemsDepth items
  | .object fields => 1 + fieldsDepth fields
  | _ => 0

def itemsDepth : List Json → Nat
  | [] => 0
  | v :: rest => max (depth v) (itemsDepth rest)

def fieldsDepth : List (String × Json) → Nat
  | [] => 0
  | (_, v) :: rest => max (depth v) (fieldsDepth rest)

end

/-- Deeper values are refused. -/
def maxDepth : Nat := 127

mutual

/-- Is everything in it a value? -/
def isSound : Json → Bool
  | .array items => itemsSound items
  | .object fields => fieldsSound fields
  | .invalid => false
  | _ => true

def itemsSound : List Json → Bool
  | [] => true
  | v :: rest => isSound v && itemsSound rest

def fieldsSound : List (String × Json) → Bool
  | [] => true
  | (_, v) :: rest => isSound v && fieldsSound rest

end

end Json

end ScriptBytecode
