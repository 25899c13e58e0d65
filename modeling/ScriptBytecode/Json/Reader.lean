import ScriptBytecode.Json.Token

/-!
# Reading JSON

One pass over the tokens with a stack of the arrays and objects that are still open.
-/

namespace ScriptBytecode.Json

/-- An open array or object; what it has so far is in reverse order. -/
inductive Frame where
  | items (done : List Json)
  /-- An object whose next field is called `key`. -/
  | fields (done : List (Option String × Json)) (key : Option String)

def ofText : Option String → Json
  | some s => .string s
  | none => .invalid

def ofFields (fields : List (Option String × Json)) : Json :=
  match fields.mapM fun (key, v) => key.map (·, v) with
  | some fs => .object fs
  | none => .invalid

/-- What the next token has to begin or continue. -/
inductive Expect where
  | value
  | after (v : Json)

/-- The value that the tokens complete. -/
def build : Expect → List Frame → List Token → Option Json
  | .after v, [], [] => some v
  | .after v, .items done :: open_, .comma :: ts => build .value (.items (v :: done) :: open_) ts
  | .after v, .items done :: open_, .closeBracket :: ts =>
    build (.after (.array (v :: done).reverse)) open_ ts
  | .after v, .fields done key :: open_, .comma :: .text next :: .colon :: ts =>
    build .value (.fields ((key, v) :: done) next :: open_) ts
  | .after v, .fields done key :: open_, .closeBrace :: ts =>
    build (.after (ofFields ((key, v) :: done).reverse)) open_ ts
  | .value, open_, .scalar v :: ts => build (.after v) open_ ts
  | .value, open_, .text s :: ts => build (.after (ofText s)) open_ ts
  | .value, open_, .openBracket :: .closeBracket :: ts => build (.after (.array [])) open_ ts
  | .value, open_, .openBracket :: ts => build .value (.items [] :: open_) ts
  | .value, open_, .openBrace :: .closeBrace :: ts => build (.after (.object [])) open_ ts
  | .value, open_, .openBrace :: .text key :: .colon :: ts =>
    build .value (.fields [] key :: open_) ts
  | _, _, _ => none
termination_by structural _ _ ts => ts

def read? (s : String) : Option Json := do
  build .value [] (← Token.all? s)

end ScriptBytecode.Json
