import ScriptBytecode.Json

/-!
# Taking JSON values apart

Readers return nothing where a value has not the form that is asked for. In an object the order of
the fields is free and fields that nobody asks for do not matter, but one that is asked for may not
be there twice.
-/

namespace ScriptBytecode.Json

abbrev Fields := List (String × Json)

/-- Reads something from the fields of an object. -/
abbrev Fields.Reader := ReaderT Fields Option

def string? : Json → Option String
  | .string s => some s
  | _ => none

def bool? : Json → Option Bool
  | .bool b => some b
  | _ => none

/-- A natural number below `bound`. -/
def nat? (bound : Nat) : Json → Option Nat
  | .int (.ofNat n) => if n < bound then some n else none
  | _ => none

/-- A double may be written as an integer. -/
def binary64? : Json → Option Binary64
  | .int n => (Binary64.nearest n.natAbs 1).map (Binary64.ofMagnitude (n < 0))
  | .float x => some x
  | _ => none

def list? {α : Type} (read : Json → Option α) : Json → Option (List α)
  | .array items => items.mapM read
  | _ => none

def nullable? {α : Type} (read : Json → Option α) : Json → Option (Option α)
  | .null => some none
  | v => (read v).map some

def object? {α : Type} (read : Fields.Reader α) : Json → Option α
  | .object fs => read fs
  | _ => none

namespace Fields

def values (fs : Fields) (key : String) : List Json :=
  (fs.filter (·.1 == key)).map (·.2)

/-- A field that has to be there. -/
def need {α : Type} (key : String) (read : Json → Option α) : Reader α := fun fs =>
  match values fs key with
  | [v] => read v
  | _ => none

/-- A field that stands for `d` where it is missing. -/
def getD {α : Type} (key : String) (d : α) (read : Json → Option α) : Reader α := fun fs =>
  match values fs key with
  | [] => some d
  | [v] => read v
  | _ => none

/-- A field that may be missing or null. -/
def get? {α : Type} (key : String) (read : Json → Option α) : Reader (Option α) :=
  getD key none (nullable? read)

def flag (key : String) : Reader Bool :=
  getD key false bool?

end Fields

/-- Where a value is read from: the text itself, or something that was first read whole because the name
of its case may come late. What is held has to be sound. -/
inductive Origin where
  | text | held
deriving DecidableEq

/-- The name that selects a case without content: the name itself, or the name with nothing in it. -/
def caseName? (o : Origin) : Json → Option String
  | .string s => some s
  | .object [(s, .null)] => some s
  | .object [(s, .object [])] => if o = .held then some s else none
  | _ => none

/-- One of a few names. -/
def case? {α : Type} (o : Origin) (cases : List (String × α)) (v : Json) : Option α := do
  cases.lookup (← caseName? o v)

/-- An object whose field `type` names a case and whose other fields are the content. In a held
object the number of the case will do as well. -/
def tagged? {α : Type} (o : Origin) (cases : List (String × Fields.Reader α)) :
    Json → Option α
  | .object fs =>
    if o = .held || fieldsSound fs then
      fs |> Fields.need "type" fun
        | .string s => (cases.lookup s).bind (· fs)
        | .int (.ofNat n) => if o = .held then cases[n]?.bind (·.2 fs) else none
        | _ => none
    else none
  | _ => none

/-- Where the content of a case is read from: content that stands before the name of its case is held
until the name is known. -/
def contentOrigin (o : Origin) (fs : Fields) : Origin :=
  if (fs.map (·.1)).find? (fun key => key == "kind" || key == "value") == some "value" then .held
  else o

/-- An object whose field `kind` names a case and whose field `value` is the content. -/
def keyed? {α : Type} (o : Origin) (cases : List (String × (Origin → Option Json → Option α))) :
    Json → Option α
  | .object fs => do
    let read ← Fields.need "kind" (case? o cases) fs
    let origin := contentOrigin o fs
    let content ← fs |> Fields.getD "value" none fun v =>
      if origin = o || v.isSound then some (some v) else none
    read origin content
  | _ => none

/-- A case that needs content, which may be tagged itself. -/
def contentFrom? {α : Type} (read : Origin → Json → Option α) (o : Origin)
    (content : Option Json) : Option α :=
  content.bind (read o)

/-- A case that needs content of the same form wherever it is read from. -/
def content? {α β : Type} (make : β → α) (read : Json → Option β) :
    Origin → Option Json → Option α :=
  contentFrom? fun _ v => (read v).map make

/-- A case without content. -/
def bare? {α : Type} (a : α) (_ : Origin) : Option Json → Option α
  | none | some .null => some a
  | _ => none

end ScriptBytecode.Json
