import ScriptBytecode.Atom.Predefined

/-!
# Atom tables

A table gives names to the atoms that do not hold a number. Predefined entries stay for ever; every
other entry counts its references and goes when the count falls to zero, after which its handle is
given to the next new atom. At most one live string entry has a given name, so interning a name
twice gives the same atom; symbols are never shared.
-/

namespace ScriptBytecode

structure AtomEntry where
  name : String
  kind : AtomKind
  refs : Nat
  permanent : Bool
deriving DecidableEq, Inhabited

structure AtomTable where
  /-- The entry of each handle; handle zero has none. -/
  entries : Array (Option AtomEntry)
  /-- Handles without an entry that were used before, the next one to use first. -/
  free : List Nat

namespace AtomTable

/-- The table of the predefined atoms. -/
def initial : AtomTable where
  entries := (none :: Atom.predefined.map fun (name, kind) => some ⟨name, kind, 1, true⟩).toArray
  free := []

instance : Inhabited AtomTable := ⟨initial⟩

def entry? (t : AtomTable) (a : Atom) : Option AtomEntry :=
  if a.isIndex then none else (t.entries[a.id]?).join

def setEntry (t : AtomTable) (a : Atom) (e : Option AtomEntry) : AtomTable :=
  { t with entries := t.entries.setIfInBounds a.id e }

/-- Is this the live string entry of `name`? -/
def isNamed (name : String) : Option AtomEntry → Bool
  | some e => e.kind == .string && e.name == name
  | none => false

/-- The handle of the live string entry of `name`. -/
def find? (t : AtomTable) (name : String) : Option Nat :=
  t.entries.toList.findIdx? (isNamed name)

/-- A new entry with one reference, at a handle used before if there is one. -/
def insert (t : AtomTable) (name : String) (kind : AtomKind) : Atom × AtomTable :=
  let e : AtomEntry := ⟨name, kind, 1, false⟩
  match t.free with
  | id :: free => (⟨id⟩, { setEntry t ⟨id⟩ (some e) with free })
  | [] => (⟨t.entries.size⟩, { t with entries := t.entries.push (some e) })

/-- One reference more, unless the entry is permanent or missing. -/
def retain (t : AtomTable) (a : Atom) : AtomTable :=
  match t.entry? a with
  | some e => if e.permanent then t else t.setEntry a (some { e with refs := e.refs + 1 })
  | none => t

/-- The atom of `name`: the number it spells, the live string entry of that name with one reference
more, or a new entry. -/
def intern (t : AtomTable) (name : String) : Atom × AtomTable :=
  match (Atom.parseIndex name).bind Atom.ofIndex? with
  | some a => (a, t)
  | none =>
    match t.find? name with
    | some id => (⟨id⟩, t.retain ⟨id⟩)
    | none => t.insert name .string

/-- A fresh symbol; symbols of one name stay apart. -/
def newSymbol (t : AtomTable) (name : String) (kind : AtomKind) : Atom × AtomTable :=
  t.insert name kind

/-- One reference less; the last one removes the entry and frees its handle. Permanent and missing
entries stay as they are. -/
def release (t : AtomTable) (a : Atom) : AtomTable :=
  match t.entry? a with
  | none => t
  | some e =>
    if e.permanent then t
    else if e.refs - 1 = 0 then { t.setEntry a none with free := a.id :: t.free }
    else t.setEntry a (some { e with refs := e.refs - 1 })

def name? (t : AtomTable) (a : Atom) : Option String :=
  match a.index? with
  | some n => some (toString n)
  | none => (t.entry? a).map (·.name)

/-- The name for listings and messages. -/
def display (t : AtomTable) (a : Atom) : String :=
  (t.name? a).getD ("<atom " ++ toString a.id ++ ">")

/-- Does the atom have a name in this table? -/
def has (t : AtomTable) (a : Atom) : Bool :=
  a.isIndex || (t.entry? a).isSome

def kind? (t : AtomTable) (a : Atom) : Option AtomKind :=
  if a.isIndex then some .string else (t.entry? a).map (·.kind)

def refs? (t : AtomTable) (a : Atom) : Option Nat :=
  (t.entry? a).map (·.refs)

def isPermanent (t : AtomTable) (a : Atom) : Bool :=
  (t.entry? a).any (·.permanent)

/-- The number of live entries. -/
def size (t : AtomTable) : Nat :=
  t.entries.toList.countP (·.isSome)

end AtomTable

end ScriptBytecode
