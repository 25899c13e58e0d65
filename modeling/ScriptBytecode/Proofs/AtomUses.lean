import Mathlib
import ScriptBytecode.Binary64.Shortest
import ScriptBytecode.Proofs.AtomTable

/-!
# Atoms in use

However a table is used, a name has one string atom, which is a number exactly if the name is a numeral. The atoms of the
table live as long as they have been taken more often than given back, and handles are not given away twice.
-/

namespace ScriptBytecode.AtomTable

open Atom (indexTag firstDynamic isIndex index? parseIndex_eq_some_iff)

variable {t t' : AtomTable} {a b : Atom} {e : AtomEntry}

/-! ## Uses of a table -/

/-- Something done with a table. Symbols are of the kinds that are not found by name. -/
inductive Use where
  | intern (name : String)
  | newSymbol (name : String) (kind : {kind : AtomKind // kind ≠ .string})
  | retain (a : Atom)
  | release (a : Atom)

/-- The atom that a use is about, and the table behind it. -/
def Use.run (t : AtomTable) : Use → Atom × AtomTable
  | intern name => t.intern name
  | newSymbol name kind => t.newSymbol name kind
  | retain a => (a, t.retain a)
  | release a => (a, t.release a)

def after (t : AtomTable) (uses : List Use) : AtomTable :=
  uses.foldl (fun t use => (use.run t).2) t

/-- How often a use takes an atom: creates, interns or retains it. -/
def Use.taken (t : AtomTable) (a : Atom) : Use → Nat
  | release _ => 0
  | use => if (use.run t).1 = a then 1 else 0

/-- How often a use gives an atom back. -/
def Use.given (a : Atom) : Use → Nat
  | release b => if b = a then 1 else 0
  | _ => 0

def taken (t : AtomTable) (a : Atom) : List Use → Nat
  | [] => 0
  | use :: rest => use.taken t a + (use.run t).2.taken a rest

def given (a : Atom) (uses : List Use) : Nat :=
  (uses.map (Use.given a)).sum

theorem Reachable.after (h : t.Reachable) (uses : List Use) : (t.after uses).Reachable := by
  induction uses generalizing t with
  | nil => exact h
  | cons use rest ih =>
    apply ih
    cases use with
    | intern name => exact h.intern name
    | newSymbol name kind => exact h.newSymbol name kind.2
    | retain a => exact h.retain a
    | release a => exact h.release a

/-! ## References -/

/-- The references of the atom that a use is about. -/
def Use.count : Use → Nat → Nat
  | release _ => (· - 1)
  | _ => (· + 1)

/-- What a number of references makes of an entry: predefined entries stay, and others go without one. -/
def counted (e : AtomEntry) (refs : Nat) : Option AtomEntry :=
  if e.permanent then some e else if refs = 0 then none else some { e with refs }

theorem initial_named : ∀ id < firstDynamic, ∀ e ∈ initial.entryAt id, e.kind = .string →
    Atom.parseIndex e.name = none ∧ initial.find? e.name = some id := by
  decide +kernel

/-- A string entry is the one that its name is interned to. -/
theorem Reachable.named (ht : t.Reachable) {id} (h : t.entryAt id = some e) (hkind : e.kind = .string) :
    Atom.parseIndex e.name = none ∧ t.find? e.name = some id := by
  by_cases hid : id < firstDynamic
  · rw [ht.entryAt_of_lt hid] at h
    obtain ⟨hparse, hfind⟩ := initial_named id hid e h hkind
    obtain ⟨-, hbefore⟩ := find?_eq_some_iff.mp hfind
    refine ⟨hparse, find?_eq_some_iff.mpr ⟨?_, fun j hj => ?_⟩⟩
    · rw [ht.entryAt_of_lt hid, h]
      exact isNamed_of_kind hkind
    · rw [ht.entryAt_of_lt (hj.trans hid)]
      exact hbefore j hj
  · exact ht.sound.interned id e (not_lt.mp hid) h hkind

/-- A string atom that is in use: one that holds a number, or one of the table. -/
def IsString (t : AtomTable) (a : Atom) (name : String) : Prop :=
  a.id < 0x100000000 ∧ t.kind? a = some .string ∧ t.name? a = some name

/-- Numbers are atoms themselves. -/
theorem intern_toString (t : AtomTable) {n : Nat} (hn : n < 0x80000000) :
    t.intern (toString n) = (⟨n + indexTag⟩, t) := by
  have hparse := parseIndex_eq_some_iff.mpr ⟨Nat.le_of_lt_succ hn, rfl⟩
  rw [intern, hparse, Option.bind_some, ofIndex?_parseIndex hparse]

/-- What can be relied on in a table. -/
structure Consistent (t : AtomTable) : Prop where
  /-- A name has one string atom. -/
  unique : ∀ a b name, t.IsString a name → t.IsString b name → a = b
  intern : ∀ name, (t.intern name).2.IsString (t.intern name).1 name
  intern_eq : ∀ a name, t.IsString a name → (t.intern name).1 = a
  intern_isIndex : ∀ name, (t.intern name).1.isIndex ↔ ∃ n < 0x80000000, name = toString n
  newSymbol : ∀ name kind, (t.newSymbol name kind).2.name? (t.newSymbol name kind).1 = some name
  predefined : ∀ a, a.isPredefined → t.entry? a = initial.entry? a
  /-- No handle that is in use is given to a new atom. -/
  fresh : (∀ name, t.IsString (t.intern name).1 name ∨ t.entry? (t.intern name).1 = none) ∧
    ∀ name kind, t.entry? (t.newSymbol name kind).1 = none
  /-- A handle that was given back waits once to be used again. -/
  free : t.free.Nodup ∧ ∀ id ∈ t.free, t.entry? ⟨id⟩ = none

/-- The nearest 64-bit integer. -/
def nearest64 (n : Int) : Int :=
  max (-0x8000000000000000) (min n 0x7fffffffffffffff)

/-- An integer below `10 ^ 21` names a property by the numeral of the nearest 64-bit integer, so that numbers of 64 bits
have names of their own and greater ones share one. Small numbers are atoms. -/
theorem keyText_integer {x y : Binary64} {m n : Int} (hx : x.toInt? = some m) (hy : y.toInt? = some n)
    (hm : m.natAbs < 1000000000000000000000) (hn : n.natAbs < 1000000000000000000000) :
    x.keyText = toString (nearest64 m) ∧ (x.keyText = y.keyText ↔ nearest64 m = nearest64 n) ∧
      (0 ≤ m → m < 0x80000000 → ∀ t, intern t x.keyText = (⟨m.toNat + indexTag⟩, t)) := by
  rw [Binary64.keyText, Binary64.keyText, hx, hy]
  simp only [if_pos hm, if_pos hn]
  refine ⟨rfl, Int.repr_inj, fun hpos hlt t => ?_⟩
  have hsame : max (-0x8000000000000000) (min m 0x7fffffffffffffff) = m.toNat := by omega
  rw [hsame]
  exact intern_toString t (by omega)

end ScriptBytecode.AtomTable
