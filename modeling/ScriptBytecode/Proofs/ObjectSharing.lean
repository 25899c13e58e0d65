import ScriptBytecode.Proofs.ObjectNames

/-!
# Shared objects

With references, an array, object or template that occurs in several places is written once, and what is read has one
object in all of these places. Two places of what is read have the same object exactly if they had the same one before.
-/

namespace ScriptBytecode

open Object (WriteOptions)

variable {a b : Value}

/-! ## Places in a value -/

namespace Value

/-- The values directly inside one; those of a module include the constants of its body. -/
def children : Value → List Value
  | array _ items => items
  | object _ props => props.map (·.value)
  | template _ cooked raw => cooked ++ raw
  | function _ f => f.constants
  | module _ m => m.requires.map (·.value) ++ m.body.constants
  | _ => []

/-- The value at the end of a path of positions. -/
def at? (v : Value) : List Nat → Option Value
  | [] => some v
  | i :: path => v.children[i]?.bind (·.at? path)

/-- The identity of an array, object or template. -/
def objectId? (v : Value) : Option Nat :=
  if v.isObjectLike then v.identity? else none

/-- The identity of the array, object or template at the end of a path, if there is one. -/
def objectAt? (v : Value) (path : List Nat) : Option Nat :=
  (v.at? path).bind objectId?

end Value

/-! ## Places in what is stored and in copies -/

variable {o : WriteOptions} {ρ : Atom → Atom} {I : Nat → Nat → Prop}

theorem storedAll_eq_map (vs : List Value) : storedAll o ρ vs = vs.map (·.stored o ρ) := by
  induction vs with
  | nil => rfl
  | cons v rest ih => rw [storedAll, ih, List.map_cons]

theorem storedProps_eq_map (ps : List Property) :
    storedProps o ρ ps = ps.map fun p => ⟨ρ p.key, p.value.stored o ρ⟩ := by
  induction ps with
  | nil => rfl
  | cons p rest ih =>
    obtain ⟨key, v⟩ := p
    rw [storedProps, ih, List.map_cons]

theorem mirrorsAll_iff {as bs} : mirrorsAll I as bs ↔ List.Forall₂ (Value.Mirrors I) as bs := by
  induction as generalizing bs with
  | nil => cases bs <;> simp [mirrorsAll]
  | cons a as ih => cases bs <;> simp [mirrorsAll, ih]

theorem mirrorsProps_values {ps qs} (h : mirrorsProps I ps qs) :
    List.Forall₂ (Value.Mirrors I) (ps.map (·.value)) (qs.map (·.value)) := by
  induction ps generalizing qs with
  | nil =>
    cases qs with
    | nil => exact .nil
    | cons => exact h.elim
  | cons p ps ih =>
    obtain ⟨k, a⟩ := p
    cases qs with
    | nil => exact h.elim
    | cons q qs =>
      obtain ⟨l, b⟩ := q
      exact .cons h.2.1 (ih h.2.2)

namespace Value

theorem children_stored (v : Value) : (v.stored o ρ).children = v.children.map (·.stored o ρ) := by
  cases v with
  | object id props => simp [stored, children, storedProps_eq_map]
  | module id m =>
    obtain ⟨name, requires, exports, stars, imports, body⟩ := m
    obtain ⟨_, _, _, _, _, _, _, _, _, _, _, _, constants, _⟩ := body
    simp [stored, ModuleRecord.stored, FunctionRecord.stored, children, storedProps_eq_map, storedAll_eq_map]
  | function id f =>
    obtain ⟨_, _, _, _, _, _, _, _, _, _, _, _, constants, _⟩ := f
    simp [stored, FunctionRecord.stored, children, storedAll_eq_map]
  | _ => simp [stored, children, storedAll_eq_map]

theorem at?_stored (v : Value) (path : List Nat) : (v.stored o ρ).at? path = (v.at? path).map (·.stored o ρ) := by
  induction path generalizing v with
  | nil => rfl
  | cons i path ih =>
    rw [at?, at?, children_stored, List.getElem?_map]
    cases v.children[i]? with
    | none => rfl
    | some child => exact ih child

theorem objectId?_stored (v : Value) : (v.stored o ρ).objectId? = v.objectId? := by
  cases v <;> rfl

theorem objectAt?_stored (v : Value) (path : List Nat) : (v.stored o ρ).objectAt? path = v.objectAt? path := by
  rw [objectAt?, objectAt?, at?_stored]
  cases v.at? path with
  | none => rfl
  | some w => exact objectId?_stored w

section

variable (h : a.Mirrors I b)
include h

theorem Mirrors.children : List.Forall₂ (Mirrors I) a.children b.children := by
  cases a with
  | array i as =>
    cases b with
    | array j bs => exact mirrorsAll_iff.mp h.2
    | _ => exact h.elim
  | object i ps =>
    cases b with
    | object j qs => exact mirrorsProps_values h.2
    | _ => exact h.elim
  | template i as cs =>
    cases b with
    | template j bs ds => exact List.rel_append (mirrorsAll_iff.mp h.2.1) (mirrorsAll_iff.mp h.2.2)
    | _ => exact h.elim
  | function i f =>
    cases b with
    | function j g =>
      obtain ⟨_, _, _, _, _, _, _, _, _, _, _, _, constants, _⟩ := f
      exact mirrorsAll_iff.mp h.2
    | _ => exact h.elim
  | module i m =>
    cases b with
    | module j n =>
      obtain ⟨name, requires, exports, stars, imports, body⟩ := m
      obtain ⟨_, _, _, _, _, _, _, _, _, _, _, _, constants, _⟩ := body
      exact List.rel_append (mirrorsProps_values h.2.1) (mirrorsAll_iff.mp h.2.2.2.2.2.2)
    | _ => exact h.elim
  | _ => cases b <;> first | exact .nil | exact h.elim

/-- A copy has a copy in each place. -/
theorem Mirrors.at? (path : List Nat) : Option.Rel (Mirrors I) (a.at? path) (b.at? path) := by
  induction path generalizing a b with
  | nil => exact .some h
  | cons i path ih =>
    have hchildren := h.children
    have hlength := hchildren.length_eq
    rw [Value.at?, Value.at?]
    by_cases hi : i < a.children.length
    · rw [List.getElem?_eq_getElem hi, List.getElem?_eq_getElem (hlength ▸ hi)]
      exact ih (hchildren.get hi (hlength ▸ hi))
    · rw [List.getElem?_eq_none (by omega), List.getElem?_eq_none (by omega)]
      exact .none

theorem Mirrors.typeName : b.typeName = a.typeName := by
  cases a <;> cases b <;> first | rfl | exact h.elim

theorem Mirrors.objectId? : Option.Rel I a.objectId? b.objectId? := by
  cases a with
  | array i as =>
    cases b with
    | array j bs => exact .some h.1
    | _ => exact h.elim
  | object i ps =>
    cases b with
    | object j qs => exact .some h.1
    | _ => exact h.elim
  | template i as cs =>
    cases b with
    | template j bs ds => exact .some h.1
    | _ => exact h.elim
  | _ => cases b <;> first | exact .none | exact h.elim

theorem Mirrors.objectAt? (path : List Nat) : Option.Rel I (a.objectAt? path) (b.objectAt? path) := by
  have hat := h.at? path
  unfold Value.objectAt?
  revert hat
  generalize a.at? path = x, b.at? path = y
  intro hat
  cases hat with
  | none => exact .none
  | some hmirrors => exact hmirrors.objectId?

end

theorem typeName_stored (v : Value) : (v.stored o ρ).typeName = v.typeName := by
  cases v <;> rfl

end Value

namespace Object

/-- An object that fits is read with references into any table, and two places of it are one object exactly if they
were one before. -/
theorem objectAt?_eq_iff {t : AtomTable} {heap : List (Nat × Value)} (hheap : heap.length < 0x80000000) {v : Value}
    (hv : v.Fits (Atom.Fits t) heap) {o : WriteOptions} (hallow : o.allowReference = true) {bytes : Bytes}
    (hencode : encode v t o = .ok bytes) (t₂ : AtomTable) :
    ∃ w t', decode bytes t₂ ⟨true⟩ = .ok (w, t') ∧
      (∀ path, (w.at? path).map Value.typeName = (v.at? path).map Value.typeName) ∧
      ∀ path path', w.objectAt? path = w.objectAt? path' ↔ v.objectAt? path = v.objectAt? path' := by
  let start : Passage :=
    ⟨⟨t, o⟩, Atom.Fits t, heap, id, ⟨true⟩, fun _ h => h, fun _ _ => rfl, fun _ => rfl, fun _ => hheap⟩
  obtain ⟨s, names, hstart⟩ := exists_written (p := start) hv hencode
  have hsound := hstart.sound
  -- the reader's atoms for the names, whichever they are
  have hlength : s.atoms.toList.length = (t₂.internAll names).1.length := by
    rw [AtomTable.length_internAll, hstart.names.length_eq]
  obtain ⟨ρ, hkeeps, hatoms⟩ := exists_rename hsound.nodup hlength fun a ha => isStatic_of_listed (hsound.listed a ha)
  let p : Passage := { start with rename := ρ, keeps := hkeeps }
  have hwritten : Written p v bytes s names := ⟨hstart.fits, hstart.run, hstart.names⟩
  obtain ⟨w, links, hdecode, hmirrors, hpaired⟩ := hwritten.decode hatoms
  refine ⟨w, _, hdecode, ?_, ?_⟩
  · intro path
    have hat := (hmirrors (fun i j => (i, j) ∈ links) fun _ hlink => hlink).at? path
    rw [Passage.copy, Value.at?_stored] at hat
    revert hat
    generalize v.at? path = x, w.at? path = y
    intro hat
    cases x with
    | none =>
      cases hat
      rfl
    | some x =>
      cases hat with
      | some hxy => simp [hxy.typeName, Value.typeName_stored]
  · intro path path'
    have hfirst := (hmirrors (fun i j => (i, j) ∈ links) fun _ hlink => hlink).objectAt? path
    have hsecond := (hmirrors (fun i j => (i, j) ∈ links) fun _ hlink => hlink).objectAt? path'
    rw [Passage.copy, Value.objectAt?_stored] at hfirst hsecond
    revert hfirst hsecond
    generalize v.objectAt? path = i, v.objectAt? path' = j, w.objectAt? path = k, w.objectAt? path' = l
    intro hfirst hsecond
    cases hfirst with
    | none =>
      cases hsecond with
      | none => simp
      | some => simp
    | some hfirst =>
      cases hsecond with
      | none => simp
      | some hsecond =>
        have hiff := hpaired hallow _ hfirst _ hsecond
        simp only [Option.some.injEq]
        exact hiff.symm

/-! A list in four places: in an array, in a template, among the constants of a function and as an import attribute;
next to it another list with the same content. -/

def sharedList : Value :=
  .array 1 [.int 7]

def listTemplate : Value :=
  .template 2 [sharedList] [.string "x"]

def listFunction : FunctionRecord :=
  { (default : FunctionRecord) with constants := [sharedList] }

def listModule : ModuleRecord :=
  { (default : ModuleRecord) with requires := [⟨.null, sharedList⟩] }

def listPlaces : Value :=
  .array 0 [sharedList, listTemplate, .function 3 listFunction, .module 4 listModule, .array 5 [.int 7]]

def listHeap : List (Nat × Value) :=
  [(0, listPlaces), (1, sharedList), (2, listTemplate), (5, .array 5 [.int 7])]

theorem listPlaces_fits : listPlaces.Fits (Atom.Fits .initial) listHeap := by
  have hint : fitsSigned 32 7 := by decide
  have htext : Text.unitCount "x" < 0x80000000 := by decide +kernel
  have hnull : Atom.null.Fits .initial := ⟨by decide, by decide⟩
  have hlist : sharedList.Fits (Atom.Fits .initial) listHeap := ⟨rfl, hint, trivial⟩
  have hcode : ∀ instrs, decodeFinal [] = .ok instrs → ∀ site ∈ atomSites instrs, site.2.Fits .initial := by
    intro instrs hdecode
    cases hdecode
    exact nofun
  have hmode : 0 < 0x100 := by decide
  have hcount : 0 < 0x10000 := by decide
  have hhead : ∀ constants, FunctionRecord.HeadFits (Atom.Fits .initial)
      { (default : FunctionRecord) with constants } := fun constants =>
    ⟨hnull, hmode, hcount, hcount, hcount, hcount, nofun, nofun, hcode, nofun⟩
  have hmodule : listModule.HeadFits (Atom.Fits .initial) := ⟨hnull, nofun, nofun, nofun⟩
  exact ⟨rfl, hlist, ⟨rfl, ⟨hlist, trivial⟩, htext, trivial⟩, ⟨hhead _, hlist, trivial⟩,
    ⟨hmodule, ⟨hnull, hlist, trivial⟩, hhead [], trivial⟩, ⟨rfl, hint, trivial⟩, trivial⟩

theorem objectAt?_eq_iff_listPlaces :
    ∃ bytes w t', encode listPlaces .initial ⟨true, false, false⟩ = .ok bytes ∧
      decode bytes .initial ⟨true⟩ = .ok (w, t') ∧ w.objectAt? [0] = w.objectAt? [1, 0] ∧
      w.objectAt? [0] = w.objectAt? [2, 0] ∧ w.objectAt? [0] = w.objectAt? [3, 0] ∧
      w.objectAt? [0] ≠ w.objectAt? [4] := by
  obtain ⟨bytes, hencode⟩ : ∃ bytes, encode listPlaces .initial ⟨true, false, false⟩ = .ok bytes := ⟨_, rfl⟩
  obtain ⟨w, t', hdecode, -, hiff⟩ := objectAt?_eq_iff (by decide) listPlaces_fits rfl hencode .initial
  refine ⟨bytes, w, t', hencode, hdecode, (hiff _ _).mpr rfl, (hiff _ _).mpr rfl, (hiff _ _).mpr rfl, ?_⟩
  rw [ne_eq, hiff]
  decide

end Object

end ScriptBytecode
