import ScriptBytecode.Proofs.ObjectCodec
import Mathlib.Data.Finset.Card
import Mathlib.Order.Interval.Finset.Nat

/-!
# Atoms and records, read back

An atom is read back from its index once the reader has the name list. From that follow the parts of
function and module records that hold no values.
-/

namespace ScriptBytecode.Object

open FunctionFlags (bit pack unpack)
open Atom (indexTag firstDynamic isStatic isIndex isPredefined)

variable {a : Atom} {n : Nat} {α β : Type} {env : WriteEnv} {o : ReadOptions} {xs : List α} {r r' : ReadState}
  {atoms : Array Atom} {code : Bytes} {f : α → β} {read : Read α} {write : α → Write Bytes}

/-! ## Numbering atoms -/

/-- The atoms met so far with one more, if it needs a number and has none. -/
def WriteState.meet (s : WriteState) (a : Atom) : WriteState :=
  if a.isStatic = true ∨ a ∈ s.atoms.toList then s else { s with atoms := s.atoms.push a }

/-- The index of an atom among those that have a number. -/
def indexOf (atoms : Array Atom) (a : Atom) : Nat :=
  if a.isStatic then a.id else firstDynamic + atoms.toList.idxOf a

/-- The writer has an index for the atom, or can give it one. -/
def Known (env : WriteEnv) (s : WriteState) (a : Atom) : Prop :=
  a.isStatic = true ∨ a ∈ s.atoms.toList ∨ env.table.has a = true

/-- Only the atoms of a state change. -/
structure AddsAtoms (s s' : WriteState) : Prop where
  atoms : s.atoms.toList <+: s'.atoms.toList
  objects : s'.objects = s.objects
  count : s'.count = s.count

theorem AddsAtoms.refl (s : WriteState) : AddsAtoms s s :=
  ⟨List.prefix_refl _, rfl, rfl⟩

variable {s s' : WriteState}

theorem AddsAtoms.trans {s''} (h : AddsAtoms s s') (h' : AddsAtoms s' s'') : AddsAtoms s s'' :=
  ⟨h.atoms.trans h'.atoms, h'.objects.trans h.objects, h'.count.trans h.count⟩

theorem WriteState.addsAtoms_meet (s : WriteState) (a : Atom) : AddsAtoms s (s.meet a) := by
  unfold WriteState.meet
  split
  · exact .refl s
  · exact ⟨by simp, rfl, rfl⟩

theorem WriteState.mem_meet (s : WriteState) (a : Atom) : a.isStatic ∨ a ∈ (s.meet a).atoms.toList := by
  unfold WriteState.meet
  split
  · assumption
  · exact .inr (by simp)

/-- An index stays what it is when more atoms are numbered. -/
theorem indexOf_eq_of_prefix {atoms' : Array Atom} (h : atoms.toList <+: atoms'.toList)
    (ha : a.isStatic ∨ a ∈ atoms.toList) : indexOf atoms' a = indexOf atoms a := by
  unfold indexOf
  split
  · rfl
  · obtain ⟨more, hmore⟩ := h
    rw [← hmore, List.idxOf_append_of_mem (ha.resolve_left ‹_›)]

theorem Known.mono (h : Known env s a) (hadds : s.atoms.toList <+: s'.atoms.toList) : Known env s' a := by
  rcases h with h | h | h
  · exact .inl h
  · exact .inr (.inl (hadds.subset h))
  · exact .inr (.inr h)

theorem run_atomIndex_eq_ok :
    ((Write.atomIndex a).run env).run s = .ok (n, s') ↔
      Known env s a ∧ s' = s.meet a ∧ n = indexOf (s.meet a).atoms a := by
  unfold Write.atomIndex
  rw [show (a.isIndex || a.isPredefined) = a.isStatic from rfl]
  by_cases hstatic : a.isStatic = true
  · have hmeet : s.meet a = s := if_pos (.inl hstatic)
    rw [if_pos hstatic, hmeet, indexOf, if_pos hstatic]
    constructor
    · intro h
      cases h
      exact ⟨.inl hstatic, rfl, rfl⟩
    · rintro ⟨-, rfl, rfl⟩
      rfl
  · rw [if_neg hstatic]
    simp only [ReaderT.run_bind, StateT.run_bind, Write.run_get, ok_bind]
    cases hfind : s.atoms.findIdx? (· == a) with
    | some i =>
      -- the atom was met before
      obtain ⟨hi, hat, hbefore⟩ := Array.findIdx?_eq_some_iff_getElem.mp hfind
      have hmem : a ∈ s.atoms.toList := by
        rw [← (beq_iff_eq.mp hat : s.atoms[i] = a)]
        exact Array.getElem_mem_toList hi
      have hmeet : s.meet a = s := if_pos (.inr hmem)
      have hidx : s.atoms.toList.idxOf a = i := by
        rw [List.idxOf, List.findIdx_eq (by simpa using hi)]
        exact ⟨by simpa using hat, fun j hj => by simpa using hbefore j hj⟩
      rw [hmeet, indexOf, if_neg hstatic, hidx]
      constructor
      · intro h
        cases h
        exact ⟨.inr (.inl hmem), rfl, rfl⟩
      · rintro ⟨-, rfl, rfl⟩
        rfl
    | none =>
      have hnew : a ∉ s.atoms.toList := by
        intro hmem
        have := Array.findIdx?_eq_none_iff.mp hfind a (by simpa using hmem)
        simp at this
      have hmeet : s.meet a = { s with atoms := s.atoms.push a } :=
        if_neg (not_or.mpr ⟨hstatic, hnew⟩)
      have hidx : (s.atoms.toList ++ [a]).idxOf a = s.atoms.size := by
        rw [List.idxOf_append_of_notMem hnew]
        simp
      rw [hmeet, indexOf, if_neg hstatic]
      simp only [Array.toList_push, hidx]
      by_cases hhas : env.table.has a = true
      · constructor
        · intro h
          simp [hhas] at h
          obtain ⟨rfl, rfl⟩ := h
          exact ⟨.inr (.inr hhas), rfl, rfl⟩
        · rintro ⟨-, rfl, rfl⟩
          simp [hhas]
      · constructor
        · intro h
          simp [hhas] at h
          cases h
        · rintro ⟨hknown, -⟩
          rcases hknown with h | h | h
          · exact absurd h hstatic
          · exact absurd h hnew
          · exact absurd h hhas

/-- The bytes of an atom: a number is written as such, with the last bit set. -/
def atomBytes (atoms : Array Atom) (a : Atom) : Bytes :=
  match a.index? with
  | some n => Leb128.write (2 * n + 1)
  | none => Leb128.write (2 * indexOf atoms a % 0x100000000)

theorem run_atom_eq_ok {bytes} :
    ((Write.atom a).run env).run s = .ok (bytes, s') ↔
      Known env s a ∧ s' = s.meet a ∧ bytes = atomBytes (s.meet a).atoms a := by
  unfold Write.atom atomBytes
  cases hindex : a.index? with
  | some n =>
    have hstatic : a.isStatic := by
      unfold Atom.index? at hindex
      split at hindex
      · simp [isStatic, *]
      · cases hindex
    have hmeet : s.meet a = s := if_pos (.inl hstatic)
    rw [hmeet]
    constructor
    · intro h
      cases h
      exact ⟨.inl hstatic, rfl, rfl⟩
    · rintro ⟨-, rfl, rfl⟩
      rfl
  | none =>
    simp only [Write.run_bind_eq_ok, run_atomIndex_eq_ok]
    constructor
    · rintro ⟨n, s₁, ⟨hknown, rfl, rfl⟩, h⟩
      cases h
      exact ⟨hknown, rfl, rfl⟩
    · rintro ⟨hknown, rfl, rfl⟩
      exact ⟨_, _, ⟨hknown, rfl, rfl⟩, rfl⟩

/-- The atoms met so far with more, one after the other. -/
def WriteState.meetAll (s : WriteState) (atoms : List Atom) : WriteState :=
  atoms.foldl WriteState.meet s

theorem WriteState.addsAtoms_meetAll (s : WriteState) (atoms : List Atom) : AddsAtoms s (s.meetAll atoms) := by
  induction atoms generalizing s with
  | nil => exact .refl s
  | cons a atoms ih => exact (s.addsAtoms_meet a).trans (ih (s.meet a))

theorem WriteState.mem_meetAll (s : WriteState) {atoms} (ha : a ∈ atoms) :
    a.isStatic ∨ a ∈ (s.meetAll atoms).atoms.toList := by
  induction atoms generalizing s with
  | nil => cases ha
  | cons b atoms ih =>
    rcases List.mem_cons.mp ha with rfl | ha
    · have hadds := (s.meet a).addsAtoms_meetAll atoms
      exact (s.mem_meet a).imp_right (hadds.atoms.subset ·)
    · exact ih (s.meet b) ha

theorem known_meet_iff {b} (ha : Known env s a) : Known env (s.meet a) b ↔ Known env s b := by
  constructor
  · rintro (h | h | h)
    · exact .inl h
    · unfold WriteState.meet at h
      split at h
      · exact .inr (.inl h)
      · rw [Array.toList_push, List.mem_append, List.mem_singleton] at h
        rcases h with h | rfl
        · exact .inr (.inl h)
        · exact ha
    · exact .inr (.inr h)
  · intro h
    exact h.mono (s.addsAtoms_meet a).atoms

theorem run_sites_eq_ok {sites : List (Nat × Atom)} {numbers} :
    ((sites.mapM fun (pos, a) => return (pos, ← Write.atomIndex a) : Write (List (Nat × Nat))).run env).run s
        = .ok (numbers, s') ↔
      (∀ site ∈ sites, Known env s site.2) ∧ s' = s.meetAll (sites.map Prod.snd) ∧
        numbers = sites.map fun site => (site.1, indexOf s'.atoms site.2) := by
  induction sites generalizing s numbers with
  | nil =>
    constructor
    · intro h
      cases h
      exact ⟨nofun, rfl, rfl⟩
    · rintro ⟨-, rfl, rfl⟩
      rfl
  | cons site sites ih =>
    obtain ⟨pos, a⟩ := site
    have hcons : s.meetAll (((pos, a) :: sites).map Prod.snd) = (s.meet a).meetAll (sites.map Prod.snd) := rfl
    have hlater : indexOf ((s.meet a).meetAll (sites.map Prod.snd)).atoms a = indexOf (s.meet a).atoms a :=
      indexOf_eq_of_prefix ((s.meet a).addsAtoms_meetAll _).atoms (s.mem_meet a)
    rw [List.mapM_cons, hcons]
    simp only [Write.run_bind_eq_ok, run_atomIndex_eq_ok]
    constructor
    · rintro ⟨number, s₁, ⟨n, _, ⟨hknown, rfl, rfl⟩, hnumber⟩, numbers', s₂, hnumbers, h⟩
      cases hnumber
      cases h
      obtain ⟨hall, rfl, rfl⟩ := ih.mp hnumbers
      refine ⟨?_, rfl, ?_⟩
      · rw [List.forall_mem_cons]
        exact ⟨hknown, fun site hsite => (known_meet_iff hknown).mp (hall site hsite)⟩
      · rw [List.map_cons, hlater]
    · rintro ⟨hall, rfl, rfl⟩
      rw [List.forall_mem_cons] at hall
      refine ⟨_, _, ⟨_, _, ⟨hall.1, rfl, rfl⟩, rfl⟩, _, _, ih.mpr ⟨?_, rfl, rfl⟩, ?_⟩
      · intro site hsite
        exact (known_meet_iff hall.1).mpr (hall.2 site hsite)
      · rw [List.map_cons, hlater]
        rfl

/-- Code is written with the indices of its atoms in place of them. -/
theorem run_code_eq_ok {out} :
    ((Write.code code).run env).run s = .ok (out, s') ↔ ∃ instrs, decodeFinal code = .ok instrs ∧
      (∀ site ∈ atomSites instrs, Known env s site.2) ∧ s' = s.meetAll ((atomSites instrs).map Prod.snd) ∧
      out = recode (indexOf s'.atoms) code := by
  unfold Write.code
  cases hdecode : decodeFinal code with
  | error e =>
    constructor
    · intro h
      cases h
    · rintro ⟨_, h, -⟩
      cases h
  | ok instrs =>
    have hlift : (liftM (Except.ok instrs : Result (List Located)) : Write (List Located)) = pure instrs := rfl
    rw [hlift, pure_bind, Write.run_bind_eq_ok]
    simp only [run_sites_eq_ok]
    constructor
    · rintro ⟨numbers, s₁, ⟨hknown, rfl, rfl⟩, h⟩
      cases h
      exact ⟨instrs, rfl, hknown, rfl, (recode_of_decode hdecode _).symm⟩
    · rintro ⟨_, h, hknown, rfl, rfl⟩
      cases h
      rw [recode_of_decode hdecode]
      exact ⟨_, _, ⟨hknown, rfl, rfl⟩, rfl⟩

/-! ## Looking atoms up -/

/-- The atom that an index stands for, behind a name list. -/
def atomAt? (atoms : Array Atom) (n : Nat) : Option Atom :=
  if (⟨n⟩ : Atom).isStatic then some ⟨n⟩ else atoms[n - firstDynamic]?

def atomAt (atoms : Array Atom) (n : Nat) : Atom :=
  (atomAt? atoms n).getD .null

theorem run_atomOfIndex_eq_ok :
    ((Read.atomOfIndex n).run o).run r = .ok (a, r') ↔ atomAt? r.atoms n = some a ∧ r' = r := by
  unfold Read.atomOfIndex atomAt?
  simp only
  rw [show (isIndex ⟨n⟩ || isPredefined ⟨n⟩) = (⟨n⟩ : Atom).isStatic from rfl]
  split
  · constructor
    · intro h
      cases h
      exact ⟨rfl, rfl⟩
    · rintro ⟨h, rfl⟩
      cases h
      rfl
  · simp only [ReaderT.run_bind, StateT.run_bind, Read.run_get, ok_bind]
    cases r.atoms[n - firstDynamic]? with
    | none =>
      constructor
      · intro h
        cases h
      · rintro ⟨h, -⟩
        cases h
    | some b =>
      constructor
      · intro h
        cases h
        exact ⟨rfl, rfl⟩
      · rintro ⟨h, rfl⟩
        cases h
        rfl

theorem gives_atomOfIndex (h : atomAt? atoms n = some a) (pos : Nat) (objects : Objects) :
    Gives o atoms (Read.atomOfIndex n) pos objects [] a objects :=
  fun _ _ => run_atomOfIndex_eq_ok.mpr ⟨h, rfl⟩

theorem run_atomsAt_eq_ok {sites : List (Nat × Atom)} {numbers} :
    ((sites.mapM fun (pos, a) => return (pos, (← Read.atomOfIndex a.id).id) : Read (List (Nat × Nat))).run o).run r
        = .ok (numbers, r') ↔
      (∀ site ∈ sites, (atomAt? r.atoms site.2.id).isSome) ∧
        numbers = (sites.map fun site => (site.1, (atomAt r.atoms site.2.id).id)) ∧ r' = r := by
  induction sites generalizing numbers with
  | nil =>
    constructor
    · intro h
      cases h
      exact ⟨nofun, rfl, rfl⟩
    · rintro ⟨-, rfl, rfl⟩
      rfl
  | cons site sites ih =>
    obtain ⟨pos, a⟩ := site
    rw [List.mapM_cons]
    simp only [Read.run_bind_eq_ok, run_atomOfIndex_eq_ok]
    constructor
    · rintro ⟨_, _, ⟨b, _, ⟨hb, rfl⟩, hnumber⟩, _, _, hnumbers, h⟩
      cases hnumber
      cases h
      obtain ⟨hall, rfl, rfl⟩ := ih.mp hnumbers
      refine ⟨?_, by simp [atomAt, hb], rfl⟩
      rw [List.forall_mem_cons]
      exact ⟨by simp [hb], hall⟩
    · rintro ⟨hall, rfl, rfl⟩
      rw [List.forall_mem_cons] at hall
      obtain ⟨b, hb⟩ := Option.isSome_iff_exists.mp hall.1
      refine ⟨_, _, ⟨b, _, ⟨hb, rfl⟩, rfl⟩, _, _, ih.mpr ⟨hall.2, rfl, rfl⟩, ?_⟩
      simp [atomAt, hb]
      rfl

/-- Stored code is read with the atoms of its indices in place of them. -/
theorem run_readCode_eq_ok :
    ((Read.code n).run o).run r = .ok (code, r') ↔ n ≤ r.rest.length ∧
      r' = { r with rest := r.rest.drop n, pos := r.pos + n } ∧
      ∃ instrs, decodeFinal (r.rest.take n) = .ok instrs ∧
        (∀ site ∈ atomSites instrs, (atomAt? r.atoms site.2.id).isSome = true) ∧
        code = recode (fun a => (atomAt r.atoms a.id).id) (r.rest.take n) := by
  unfold Read.code
  rw [Read.run_get_bind, Read.run_bind_eq_ok]
  simp only [run_bytes_eq_ok]
  cases hdecode : decodeFinal (r.rest.take n) with
  | error e =>
    constructor
    · rintro ⟨_, _, ⟨-, rfl, -⟩, h⟩
      rw [hdecode] at h
      cases h
    · rintro ⟨-, -, _, h, -⟩
      cases h
  | ok instrs =>
    have hlift : (liftM (Except.ok instrs : Result (List Located)) : Read (List Located)) = pure instrs := rfl
    constructor
    · rintro ⟨_, _, ⟨hn, rfl, rfl⟩, h⟩
      rw [hdecode, Except.mapError, hlift, pure_bind] at h
      obtain ⟨_, _, hsites, h⟩ := Read.run_bind_eq_ok.mp h
      obtain ⟨hall, rfl, rfl⟩ := run_atomsAt_eq_ok.mp hsites
      cases h
      exact ⟨hn, rfl, instrs, rfl, hall, (recode_of_decode hdecode fun a => (atomAt r.atoms a.id).id).symm⟩
    · rintro ⟨hn, rfl, _, h, hall, rfl⟩
      cases h
      refine ⟨_, _, ⟨hn, rfl, rfl⟩, ?_⟩
      rw [hdecode, Except.mapError, hlift, pure_bind, recode_of_decode hdecode]
      exact Read.run_bind_eq_ok.mpr ⟨_, _, run_atomsAt_eq_ok.mpr ⟨hall, rfl, rfl⟩, rfl⟩

theorem gives_code {stored instrs} (hdecode : decodeFinal stored = .ok instrs)
    (h : ∀ site ∈ atomSites instrs, (atomAt? atoms site.2.id).isSome) (pos : Nat) (objects : Objects) :
    Gives o atoms (Read.code stored.length) pos objects stored
      (recode (fun a => (atomAt atoms a.id).id) stored) objects := by
  intro rest table
  have htake : (stored ++ rest).take stored.length = stored := List.take_left
  have hdrop : (stored ++ rest).drop stored.length = rest := List.drop_left
  rw [run_readCode_eq_ok]
  simp only [htake, hdrop]
  exact ⟨by simp, trivial, instrs, hdecode, h, trivial⟩

/-! ## Atoms, read back -/

variable {p : Passage} {inside : List Nat} {raws : Nat}

theorem id_lt_of_listed {t} (h : a.Listed t) : firstDynamic ≤ a.id ∧ a.id < indexTag := by
  obtain ⟨hpredefined, e, hentry, -⟩ := h
  constructor
  · simpa [isPredefined] using hpredefined
  · exact AtomTable.entry?_lt hentry

theorem isStatic_of_listed {t} (h : a.Listed t) : a.isStatic = false := by
  obtain ⟨hlow, hhigh⟩ := id_lt_of_listed h
  simp [isStatic, isIndex, isPredefined, hlow, hhigh]

/-- As there are only so many handles, the numbers of atoms stay below the tag of those that hold a
number. -/
theorem Sound.length_atoms_le (h : Sound p raws s) : firstDynamic + s.atoms.size ≤ indexTag := by
  have hinj : Function.Injective Atom.id := by
    rintro ⟨a⟩ ⟨b⟩ hab
    exact congrArg Atom.mk hab
  have hnodup : (s.atoms.toList.map Atom.id).Nodup := h.nodup.map hinj
  have hsub : (s.atoms.toList.map Atom.id).toFinset ⊆ Finset.Ico firstDynamic indexTag := by
    intro id hid
    obtain ⟨a, ha, rfl⟩ := List.mem_map.mp (List.mem_toFinset.mp hid)
    exact Finset.mem_Ico.mpr (id_lt_of_listed (h.listed a ha))
  have hcard := Finset.card_le_card hsub
  rw [List.toFinset_card_of_nodup hnodup, Nat.card_Ico, List.length_map, Array.length_toList] at hcard
  have : firstDynamic ≤ indexTag := by decide
  omega

theorem Sound.meet (h : Sound p raws s) (hknown : Known p.env s a) (ha : p.Admits a) : Sound p raws (s.meet a) := by
  unfold WriteState.meet
  split
  · exact h
  · rename_i hnew
    obtain ⟨hstatic, hmem⟩ := not_or.mp hnew
    have hdynamic : a.isIndex = false ∧ a.isPredefined = false := by simpa [isStatic] using hstatic
    have hhas := (hknown.resolve_left hstatic).resolve_left hmem
    simp only [AtomTable.has, hdynamic.1, Bool.false_or] at hhas
    obtain ⟨e, he⟩ := Option.isSome_iff_exists.mp hhas
    refine ⟨?_, ?_, ?_, h.budget⟩
    · rw [Array.toList_push]
      exact List.Nodup.append h.nodup (List.nodup_singleton a) (by simpa using hmem)
    · intro b hb
      rw [Array.toList_push, List.mem_append, List.mem_singleton] at hb
      rcases hb with hb | rfl
      · exact h.admitted b hb
      · exact ha
    · intro b hb
      rw [Array.toList_push, List.mem_append, List.mem_singleton] at hb
      rcases hb with hb | rfl
      · exact h.listed b hb
      · exact ⟨hdynamic.2, e, he, (p.fits b ha).name hdynamic.2 e he⟩

theorem Sound.meetAll {atoms} (h : Sound p raws s) (hknown : ∀ a ∈ atoms, Known p.env s a)
    (hadmits : ∀ a ∈ atoms, p.Admits a) : Sound p raws (s.meetAll atoms) := by
  induction atoms generalizing s with
  | nil => exact h
  | cons a atoms ih =>
    rw [List.forall_mem_cons] at hknown hadmits
    refine ih (h.meet hknown.1 hadmits.1) ?_ hadmits.2
    intro b hb
    exact (known_meet_iff hknown.1).mpr (hknown.2 b hb)

theorem AddsAtoms.grows (h : AddsAtoms s s') : Grows inside s s' where
  atoms := h.atoms
  count := h.count.symm.le
  kept := fun id _ => by rw [h.objects]
  fresh := fun id k hk => .inl (by rwa [h.objects] at hk)

theorem Tracks.addsAtoms {pos objects links} (h : Tracks p inside s pos objects links) (hadds : AddsAtoms s s') :
    Tracks p inside s' pos objects links := by
  obtain ⟨size, below, inj, complete, met, paired⟩ := h
  rw [← hadds.objects] at below inj complete met
  rw [← hadds.count] at size below
  exact ⟨size, below, inj, complete, met, paired⟩

/-- Only atoms are met on the way. -/
theorem ReadsBack.of_gives {write : Write Bytes} {a}
    (h : ∀ s out s', (write.run p.env).run s = .ok (out, s') → Sound p raws s → Sound p raws s' ∧ AddsAtoms s s' ∧
      ∀ atoms : Array Atom, s'.atoms.toList.map p.rename <+: atoms.toList → ∀ pos objects,
      Gives p.options atoms read pos objects out a objects) :
    ReadsBack p inside raws raws [] write (fun _ => read) (Is a) := by
  intro s out s' hrun hs
  obtain ⟨hs', hadds, hgives⟩ := h s out s' hrun hs
  refine ⟨out, rfl, hs', hadds.grows, ?_⟩
  intro atoms hatoms pos objects links depth htracks _
  exact ⟨a, objects, links, hgives atoms hatoms pos objects, List.Subset.refl _, fun _ _ => rfl,
    (htracks.addsAtoms hadds).move (Nat.le_add_right _ _)⟩

theorem indexOf_lt (hs : Sound p raws s) (ha : a.Fits p.env.table) (hmem : a.isStatic ∨ a ∈ s.atoms.toList) :
    indexOf s.atoms a < 0x100000000 ∧ (a.isIndex = false → indexOf s.atoms a < 0x80000000) := by
  have hsize := hs.length_atoms_le
  have htag : indexTag = 0x80000000 := rfl
  unfold indexOf
  split
  · refine ⟨ha.handle, ?_⟩
    intro hindex
    have hlt : ¬indexTag ≤ a.id := by simpa [isIndex] using hindex
    omega
  · have hidx := List.idxOf_lt_length_of_mem (hmem.resolve_left ‹_›)
    rw [Array.length_toList] at hidx
    exact ⟨by omega, fun _ => by omega⟩

/-- The reader has the new atom at the index of the old one. -/
theorem atomAt?_indexOf (hs : Sound p raws s) (hmem : a.isStatic ∨ a ∈ s.atoms.toList)
    (hatoms : s.atoms.toList.map p.rename <+: atoms.toList) :
    atomAt? atoms (indexOf s.atoms a) = some (p.rename a) := by
  have hsize := hs.length_atoms_le
  unfold atomAt? indexOf
  by_cases hstatic : a.isStatic = true
  · rw [if_pos hstatic, if_pos hstatic, p.keeps a hstatic]
  · have hidx := List.idxOf_lt_length_of_mem (hmem.resolve_left hstatic)
    have hget := List.getElem?_idxOf (hmem.resolve_left hstatic)
    have hnot : ¬(⟨firstDynamic + s.atoms.toList.idxOf a⟩ : Atom).isStatic := by
      rw [Array.length_toList] at hidx
      simp only [isStatic, isIndex, isPredefined, Bool.or_eq_true, decide_eq_true_eq]
      omega
    have hback : firstDynamic + s.atoms.toList.idxOf a - firstDynamic = s.atoms.toList.idxOf a := by omega
    obtain ⟨more, hmore⟩ := hatoms
    rw [if_neg hstatic, if_neg hnot, hback, ← Array.getElem?_toList, ← hmore,
      List.getElem?_append_left (by simpa using hidx), List.getElem?_map, hget]
    rfl

theorem atom_readsBack (h : p.Admits a) :
    ReadsBack p inside raws raws [] (Write.atom a) (fun _ => Read.atom) (Is (p.rename a)) := by
  have ha := p.fits a h
  apply ReadsBack.of_gives
  intro s out s' hrun hs
  obtain ⟨hknown, rfl, rfl⟩ := run_atom_eq_ok.mp hrun
  have hs' := hs.meet hknown h
  refine ⟨hs', s.addsAtoms_meet a, ?_⟩
  intro atoms hatoms pos objects
  unfold atomBytes Read.atom
  cases hindex : a.isIndex with
  | true =>
    have hstatic : a.isStatic := by simp [isStatic, hindex]
    have hhandle := ha.handle
    have htag : indexTag ≤ a.id := by simpa [isIndex] using hindex
    have hvalue : indexTag = 0x80000000 := rfl
    have hback : Atom.ofIndex? (a.id - indexTag) = some a := by
      rw [Atom.ofIndex?, if_pos (by rw [Atom.maxIndex]; omega), Nat.sub_add_cancel htag]
    have hhalf : (2 * (a.id - indexTag) + 1) / 2 = a.id - indexTag := by omega
    rw [p.keeps a hstatic]
    simp only [Atom.index?, hindex, if_true]
    refine Gives.bind_nil ((parses_leb (by omega)).gives _ atoms pos objects) ?_
    rw [if_pos (by omega), hhalf, hback]
    exact gives_pure a
  | false =>
    have hlt := (indexOf_lt hs' ha (s.mem_meet a)).2 hindex
    have hmod : 2 * indexOf (s.meet a).atoms a % 0x100000000 = 2 * indexOf (s.meet a).atoms a :=
      Nat.mod_eq_of_lt (by omega)
    have hhalf : 2 * indexOf (s.meet a).atoms a / 2 = indexOf (s.meet a).atoms a := by omega
    simp only [Atom.index?, hindex, Bool.false_eq_true, if_false, hmod]
    refine Gives.bind_nil ((parses_leb (by omega)).gives _ atoms pos objects) ?_
    rw [if_neg (by omega), hhalf]
    exact gives_atomOfIndex (atomAt?_indexOf hs' (s.mem_meet a) hatoms) _ _

theorem code_readsBack (h : ∀ instrs, decodeFinal code = .ok instrs → ∀ site ∈ atomSites instrs, p.Admits site.2) :
    ReadsBack p inside raws raws [] (Write.code code) (fun _ => Read.code code.length)
      (Is (recode (fun a => (p.rename a).id) code)) := by
  apply ReadsBack.of_gives
  intro s out s' hrun hs
  obtain ⟨instrs, hdecode, hknown, hmeet, rfl⟩ := run_code_eq_ok.mp hrun
  have hadmits := h instrs hdecode
  have hmem : ∀ site ∈ atomSites instrs, site.2.isStatic = true ∨ site.2 ∈ s'.atoms.toList := by
    intro site hsite
    rw [hmeet]
    exact s.mem_meetAll (List.mem_map_of_mem hsite)
  have hs' : Sound p raws s' := by
    rw [hmeet]
    apply hs.meetAll
    · rintro a ha
      obtain ⟨site, hsite, rfl⟩ := List.mem_map.mp ha
      exact hknown site hsite
    · rintro a ha
      obtain ⟨site, hsite, rfl⟩ := List.mem_map.mp ha
      exact hadmits site hsite
  have hindex : ∀ site ∈ atomSites instrs, indexOf s'.atoms site.2 < Nat.pow 256 4 :=
    fun site hsite => (indexOf_lt hs' (p.fits _ (hadmits site hsite)) (hmem site hsite)).1
  refine ⟨hs', hmeet ▸ s.addsAtoms_meetAll _, ?_⟩
  intro atoms hatoms pos objects
  -- the atoms of the stored code are numbers, and the reader has an atom for each of them
  have hback : ∀ site ∈ atomSites instrs, atomAt? atoms (indexOf s'.atoms site.2) = some (p.rename site.2) :=
    fun site hsite => atomAt?_indexOf hs' (hmem site hsite) hatoms
  have hsome : ∀ site ∈ atomSites (instrs.map (Located.mapAtom fun a => ⟨indexOf s'.atoms a⟩)),
      (atomAt? atoms site.2.id).isSome = true := by
    intro site hsite
    rw [atomSites_map] at hsite
    obtain ⟨site', hsite', rfl⟩ := List.mem_map.mp hsite
    simp [hback site' hsite']
  have hsame : recode (fun a => (atomAt atoms (indexOf s'.atoms a)).id) code
      = recode (fun a => (p.rename a).id) code := by
    apply recode_congr hdecode
    intro site hsite
    rw [atomAt, hback site hsite, Option.getD_some]
  have hgives := gives_code (o := p.options) (decodeFinal_recode hdecode hindex) hsome pos objects
  rw [length_recode, recode_recode hdecode hindex, hsame] at hgives
  exact hgives

/-! ## Lists of items -/

theorem many_append {read} (done : Array β)
    (h : ∀ x ∈ xs, ReadsBack p inside raws raws [] (write x) (fun _ => read) (Is (f x))) :
    ReadsBack p inside raws raws [] (List.flatten <$> xs.mapM write)
      (fun _ => Read.many read xs.length done) (Is (done ++ (xs.map f).toArray)) := by
  induction xs generalizing done with
  | nil =>
    rw [List.mapM_nil, map_pure]
    exact .done rfl fun _ => by simp [Is]
  | cons x rest ih =>
    have hrest := ih (done.push (f x)) fun y hy => h y (List.mem_cons_of_mem _ hy)
    have hcons : List.flatten <$> (x :: rest).mapM write
        = write x >>= fun bytes =>
          (List.flatten <$> rest.mapM write) >>= fun more => pure (bytes ++ more) := by
      simp only [List.mapM_cons, map_bind, map_pure, List.flatten_cons, bind_map_left]
    rw [hcons]
    refine (h x List.mem_cons_self).bind_eq fun bytes => ?_
    exact (hrest.weaken fun _ read hread => by simp_all [Is]).last fun _ => rfl

/-- Items that are read back one by one are read back as a list. -/
theorem many_readsBack {γ : Type} {read before} {next : List Bytes → Write Bytes} {readNext : Array β → Nat → Read γ}
    {ok} (hn : xs.length = n) (h : ∀ x ∈ xs, ReadsBack p inside raws raws [] (write x) (fun _ => read) (Is (f x)))
    (hnext : ∀ pieces,
      ReadsBack p inside raws raws (before ++ pieces.flatten) (next pieces) (readNext (xs.map f).toArray) ok) :
    ReadsBack p inside raws raws before (xs.mapM write >>= next) (fun depth => Read.many read n #[] >>= fun items =>
      readNext items depth) ok := by
  subst hn
  refine (many_append #[] h).bind_view List.flatten ⟨_, Eq, rfl⟩ ?_
  rintro pieces _ ⟨_, rfl⟩
  rw [Array.empty_append]
  exact (hnext pieces).weaken fun _ _ hok _ => hok

/-! ## Variables -/

/-- The byte of a variable's kind and flags is taken apart again. -/
theorem variableBits (kind : VarKind) (isConst isLexical isCaptured : Bool) :
    let bits := kind.toBits + bit isConst 4 + bit isLexical 5
      + bit isCaptured 6
    bits < 256 ∧ bits % 16 = kind.toBits ∧ bits.testBit 4 = isConst ∧ bits.testBit 5 = isLexical ∧
      bits.testBit 6 = isCaptured := by
  cases kind <;> cases isConst <;> cases isLexical <;> cases isCaptured <;> decide

theorem closureBits (kind : VarKind) (isLocal isArg isConst isLexical : Bool) :
    let bits := bit isLocal 0 + bit isArg 1 + bit isConst 2
      + bit isLexical 3 + kind.toBits * 16
    bits < 256 ∧ bits / 16 = kind.toBits ∧ bits.testBit 0 = isLocal ∧ bits.testBit 1 = isArg ∧
      bits.testBit 2 = isConst ∧ bits.testBit 3 = isLexical := by
  cases kind <;> cases isLocal <;> cases isArg <;> cases isConst <;> cases isLexical <;> decide

theorem parses_varKind (kind : VarKind) : Parses (Read.varKind kind.toBits) [] kind := by
  unfold Read.varKind
  rw [VarKind.ofBits?_toBits]
  exact parses_pure kind

theorem variable_readsBack {v : Variable} (h : v.Fits p.Admits) :
    ReadsBack p inside raws raws [] (Write.variable_ v) (fun _ => Read.variable_) (Is (v.rename p.rename)) := by
  obtain ⟨name, level, next, kind, isConst, isLexical, isCaptured⟩ := v
  obtain ⟨hname, hlevel, hnext⟩ := h
  simp only at hname hlevel hnext
  obtain ⟨hbyte, hkind, hconst, hlexical, hcaptured⟩ :=
    variableBits kind isConst isLexical isCaptured
  have hnextFits : next.elim 0 (· + 1) < 0x100000000 := by
    cases next with
    | none => decide
    | some n =>
      have := hnext n rfl
      simp only [Option.elim_some]
      omega
  have hnextBack : (if next.elim 0 (· + 1) = 0 then none else some (next.elim 0 (· + 1) - 1)) = next := by
    cases next with
    | none => rfl
    | some n => simp
  unfold Write.variable_ Read.variable_
  refine (atom_readsBack hname).bind_eq fun bytes => ?_
  refine .piece (parses_leb hlevel) ?_
  refine .piece (parses_leb hnextFits) ?_
  refine .piece (parses_toUInt8 hbyte) ?_
  rw [hkind, hconst, hlexical, hcaptured, hnextBack]
  refine .piece (parses_varKind kind) ?_
  exact .done (by simp) fun _ => rfl

theorem closureVar_readsBack {v : ClosureVar} (h : v.Fits p.Admits) :
    ReadsBack p inside raws raws [] (Write.closureVar v) (fun _ => Read.closureVar) (Is (v.rename p.rename)) := by
  obtain ⟨name, varIdx, isLocal, isArg, isConst, isLexical, kind⟩ := v
  obtain ⟨hname, hindex⟩ := h
  obtain ⟨hbyte, hkind, hlocal, harg, hconst, hlexical⟩ :=
    closureBits kind isLocal isArg isConst isLexical
  unfold Write.closureVar Read.closureVar
  refine (atom_readsBack hname).bind_eq fun bytes => ?_
  refine .piece (parses_leb16 _ hindex) ?_
  refine .piece (parses_toUInt8 hbyte) ?_
  rw [hkind, hlocal, harg, hconst, hlexical]
  refine .piece (parses_varKind kind) ?_
  exact .done (by simp) fun _ => rfl

/-! ## Debug information -/

theorem debug_readsBack {d : DebugInfo} (h : d.Fits p.Admits) :
    ReadsBack p inside raws raws [] (Write.debug d) (fun _ => Read.debug)
      (Is (d.stored p.env.options p.rename)) := by
  obtain ⟨filename, line, lines, source⟩ := d
  obtain ⟨hfilename, hline⟩ := h
  simp only at hfilename hline
  unfold Write.debug Read.debug
  refine (atom_readsBack hfilename).bind_eq fun bytes => ?_
  refine .count fun hlines => ?_
  refine .readEnv ?_
  -- what is stored of the source, and what that is read as
  obtain ⟨stored, hstored, text, hutf8, htext⟩ : ∃ stored : Bytes,
      (if p.env.options.stripSource then [] else source.elim [] Text.utf8) = stored ∧
      ∃ text, Text.readUtf8? stored = some text ∧
      (if text.isEmpty then none else some text)
        = if p.env.options.stripSource then none else source.filter (!·.isEmpty) := by
    cases hstrip : p.env.options.stripSource with
    | true => exact ⟨[], rfl, "", rfl, rfl⟩
    | false =>
      cases source with
      | none => exact ⟨[], rfl, "", rfl, rfl⟩
      | some s =>
        refine ⟨Text.utf8 s, rfl, s, Text.readUtf8?_utf8 s, ?_⟩
        cases hempty : s.isEmpty <;> simp [Option.filter, hempty]
  simp only [hstored]
  refine .count fun hsize => ?_
  refine .piece (parses_leb hline) ?_
  refine .piece (parses_leb hlines) ?_
  refine .piece (parses_bytes lines) ?_
  refine .piece (parses_leb hsize) ?_
  refine .piece (parses_bytes stored) ?_
  rw [hutf8]
  refine .done (by simp) fun _ => ?_
  simp only [Is, htext, DebugInfo.stored]

/-! ## Flags -/

theorem bit_eq (flag : Bool) (place : Nat) : bit flag place = flag.toNat * Nat.pow 2 place := by
  cases flag <;> simp [bit]

theorem testBit_iff (n i : Nat) (flag : Bool) (h : n / Nat.pow 2 i % 2 = flag.toNat) : n.testBit i = flag := by
  rw [Nat.testBit_eq_decide_div_mod_eq]
  change decide (n / Nat.pow 2 i % 2 = 1) = flag
  rw [h]
  cases flag <;> rfl

theorem kind_toBits_lt (kind : FunctionKind) : kind.toBits < 4 := by
  cases kind <;> decide

theorem ofBits_mod (n : Nat) : FunctionKind.ofBits (n % 4) = FunctionKind.ofBits n := by
  have hlow : ∀ i < 2, (n % 4).testBit i = n.testBit i := by
    intro i hi
    rw [show 4 = 2 ^ 2 from rfl, Nat.testBit_mod_two_pow]
    simp [hi]
  rw [FunctionKind.ofBits, FunctionKind.ofBits, hlow 1 (by decide), hlow 0 (by decide)]

/-- The word as a number: each flag is a bit, and the kind stands between the fourth and the fifth. -/
theorem pack_eq (flags : FunctionFlags) (kind : FunctionKind) :
    flags.pack kind = flags.hasPrototype.toNat + 2 * flags.simpleParams.toNat
      + 4 * flags.derivedConstructor.toNat + 8 * flags.needHomeObject.toNat + 16 * kind.toBits
      + 64 * (flags.newTargetAllowed.toNat + 2 * flags.superCallAllowed.toNat
        + 4 * flags.superAllowed.toNat + 8 * flags.argumentsAllowed.toNat + 16 * flags.hasDebug.toNat
        + 32 * flags.isEval.toNat) := by
  simp only [pack, FunctionFlags.toBits, bit_eq, Nat.reducePow, Nat.pow_eq]
  omega

theorem pack_lt (flags : FunctionFlags) (kind : FunctionKind) : flags.pack kind < 0x10000 := by
  have hkind := kind_toBits_lt kind
  have hbit : ∀ b : Bool, b.toNat ≤ 1 := Bool.toNat_le
  have h0 := hbit flags.hasPrototype
  have h1 := hbit flags.simpleParams
  have h2 := hbit flags.derivedConstructor
  have h3 := hbit flags.needHomeObject
  have h6 := hbit flags.newTargetAllowed
  have h7 := hbit flags.superCallAllowed
  have h8 := hbit flags.superAllowed
  have h9 := hbit flags.argumentsAllowed
  have h10 := hbit flags.hasDebug
  have h11 := hbit flags.isEval
  rw [pack_eq]
  omega

theorem unpack_pack (flags : FunctionFlags) (kind : FunctionKind) :
    unpack (flags.pack kind) = (flags, kind) := by
  have hword := pack_eq flags kind
  obtain ⟨f0, f1, f2, f3, f6, f7, f8, f9, f10, f11⟩ := flags
  have hkind := kind_toBits_lt kind
  have h0 := f0.toNat_le
  have h1 := f1.toNat_le
  have h2 := f2.toNat_le
  have h3 := f3.toNat_le
  have h6 := f6.toNat_le
  have h7 := f7.toNat_le
  have h8 := f8.toNat_le
  have h9 := f9.toNat_le
  have h10 := f10.toNat_le
  have h11 := f11.toNat_le
  simp only at hword
  have hbits : FunctionKind.ofBits (pack ⟨f0, f1, f2, f3, f6, f7, f8, f9, f10, f11⟩ kind / 16)
      = kind := by
    have hlow : pack ⟨f0, f1, f2, f3, f6, f7, f8, f9, f10, f11⟩ kind / 16 % 4
        = kind.toBits := by omega
    rw [← ofBits_mod, hlow, FunctionKind.ofBits_toBits]
  rw [unpack, hbits, FunctionFlags.ofBits, testBit_iff _ 0 f0, testBit_iff _ 1 f1,
    testBit_iff _ 2 f2, testBit_iff _ 3 f3, testBit_iff _ 6 f6, testBit_iff _ 7 f7, testBit_iff _ 8 f8,
    testBit_iff _ 9 f9, testBit_iff _ 10 f10, testBit_iff _ 11 f11]
  all_goals simp only [Nat.reducePow, Nat.pow_eq]; omega

/-! ## Functions -/

theorem slotVars_readsBack {slots} {vars : List Variable} (hlen : vars.length = slots)
    (h : ∀ v ∈ vars, v.Fits p.Admits) :
    ReadsBack p inside raws raws [] (Write.slotVars slots vars)
      (fun _ => Read.slotVars slots) (Is (vars.map (·.rename p.rename))) := by
  unfold Write.slotVars Read.slotVars
  by_cases hzero : slots = 0
  · rw [if_pos hzero, if_pos hzero]
    obtain rfl : vars = [] := List.length_eq_zero_iff.mp (hlen.trans hzero)
    exact .done rfl fun _ => rfl
  · rw [if_neg hzero, if_neg hzero]
    refine .count fun hslots => ?_
    refine .piece (parses_leb hslots) ?_
    rw [if_neg (by simp)]
    refine many_readsBack hlen (fun v hv => variable_readsBack (h v hv)) fun pieces => ?_
    exact .done rfl fun _ => rfl

theorem debug?_readsBack {d} (h : ∀ d' ∈ d, d'.Fits p.Admits) :
    ReadsBack p inside raws raws [] (Write.debug? d) (fun _ => Read.debug? d.isSome)
      (Is (d.map (·.stored p.env.options p.rename))) := by
  cases d with
  | none => exact .done rfl fun _ => rfl
  | some d =>
    refine (debug_readsBack (h d rfl)).mapRead ?_
    rintro _ _ rfl
    rfl

/-! ## Module entries -/

theorem export_readsBack {e : Export} (h : e.Fits p.Admits) :
    ReadsBack p inside raws raws [] (Write.exportEntry e) (fun _ => Read.exportEntry) (Is (e.rename p.rename)) := by
  cases e with
  | ofLocal varIdx name =>
    obtain ⟨hindex, hname⟩ := h
    unfold Write.exportEntry Read.exportEntry
    refine .piece (parses_toUInt8 (show localExport < 256 by decide)) ?_
    rw [if_pos rfl]
    refine .piece (parses_leb hindex) ?_
    refine (atom_readsBack hname).bind_eq fun bytes => ?_
    exact .done (by simp) fun _ => rfl
  | ofModule reqModule localName name =>
    obtain ⟨hreq, hlocal, hname⟩ := h
    unfold Write.exportEntry Read.exportEntry
    refine .piece (parses_toUInt8 (show indirectExport < 256 by decide)) ?_
    rw [if_neg (by decide), if_pos rfl]
    refine .piece (parses_leb hreq) ?_
    refine (atom_readsBack hlocal).bind_eq fun bytes => ?_
    refine (atom_readsBack hname).bind_eq fun bytes' => ?_
    exact .done (by simp) fun _ => rfl

theorem import_readsBack {i : Import} (h : i.Fits p.Admits) :
    ReadsBack p inside raws raws [] (Write.importEntry i) (fun _ => Read.importEntry) (Is (i.rename p.rename)) := by
  obtain ⟨varIdx, isStar, name, reqModule⟩ := i
  obtain ⟨hindex, hname, hreq⟩ := h
  have hstar : (if isStar = true then 1 else 0 : UInt8).toNat ≠ 0 ↔ isStar := by
    cases isStar <;> decide
  unfold Write.importEntry Read.importEntry
  refine .piece (parses_leb hindex) ?_
  refine .piece (parses_byte (if isStar = true then 1 else 0)) ?_
  refine (atom_readsBack hname).bind_eq fun bytes => ?_
  refine .piece (parses_leb hreq) ?_
  refine .done (by simp) fun _ => ?_
  simp only [Is, Import.rename, hstar, Bool.decide_eq_true]

theorem parses_many {bytes : α → Bytes} (done : Array α) (h : ∀ x ∈ xs, Parses read (bytes x) x) :
    Parses (Read.many read xs.length done) (xs.flatMap bytes) (done ++ xs.toArray) := by
  induction xs generalizing done with
  | nil =>
    rw [Array.append_empty]
    exact parses_pure done
  | cons x rest ih =>
    have hrest := ih (done.push x) fun y hy => h y (List.mem_cons_of_mem _ hy)
    rw [List.flatMap_cons]
    refine (h x List.mem_cons_self).bind ?_
    simpa using hrest

theorem counted_readsBack {γ : Type} {read before} {next : List Bytes → Write Bytes} {readNext : List β → Nat → Read γ}
    {ok} (hn : xs.length < 0x100000000)
    (h : ∀ x ∈ xs, ReadsBack p inside raws raws [] (write x) (fun _ => read) (Is (f x))) (hnext : ∀ pieces,
      ReadsBack p inside raws raws (before ++ Leb128.write xs.length ++ pieces.flatten) (next pieces)
      (readNext (xs.map f)) ok) :
    ReadsBack p inside raws raws before (xs.mapM write >>= next) (fun depth => Read.counted read >>= fun items =>
      readNext items depth) ok := by
  unfold Read.counted
  simp only [bind_assoc, pure_bind]
  refine .piece (parses_leb hn) ?_
  exact many_readsBack rfl h hnext

theorem parses_counted {bytes : α → Bytes} (hn : xs.length < 0x100000000) (h : ∀ x ∈ xs, Parses read (bytes x) x) :
    Parses (Read.counted read) (Leb128.write xs.length ++ xs.flatMap bytes) xs := by
  unfold Read.counted
  refine (parses_leb hn).bind ((parses_many #[] h).bind_nil ?_)
  simpa using parses_pure xs

end ScriptBytecode.Object
