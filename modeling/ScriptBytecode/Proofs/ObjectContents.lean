import ScriptBytecode.Proofs.ObjectRoundTrip

/-!
# What objects hold

Whatever bytes a reader accepts, what it makes of them can be written, and is stored as it is. `Yields` follows a reader
behind the name list: it leaves the objects that it has numbered, and the identity of each new one is the offset of its
tag.
-/

namespace ScriptBytecode

open Object (WriteOptions recode recode_id atomSites bigIntBytes)

variable {r r' : ReadState} {first n : Nat} {why : ReadFault}

/-! ## Values that are stored as they are -/

/-- With nothing stripped and all atoms as they were, the value is stored as it is. -/
structure Value.Stable (t : AtomTable) (heap : List (Nat × Value)) (v : Value) : Prop where
  fits : v.Fits (Atom.Storable t) heap
  writable : v.Writable t
  stored : ∀ o : WriteOptions, o.stripDebug = false → o.stripSource = false → v.stored o id = v

structure FunctionRecord.Stable (t : AtomTable) (heap : List (Nat × Value)) (f : FunctionRecord) : Prop where
  fits : f.Fits (Atom.Storable t) heap
  writable : f.Writable t
  stored : ∀ o : WriteOptions, o.stripDebug = false → o.stripSource = false → f.stored o id = f

structure Property.Stable (t : AtomTable) (heap : List (Nat × Value)) (p : Property) : Prop where
  key : p.key.Storable t
  value : p.value.Stable t heap

structure DebugInfo.Stable (t : AtomTable) (d : DebugInfo) : Prop where
  fits : d.Fits (Atom.Storable t)
  writable : d.Writable t
  source : ∀ s ∈ d.source, s.isEmpty = false

variable {t : AtomTable} {heap : List (Nat × Value)}

theorem stable_all {vs} (h : ∀ v ∈ vs, v.Stable t heap) :
    fitsAll (Atom.Storable t) heap vs ∧ writableAll t vs ∧
      ∀ o : WriteOptions, o.stripDebug = false → o.stripSource = false → storedAll o id vs = vs := by
  induction vs with
  | nil => exact ⟨trivial, trivial, fun _ _ _ => rfl⟩
  | cons v rest ih =>
    rw [List.forall_mem_cons] at h
    obtain ⟨hfits, hwritable, hstored⟩ := ih h.2
    refine ⟨⟨h.1.fits, hfits⟩, ⟨h.1.writable, hwritable⟩, ?_⟩
    intro o hdebug hsource
    rw [storedAll, h.1.stored o hdebug hsource, hstored o hdebug hsource]

theorem stable_props {ps} (h : ∀ p ∈ ps, p.Stable t heap) :
    fitsProps (Atom.Storable t) heap ps ∧ writableProps t ps ∧
      ∀ o : WriteOptions, o.stripDebug = false → o.stripSource = false → storedProps o id ps = ps := by
  induction ps with
  | nil => exact ⟨trivial, trivial, fun _ _ _ => rfl⟩
  | cons p rest ih =>
    obtain ⟨key, v⟩ := p
    rw [List.forall_mem_cons] at h
    obtain ⟨⟨hkey, hv⟩, hrest⟩ := h
    obtain ⟨hfits, hwritable, hstored⟩ := ih hrest
    refine ⟨⟨hkey, hv.fits, hfits⟩, ⟨hkey.named, hv.writable, hwritable⟩, ?_⟩
    intro o hdebug hsource
    rw [storedProps, hv.stored o hdebug hsource, hstored o hdebug hsource]
    rfl

theorem DebugInfo.Stable.stored {d : DebugInfo} (h : d.Stable t) {o : WriteOptions} (hsource : o.stripSource = false) :
    d.stored o id = d := by
  obtain ⟨filename, line, lines, source⟩ := d
  have hkept : source.filter (!·.isEmpty) = source := by
    cases hs : source with
    | none => rfl
    | some s => simp [Option.filter, h.source s hs]
  simp [DebugInfo.stored, hsource, hkept]

theorem Value.stable_array {id items} (hid : heap.lookup id = some (.array id items))
    (hcount : items.length < 0x100000000) (hitems : ∀ v ∈ items, v.Stable t heap) :
    (Value.array id items).Stable t heap := by
  obtain ⟨hfits, hwritable, hstored⟩ := stable_all hitems
  refine ⟨⟨hid, hfits⟩, ⟨hcount, hwritable⟩, ?_⟩
  intro o hdebug hsource
  rw [Value.stored, hstored o hdebug hsource]

theorem Value.stable_object {id props} (hid : heap.lookup id = some (.object id props))
    (hcount : props.length < 0x100000000) (hprops : ∀ p ∈ props, p.Stable t heap) :
    (Value.object id props).Stable t heap := by
  obtain ⟨hfits, hwritable, hstored⟩ := stable_props hprops
  refine ⟨⟨hid, hfits⟩, ⟨hcount, hwritable⟩, ?_⟩
  intro o hdebug hsource
  rw [Value.stored, hstored o hdebug hsource]

/-- The raw strings of a template are those of an array. -/
theorem Value.stable_template {id id' cooked raw} (hid : heap.lookup id = some (.template id cooked raw))
    (hcount : cooked.length < 0x100000000) (hcooked : ∀ v ∈ cooked, v.Stable t heap)
    (hraw : (Value.array id' raw).Stable t heap) : (Value.template id cooked raw).Stable t heap := by
  obtain ⟨hfits, hwritable, hstored⟩ := stable_all hcooked
  refine ⟨⟨hid, hfits, hraw.fits.2⟩, ⟨hcount, hwritable, hraw.writable⟩, ?_⟩
  intro o hdebug hsource
  have hsame := hraw.stored o hdebug hsource
  rw [Value.stored, Value.array.injEq] at hsame
  rw [Value.stored, hstored o hdebug hsource, hsame.2]

theorem Value.stable_function {id} {f : FunctionRecord} (h : f.Stable t heap) : (Value.function id f).Stable t heap :=
  ⟨h.fits, h.writable, fun o hdebug hsource => by rw [Value.stored, h.stored o hdebug hsource]⟩

theorem Value.stable_module {id id' m} (h : (Value.module id m).Stable t heap) : (Value.module id' m).Stable t heap :=
  ⟨h.fits, h.writable, fun o hdebug hsource => by
    have hsame := h.stored o hdebug hsource
    rw [Value.stored, Value.module.injEq] at hsame
    rw [Value.stored, hsame.2]⟩

theorem FunctionRecord.stable_of_value {id f} (h : (Value.function id f).Stable t heap) : f.Stable t heap :=
  ⟨h.fits, h.writable, fun o hdebug hsource => by
    have hsame := h.stored o hdebug hsource
    rw [Value.stored, Value.function.injEq] at hsame
    exact hsame.2⟩

variable {v : Value}

namespace Object

/-! ## Readers behind the name list -/

/-- The heap has the objects that are complete. -/
def Holds (heap : List (Nat × Value)) (objects : Objects) : Prop :=
  ∀ (k : Nat) (v : Value) (i : Nat), objects[k]? = some (some v) → v.identity? = some i → heap.lookup i = some v

/-- What a reader has to build on: the atoms of the name list can be stored, and the complete objects are stored
as they are. -/
def Fine (t : AtomTable) (heap : List (Nat × Value)) (r : ReadState) : Prop :=
  (∀ a ∈ r.atoms, a.Storable t) ∧ ∀ (k : Nat) (v : Value), r.objects[k]? = some (some v) → v.Stable t heap

/-- A reader has moved on; the tags of the new objects stand behind the offset `first`, and each of them has
taken two bytes at least. -/
structure Advances (first : Nat) (r r' : ReadState) : Prop where
  table : r'.table = r.table
  atoms : r'.atoms = r.atoms
  total : r'.pos + r'.rest.length = r.pos + r.rest.length
  size : r.objects.size ≤ r'.objects.size
  budget : first + 2 * r'.objects.size ≤ r'.pos + 2 * r.objects.size
  kept : ∀ k < r.objects.size, r'.objects[k]? = r.objects[k]?
  fresh : ∀ k v, r.objects.size ≤ k → r'.objects[k]? = some (some v) →
    ∃ i, v.identity? = some i ∧ first ≤ i ∧ i < r'.pos
  ordered : ∀ k k' v v' i i', r.objects.size ≤ k → k < k' → r'.objects[k]? = some (some v) →
    r'.objects[k']? = some (some v') → v.identity? = some i → v'.identity? = some i' → i < i'

theorem Advances.trans {first' r''} (h : Advances first r r') (h' : Advances first' r' r'') (hle : r'.pos ≤ first') :
    Advances first r r'' where
  table := h'.table.trans h.table
  atoms := h'.atoms.trans h.atoms
  total := h'.total.trans h.total
  size := h.size.trans h'.size
  budget := by
    have hfirst := h.budget
    have hsecond := h'.budget
    omega
  kept := fun k hk => (h'.kept k (hk.trans_le h.size)).trans (h.kept k hk)
  fresh := by
    intro k v hk hv
    have hmoved := h'.budget
    have hmoved' := h.budget
    have hsize := h.size
    have hsize' := h'.size
    by_cases hold : k < r'.objects.size
    · rw [h'.kept k hold] at hv
      obtain ⟨i, hi, hlow, hhigh⟩ := h.fresh k v hk hv
      exact ⟨i, hi, hlow, by omega⟩
    · obtain ⟨i, hi, hlow, hhigh⟩ := h'.fresh k v (not_lt.mp hold) hv
      exact ⟨i, hi, by omega, hhigh⟩
  ordered := by
    intro k k' v v' i i' hk hlt hv hv' hi hi'
    by_cases hold' : k' < r'.objects.size
    · rw [h'.kept k (hlt.trans hold')] at hv
      rw [h'.kept k' hold'] at hv'
      exact h.ordered k k' v v' i i' hk hlt hv hv' hi hi'
    · by_cases hold : k < r'.objects.size
      · -- the objects of the first part have their tags before those of the second
        rw [h'.kept k hold] at hv
        obtain ⟨j, hj, -, hhigh⟩ := h.fresh k v hk hv
        obtain ⟨j', hj', hlow, -⟩ := h'.fresh k' v' (not_lt.mp hold') hv'
        cases hi.symm.trans hj
        cases hi'.symm.trans hj'
        omega
      · exact h'.ordered k k' v v' i i' (not_lt.mp hold) hlt hv hv' hi hi'

theorem Advances.weaken {first'} (h : Advances first' r r') (hle : first ≤ first') : Advances first r r' :=
  { h with
    budget := (Nat.add_le_add_right hle _).trans h.budget
    fresh := fun k v hk hv => by
      obtain ⟨i, hi, hlow, hhigh⟩ := h.fresh k v hk hv
      exact ⟨i, hi, hle.trans hlow, hhigh⟩ }

/-- A reader that numbers no objects. -/
theorem Advances.of_objects_eq (htable : r'.table = r.table) (hatoms : r'.atoms = r.atoms)
    (htotal : r'.pos + r'.rest.length = r.pos + r.rest.length) (hobjects : r'.objects = r.objects)
    (hfirst : first ≤ r'.pos) : Advances first r r' where
  table := htable
  atoms := hatoms
  total := htotal
  size := Nat.le_of_eq (by rw [hobjects])
  budget := by
    rw [hobjects]
    omega
  kept := fun k _ => by rw [hobjects]
  fresh := by
    intro k v hk hv
    rw [hobjects, Array.getElem?_eq_none hk] at hv
    cases hv
  ordered := by
    intro k k' v v' i i' hk _ hv
    rw [hobjects, Array.getElem?_eq_none hk] at hv
    cases hv

/-- What is complete stays complete. -/
theorem Advances.holds (h : Advances first r r') (hheap : Holds heap r'.objects) : Holds heap r.objects := by
  intro k v i hv hi
  have hk : k < r.objects.size := by
    by_contra hk
    rw [Array.getElem?_eq_none (not_lt.mp hk)] at hv
    cases hv
  exact hheap k v i ((h.kept k hk).trans hv) hi

/-- What a reader that starts at `r` can do: it moves on, and what it gives is `ok` for every heap that has the
objects that are complete by then. -/
def Outcome {α : Type} (t : AtomTable) (o : ReadOptions) (first : Nat) (r : ReadState) (read : Read α)
    (ok : List (Nat × Value) → α → Prop) : Prop :=
  ∀ a r', (read.run o).run r = .ok (a, r') → Advances first r r' ∧
    ∀ heap, Holds heap r'.objects → Fine t heap r → Fine t heap r' ∧ ok heap a

/-- Wherever it starts, a reader gives something `ok` and moves on; the tags of new objects stand behind the next
`least` bytes. -/
def Yields {α : Type} (t : AtomTable) (o : ReadOptions) (least : Nat) (read : Read α)
    (ok : List (Nat × Value) → α → Prop) : Prop :=
  ∀ r, Outcome t o (r.pos + least) r read ok

variable {α β : Type} {o : ReadOptions} {least : Nat} {ok : List (Nat × Value) → α → Prop}

namespace Yields

theorem pure {a} (h : ∀ heap, ok heap a) : Yields t o 0 (Pure.pure a) ok := by
  intro r a' r' hrun
  cases hrun
  exact ⟨.of_objects_eq rfl rfl rfl rfl le_rfl, fun heap _ hfine => ⟨hfine, h heap⟩⟩

theorem fail : Yields t o least (Read.fail why) ok :=
  fun _ _ _ hrun => absurd hrun Read.run_fail_ne_ok

theorem throw {e ok} : Yields t o least (MonadExcept.throw e : Read α) ok :=
  nofun

theorem bind {read} {next : α → Read β} {ok' : List (Nat × Value) → β → Prop}
    (h : Yields t o least read ok) (hnext : ∀ a, Yields t o 0 (next a) (fun heap b => ok heap a → ok' heap b)) :
    Yields t o least (read >>= next) ok' := by
  intro r b r'' hrun
  obtain ⟨a, r', ha, hb⟩ := Read.run_bind_eq_ok.mp hrun
  obtain ⟨hmoved, hok⟩ := h r a r' ha
  obtain ⟨hmoved', hok'⟩ := hnext a r' b r'' hb
  refine ⟨hmoved.trans hmoved' (Nat.le_add_right _ _), ?_⟩
  intro heap hheap hfine
  obtain ⟨hfine', hokay⟩ := hok heap (hmoved'.holds hheap) hfine
  obtain ⟨hfine'', hokay'⟩ := hok' heap hheap hfine'
  exact ⟨hfine'', hokay' hokay⟩

theorem mono {read} {ok ok' : List (Nat × Value) → α → Prop} (h : Yields t o least read ok)
    (hok : ∀ heap a, ok heap a → ok' heap a) : Yields t o least read ok' := by
  intro r a r' hrun
  obtain ⟨hmoved, hokay⟩ := h r a r' hrun
  exact ⟨hmoved, fun heap hheap hfine => (hokay heap hheap hfine).imp_right (hok heap a)⟩

/-- How many bytes are taken does not matter. -/
theorem any {read} (h : Yields t o least read ok) : Yields t o 0 read ok := by
  intro r a r' hrun
  obtain ⟨hmoved, hokay⟩ := h r a r' hrun
  exact ⟨hmoved.weaken (Nat.add_le_add_left (Nat.zero_le _) _), hokay⟩

end Yields

theorem Takes.yields {read} {ok : α → Prop} (h : Takes least read ok) : Yields t o least read (fun _ => ok) := by
  intro r a r' hrun
  obtain ⟨bytes, rest, hrest, rfl, hleast, -, ha⟩ := h.run hrun
  refine ⟨.of_objects_eq rfl rfl ?_ rfl (Nat.add_le_add_left hleast _), fun heap _ hfine => ⟨hfine, ha⟩⟩
  simp [hrest, Nat.add_assoc]

/-! ## Lists -/

theorem yields_many {item ok} (h : Yields t o 0 item ok) (n : Nat) (done : Array α) :
    Yields t o 0 (Read.many item n done) (fun heap items => items.size = done.size + n ∧
      ((∀ a ∈ done, ok heap a) → ∀ a ∈ items, ok heap a)) := by
  induction n generalizing done with
  | zero => exact .pure fun _ => ⟨rfl, fun hdone => hdone⟩
  | succ n ih =>
    apply h.bind
    intro a
    apply (ih (done.push a)).mono
    intro heap items hitems ha
    obtain ⟨hsize, hall⟩ := hitems
    rw [Array.size_push] at hsize
    refine ⟨by omega, fun hdone => hall ?_⟩
    intro b hb
    rcases Array.mem_push.mp hb with hb | rfl
    · exact hdone b hb
    · exact ha

/-- As many items as were asked for. -/
theorem yields_many_empty {item} (h : Yields t o 0 item ok) (n : Nat) :
    Yields t o 0 (Read.many item n #[]) (fun heap items => items.toList.length = n ∧
      ∀ a ∈ items.toList, ok heap a) := by
  apply (yields_many h n #[]).mono
  rintro heap items ⟨hsize, hall⟩
  refine ⟨by simpa using hsize, fun a ha => hall (fun _ hb => ?_) a (Array.mem_toList_iff.mp ha)⟩
  exact absurd hb (Array.not_mem_empty _)

theorem yields_counted {item} (h : Yields t o 0 item ok) :
    Yields t o 1 (Read.counted item) (fun heap items => items.length < 0x100000000 ∧ ∀ a ∈ items, ok heap a) := by
  unfold Read.counted
  apply takes_leb.yields.bind
  intro n
  apply (yields_many_empty h n).bind
  intro items
  apply Yields.pure
  rintro heap ⟨rfl, hall⟩ hn
  exact ⟨hn, hall⟩

/-! ## Atoms -/

theorem storable_of_atomAt? {atoms} (hatoms : ∀ a ∈ atoms, a.Storable t) {a} (hn : n < 0x100000000)
    (h : atomAt? atoms n = some a) : a.Storable t := by
  unfold atomAt? at h
  split at h
  · rename_i hstatic
    cases h
    rw [Atom.isStatic, Bool.or_eq_true] at hstatic
    rcases hstatic with hindex | hpredefined
    · exact .inl ⟨hindex, hn⟩
    · exact .inr (.inl hpredefined)
  · exact hatoms a (Array.mem_of_getElem? h)

theorem yields_atomOfIndex (n : Nat) :
    Yields t o 0 (Read.atomOfIndex n) (fun _ a => n < 0x100000000 → a.Storable t) := by
  intro r a r' hrun
  obtain ⟨ha, rfl⟩ := run_atomOfIndex_eq_ok.mp hrun
  exact ⟨.of_objects_eq rfl rfl rfl rfl le_rfl,
    fun heap _ hfine => ⟨hfine, fun hn => storable_of_atomAt? hfine.1 hn ha⟩⟩

theorem yields_atom : Yields t o 0 Read.atom (fun _ a => a.Storable t) := by
  unfold Read.atom
  apply takes_leb.yields.any.bind
  intro n
  split
  · split
    · rename_i a hof
      apply Yields.pure
      intro heap hn
      unfold Atom.ofIndex? at hof
      split at hof
      · cases hof
        have htag : Atom.indexTag = 0x80000000 := rfl
        exact .inl ⟨decide_eq_true (Nat.le_add_left ..), by simp only [htag]; omega⟩
      · cases hof
    · exact .fail
  · apply (yields_atomOfIndex _).mono
    intro heap a ha hn
    exact ha (by omega)

/-- The instructions of code are those that were stored, and its atoms are those of the name list. -/
theorem yields_code (n : Nat) :
    Yields t o 0 (Read.code n) (fun _ code => code.length = n ∧
      ∃ instrs, decodeFinal code = .ok instrs ∧ ∀ site ∈ atomSites instrs, site.2.Storable t) := by
  intro r code r' hrun
  obtain ⟨hn, rfl, instrs, hdecode, hfound, rfl⟩ := run_readCode_eq_ok.mp hrun
  refine ⟨.of_objects_eq rfl rfl ?_ rfl (Nat.le_add_right _ _), fun heap _ hfine => ⟨hfine, ?_, ?_⟩⟩
  · simp only [List.length_drop]
    omega
  · rw [length_recode, List.length_take]
    omega
  · have hsite : ∀ site ∈ atomSites instrs, (atomAt r.atoms site.2.id).Storable t := by
      intro site hsite
      obtain ⟨a, ha⟩ := Option.isSome_iff_exists.mp (hfound site hsite)
      have hid := id_lt_of_mem_atomSites (Decode.decode_eq_ok_iff.mp hdecode) site hsite
      rw [atomAt, ha]
      exact storable_of_atomAt? hfine.1 hid ha
    have hcode := decodeFinal_recode hdecode (f := fun a => (atomAt r.atoms a.id).id)
      fun site hmem => (hsite site hmem).fits.handle
    refine ⟨_, hcode, ?_⟩
    rw [atomSites_map]
    intro site hmem
    obtain ⟨site', hmem', rfl⟩ := List.mem_map.mp hmem
    exact hsite site' hmem'

/-! ## Records -/

theorem yields_variable : Yields t o 0 Read.variable_ (fun _ v => v.Fits (Atom.Storable t)) := by
  unfold Read.variable_
  apply yields_atom.bind
  intro name
  apply takes_leb.yields.any.bind
  intro level
  apply takes_leb.yields.any.bind
  intro next
  apply takes_byte.yields.any.bind
  intro bits
  apply (takes_varKind _).yields.bind
  intro kind
  apply Yields.pure
  intro heap _ _ hnext hlevel hname
  refine ⟨hname, hlevel, ?_⟩
  intro n hn
  dsimp only at hn
  split at hn
  · cases hn
  · cases hn
    omega

theorem yields_closureVar : Yields t o 0 Read.closureVar (fun _ v => v.Fits (Atom.Storable t)) := by
  unfold Read.closureVar
  apply yields_atom.bind
  intro name
  apply (takes_leb16 _).yields.bind
  intro idx
  apply takes_byte.yields.any.bind
  intro bits
  apply (takes_varKind _).yields.bind
  intro kind
  exact .pure fun heap _ _ hidx hname => ⟨hname, hidx⟩

theorem yields_debug : Yields t o 0 Read.debug (fun _ d => d.Stable t) := by
  unfold Read.debug
  apply yields_atom.bind
  intro filename
  apply takes_leb.yields.any.bind
  intro line
  apply takes_leb.yields.any.bind
  intro size
  apply (takes_bytes _).yields.bind
  intro lines
  apply takes_leb.yields.any.bind
  intro size'
  apply (takes_bytes _).yields.bind
  intro stored
  split
  · rename_i s hs
    apply Yields.pure
    rintro heap rfl hsize' rfl hsize hline hfilename
    have hlength := Text.length_utf8_readUtf8? hs
    refine ⟨⟨hfilename, hline⟩, ⟨hfilename.named, hsize, ?_⟩, ?_⟩
    · intro s' hs'
      dsimp only at hs'
      split at hs'
      · cases hs'
      · cases hs'
        exact hlength.trans_lt hsize'
    · intro s' hs'
      dsimp only at hs'
      split at hs'
      · cases hs'
      · cases hs'
        simpa using ‹¬s.isEmpty = true›
  · exact .fail

theorem yields_debug? (present : Bool) :
    Yields t o 0 (Read.debug? present) (fun _ d => d.isSome = present ∧ ∀ info ∈ d, info.Stable t) := by
  unfold Read.debug?
  split
  · rename_i hpresent
    apply yields_debug.bind
    intro d
    apply Yields.pure
    intro heap hd
    refine ⟨hpresent.symm, ?_⟩
    intro info hinfo
    cases hinfo
    exact hd
  · rename_i habsent
    exact .pure fun heap => ⟨by simpa using habsent, nofun⟩

theorem yields_slotVars (slots : Nat) :
    Yields t o 0 (Read.slotVars slots) (fun _ vars => vars.length = slots ∧
      ∀ v ∈ vars, v.Fits (Atom.Storable t)) := by
  unfold Read.slotVars
  split
  · rename_i hzero
    exact .pure fun heap => ⟨hzero.symm, nofun⟩
  · apply takes_leb.yields.any.bind
    intro stored
    split
    · exact .fail
    · apply (yields_many_empty yields_variable slots).bind
      intro vars
      exact .pure fun heap hvars _ => hvars

theorem yields_exportEntry : Yields t o 0 Read.exportEntry (fun _ e => e.Fits (Atom.Storable t) ∧ e.Writable t) := by
  unfold Read.exportEntry
  apply takes_byte.yields.any.bind
  intro type
  split
  · apply takes_leb.yields.any.bind
    intro varIdx
    apply yields_atom.bind
    intro name
    exact .pure fun heap hname hidx _ => ⟨⟨hidx, hname⟩, hname.named⟩
  · split
    · apply takes_leb.yields.any.bind
      intro reqModule
      apply yields_atom.bind
      intro localName
      apply yields_atom.bind
      intro name
      exact .pure fun heap hname hlocal hidx _ => ⟨⟨hidx, hlocal, hname⟩, hlocal.named, hname.named⟩
    · exact .fail

theorem yields_importEntry : Yields t o 0 Read.importEntry (fun _ i => i.Fits (Atom.Storable t)) := by
  unfold Read.importEntry
  apply takes_leb.yields.any.bind
  intro varIdx
  apply takes_byte.yields.any.bind
  intro star
  apply yields_atom.bind
  intro name
  apply takes_leb.yields.any.bind
  intro reqModule
  exact .pure fun heap hreq hname _ hidx => ⟨hidx, hname, hreq⟩

/-! ## Values -/

/-- The reader gives values that are stored as they are. -/
abbrev YieldsValue (t : AtomTable) (o : ReadOptions) (value : Read Value) : Prop :=
  Yields t o 0 value (fun heap v => v.Stable t heap)

variable {value : Read Value}

theorem yields_property (h : YieldsValue t o value) :
    Yields t o 0 (Read.property value) (fun heap p => p.Stable t heap) := by
  unfold Read.property
  apply yields_atom.bind
  intro key
  apply h.bind
  intro v
  exact .pure fun heap hv hkey => ⟨hkey, hv⟩

theorem yields_function (h : YieldsValue t o value) :
    Yields t o 0 (Read.function value) (fun heap f => f.Stable t heap) := by
  unfold Read.function
  apply (takes_bytes 2).yields.bind
  intro word
  dsimp only
  apply takes_byte.yields.any.bind
  intro mode
  apply yields_atom.bind
  intro name
  apply (takes_leb16 _).yields.bind
  intro args
  apply (takes_leb16 _).yields.bind
  intro vars
  apply (takes_leb16 _).yields.bind
  intro defined
  apply (takes_leb16 _).yields.bind
  intro stack
  apply takes_leb.yields.any.bind
  intro closureCount
  apply takes_leb.yields.any.bind
  intro constantCount
  apply takes_leb.yields.any.bind
  intro codeSize
  apply (yields_slotVars _).bind
  intro slotVars
  apply (yields_many_empty yields_closureVar _).bind
  intro closure
  apply (yields_code _).bind
  intro code
  apply (yields_debug? _).bind
  intro info
  apply (yields_many_empty h _).bind
  intro constants
  have hcached : Takes 0 (liftM (InlineCache.ofCode code)) (fun cache => cache = .of code) :=
    .lift fun cache hcache => by rw [InlineCache.of, hcache]; rfl
  apply hcached.yields.bind
  intro cache
  apply Yields.pure
  rintro heap rfl ⟨rfl, hconstants⟩ ⟨hflag, hinfo⟩ ⟨rfl, instrs, hdecode, hsites⟩ ⟨rfl, hclosure⟩ ⟨hslots, hslotVars⟩
    hcodeSize hconstantCount hclosureCount hstack hdefined hvars hargs hname hmode _
  obtain ⟨hfits, hwritable, hstored⟩ := stable_all hconstants
  refine ⟨⟨?_, hfits⟩, ⟨?_, hwritable⟩, ?_⟩
  · refine ⟨hname, hmode, hargs, hvars, hdefined, hstack, hslotVars, hclosure, ?_, fun d hd => (hinfo d hd).fits⟩
    intro instrs' hdecode'
    cases hdecode.symm.trans hdecode'
    exact hsites
  · exact {
      name := hname.named
      slots := hslots
      slotCount := by dsimp only; omega
      slotVars := fun v hv => (hslotVars v hv).name.named
      closureCount := hclosureCount
      closureVars := fun v hv => (hclosure v hv).name.named
      codeSize := hcodeSize
      code := ⟨instrs, hdecode, fun site hsite => (hsites site hsite).named⟩
      debug := fun d hd => (hinfo d hd).writable
      constantCount := hconstantCount }
  · intro o' hdebug hsource
    have hshown : o'.shown info = info := by simp [WriteOptions.shown, hdebug]
    have hkept : info.map (·.stored o' id) = info := by
      cases hd : info with
      | none => rfl
      | some d => simp [(hinfo d hd).stored hsource]
    have hcode : recode (fun a => (id a).id) code = code := recode_id code
    simp only [FunctionRecord.stored, hshown, hkept, hcode, hflag, hstored o' hdebug hsource]
    simp [Variable.rename, ClosureVar.rename]

theorem yields_module (h : YieldsValue t o value) :
    Yields t o 0 (Read.module value) (fun heap m => (Value.module 0 m).Stable t heap) := by
  unfold Read.module
  apply yields_atom.bind
  intro name
  apply (yields_counted (yields_property h)).any.bind
  intro requires
  apply (yields_counted yields_exportEntry).any.bind
  intro exports
  apply (yields_counted takes_leb.yields.any).any.bind
  intro stars
  apply (yields_counted yields_importEntry).any.bind
  intro imports
  apply h.bind
  intro body
  cases body with
  | function bodyId f =>
    apply Yields.pure
    rintro heap hbody ⟨himportCount, himports⟩ ⟨hstarCount, hstars⟩ ⟨hexportCount, hexports⟩ ⟨hrequireCount, hrequires⟩
      hname
    obtain ⟨hfits, hwritable, hstored⟩ := stable_props hrequires
    have hf := FunctionRecord.stable_of_value hbody
    refine ⟨⟨⟨hname, fun e he => (hexports e he).1, hstars, himports⟩, hfits, hf.fits⟩,
      ⟨⟨hname.named, hrequireCount, hexportCount, fun e he => (hexports e he).2, hstarCount, himportCount,
        fun i hi => (himports i hi).name.named⟩, hwritable, hf.writable⟩, ?_⟩
    intro o' hdebug hsource
    have hexports' : exports.map (·.rename id) = exports :=
      List.map_id'' (fun e => by cases e <;> rfl) exports
    simp only [Value.stored, ModuleRecord.stored, hstored o' hdebug hsource, hf.stored o' hdebug hsource, hexports']
    simp [Import.rename]
  | _ => exact .fail

/-! ## Numbered objects -/

/-- A reader that ends with completing the object of a slot, the tag of which stands at `start`. -/
def Completes (t : AtomTable) (o : ReadOptions) (least slot start : Nat) (given : List (Nat × Value) → Prop)
    (read : Read Value) : Prop :=
  ∀ r v r'', (read.run o).run r = .ok (v, r'') → v.identity? = some start ∧
    ∃ r', Advances (r.pos + least) r r' ∧ r'' = { r' with objects := r'.objects.setIfInBounds slot (some v) } ∧
      ∀ heap, given heap → Holds heap r'.objects → heap.lookup start = some v → Fine t heap r →
        Fine t heap r' ∧ v.Stable t heap

namespace Completes

variable {slot start : Nat} {given : List (Nat × Value) → Prop}

theorem complete (hid : v.identity? = some start)
    (h : ∀ heap, given heap → heap.lookup start = some v → v.Stable t heap) :
    Completes t o 0 slot start given (Read.complete slot v) := by
  intro r v' r'' hrun
  cases hrun
  exact ⟨hid, r, .of_objects_eq rfl rfl rfl rfl le_rfl, rfl,
    fun heap hgiven _ hlookup hfine => ⟨hfine, h heap hgiven hlookup⟩⟩

theorem fail : Completes t o least slot start given (Read.fail why) :=
  fun _ _ _ hrun => absurd hrun Read.run_fail_ne_ok

theorem bind {read} {next : α → Read Value} (h : Yields t o least read ok)
    (hnext : ∀ a, Completes t o 0 slot start (fun heap => given heap ∧ ok heap a) (next a)) :
    Completes t o least slot start given (read >>= next) := by
  intro r v r'' hrun
  obtain ⟨a, r₁, ha, hv⟩ := Read.run_bind_eq_ok.mp hrun
  obtain ⟨hmoved, hok⟩ := h r a r₁ ha
  obtain ⟨hid, r', hmoved', hset, hok'⟩ := hnext a r₁ v r'' hv
  refine ⟨hid, r', hmoved.trans hmoved' (Nat.le_add_right _ _), hset, ?_⟩
  intro heap hgiven hheap hlookup hfine
  obtain ⟨hfine₁, ha'⟩ := hok heap (hmoved'.holds hheap) hfine
  exact hok' heap ⟨hgiven, ha'⟩ hheap hlookup hfine₁

end Completes

/-- An object that gets a number: behind its tag come one byte at least and what is in it. -/
theorem outcome_numbered {start} (hpos : r.pos = start + 1) {read}
    (h : ∀ slot, Completes t o 1 slot start (fun _ => True) (read slot)) :
    Outcome t o start r (Read.reserve >>= read) (fun heap v => v.Stable t heap) := by
  intro v r'' hrun
  obtain ⟨slot, r₀, hreserve, hread⟩ := Read.run_bind_eq_ok.mp hrun
  cases hreserve
  obtain ⟨hid, r', hmoved, rfl, hok⟩ := h _ _ v r'' hread
  have hsize : r.objects.size + 1 ≤ r'.objects.size := by simpa using hmoved.size
  have hbudget := hmoved.budget
  simp only [Array.size_push] at hbudget
  have hslot : r'.objects[r.objects.size]? = some none := by
    rw [hmoved.kept _ (by simp)]
    simp
  -- only the slot changes when the object is complete
  have hget : ∀ k : Nat, (r'.objects.setIfInBounds r.objects.size (some v))[k]?
      = if k = r.objects.size then some (some v) else r'.objects[k]? := by
    intro k
    rw [Array.getElem?_setIfInBounds]
    by_cases hk : k = r.objects.size
    · rw [if_pos hk.symm, if_pos (by omega), if_pos hk]
    · rw [if_neg (Ne.symm hk), if_neg hk]
  constructor
  · refine ⟨hmoved.table, hmoved.atoms, hmoved.total, ?_, ?_, ?_, ?_, ?_⟩
    · rw [Array.size_setIfInBounds]
      omega
    · rw [Array.size_setIfInBounds]
      dsimp only
      omega
    · intro k hk
      rw [hget, if_neg (Nat.ne_of_lt hk), hmoved.kept k (by simp; omega), Array.getElem?_push,
        if_neg (Nat.ne_of_lt hk)]
    · intro k w hk hw
      rw [hget] at hw
      split at hw
      · cases hw
        exact ⟨start, hid, le_rfl, by dsimp only; omega⟩
      · obtain ⟨i, hi, hlow, hhigh⟩ := hmoved.fresh k w (by simp; omega) hw
        exact ⟨i, hi, by dsimp only at hlow; omega, hhigh⟩
    · intro k k' w w' i i' hk hlt hw hw' hi hi'
      rw [hget, if_neg (by omega)] at hw'
      rw [hget] at hw
      split at hw
      · -- the tags of what is in the object stand behind its own
        cases hw
        cases hid.symm.trans hi
        obtain ⟨j, hj, hlow, -⟩ := hmoved.fresh k' w' (by simp; omega) hw'
        cases hi'.symm.trans hj
        dsimp only at hlow
        omega
      · exact hmoved.ordered k k' w w' i i' (by simp; omega) hlt hw hw' hi hi'
  · intro heap hheap hfine
    have hlookup : heap.lookup start = some v := by
      apply hheap r.objects.size v start _ hid
      rw [hget, if_pos rfl]
    have hheap' : Holds heap r'.objects := by
      intro k w i hw hi
      apply hheap k w i _ hi
      rw [hget, if_neg ?_]
      · exact hw
      · rintro rfl
        rw [hslot] at hw
        cases hw
    have hfine₀ : Fine t heap { r with objects := r.objects.push none } := by
      refine ⟨hfine.1, ?_⟩
      intro k w hw
      rw [Array.getElem?_push] at hw
      split at hw
      · cases hw
      · exact hfine.2 k w hw
    obtain ⟨hfine', hv⟩ := hok heap trivial hheap' hlookup hfine₀
    refine ⟨⟨hfine'.1, ?_⟩, hv⟩
    intro k w hw
    rw [hget] at hw
    split at hw
    · cases hw
      exact hv
    · exact hfine'.2 k w hw

theorem Yields.outcome {read} (h : Yields t o 0 read ok) {first : Nat}
    {r : ReadState} (hpos : first ≤ r.pos) : Outcome t o first r read ok := by
  intro a r' hrun
  obtain ⟨hmoved, hok⟩ := h r a r' hrun
  exact ⟨hmoved.weaken hpos, hok⟩

theorem yields_reference (start : Nat) : YieldsValue t o (Read.content value start .reference) := by
  unfold Read.content
  have hread : Yields t o 0 (read : Read ReadOptions) (fun _ _ => True) := by
    intro r a r' hrun
    cases hrun
    exact ⟨.of_objects_eq rfl rfl rfl rfl le_rfl, fun _ _ hfine => ⟨hfine, trivial⟩⟩
  apply hread.bind
  intro o'
  dsimp only
  split
  · exact nofun
  · apply takes_leb.yields.any.bind
    intro index r v r' hrun
    rw [Read.run_get_bind] at hrun
    cases hobject : r.objects[index]? with
    | none =>
      rw [hobject] at hrun
      exact absurd hrun Read.run_fail_ne_ok
    | some object =>
      cases object with
      | none =>
        rw [hobject] at hrun
        exact absurd hrun Read.run_fail_ne_ok
      | some w =>
        rw [hobject] at hrun
        cases hrun
        exact ⟨.of_objects_eq rfl rfl rfl rfl le_rfl,
          fun heap _ hfine => ⟨hfine, fun _ _ => hfine.2 index v hobject⟩⟩

theorem outcome_content (h : YieldsValue t o value) {start} (tag : Tag) {r : ReadState} (hpos : r.pos = start + 1) :
    Outcome t o start r (Read.content value start tag) (fun heap v => v.Stable t heap) := by
  have hvalues := yields_counted h
  have hprops := yields_counted (yields_property h)
  have hle : start ≤ r.pos := by omega
  cases tag with
  | null | undefined | false | true =>
    refine Yields.outcome ?_ hle
    exact Yields.pure fun heap => ⟨trivial, trivial, fun _ _ _ => rfl⟩
  | int =>
    refine Yields.outcome ?_ hle
    unfold Read.content Read.signedLeb
    simp only [bind_assoc, pure_bind]
    apply takes_leb.yields.any.bind
    intro n
    exact .pure fun heap hn => ⟨Leb128.fitsSigned_unzigzag hn, trivial, fun _ _ _ => rfl⟩
  | float =>
    refine Yields.outcome ?_ hle
    apply (takes_bytes 8).yields.bind
    intro taken
    exact .pure fun heap _ => ⟨trivial, trivial, fun _ _ _ => rfl⟩
  | string =>
    refine Yields.outcome ?_ hle
    apply takes_text.yields.bind
    intro s
    exact .pure fun heap hs => ⟨hs, trivial, fun _ _ _ => rfl⟩
  | bigInt =>
    refine Yields.outcome ?_ hle
    apply takes_leb.yields.any.bind
    intro n
    apply (takes_bytes n).yields.bind
    intro taken
    apply Yields.pure
    rintro heap rfl hn
    have hlength := length_bigIntBytes_le taken
    exact ⟨trivial, hlength.trans_lt hn, fun _ _ _ => rfl⟩
  | array =>
    apply outcome_numbered hpos
    intro slot
    apply Completes.bind hvalues
    intro items
    exact .complete rfl fun heap hitems hlookup => Value.stable_array hlookup hitems.2.1 hitems.2.2
  | object =>
    apply outcome_numbered hpos
    intro slot
    apply Completes.bind hprops
    intro props
    exact .complete rfl fun heap hprops hlookup => Value.stable_object hlookup hprops.2.1 hprops.2.2
  | template =>
    apply outcome_numbered hpos
    intro slot
    apply Completes.bind hvalues
    intro cooked
    apply Completes.bind h
    intro raw
    cases raw with
    | array id items =>
      refine .complete rfl ?_
      rintro heap ⟨⟨-, hcount, hcooked⟩, hraw⟩ hlookup
      exact Value.stable_template hlookup hcount hcooked hraw
    | _ => exact .fail
  | function =>
    refine Yields.outcome ?_ hle
    apply (yields_function h).bind
    intro f
    exact .pure fun heap hf => Value.stable_function hf
  | module =>
    refine Yields.outcome ?_ hle
    apply (yields_module h).bind
    intro m
    exact .pure fun heap hm => Value.stable_module hm
  | reference => exact (yields_reference start).outcome hle
  | bigFloat | bigDecimal | typedArray | arrayBuffer | sharedArrayBuffer | date | objectValue =>
    exact Yields.outcome .throw hle

theorem yields_value (depth : Nat) : YieldsValue t o (Read.value depth) := by
  induction depth with
  | zero => exact .fail
  | succ depth ih =>
    intro r v r'' hrun
    rw [Read.value, Read.run_get_bind] at hrun
    obtain ⟨b, r', hb, hrun⟩ := Read.run_bind_eq_ok.mp hrun
    obtain ⟨byte, rest, hrest, rfl, rfl⟩ := run_byte_eq_ok hb
    cases htag : Tag.ofByte? byte.toNat with
    | none =>
      rw [htag] at hrun
      cases hrun
    | some tag =>
      rw [htag] at hrun
      obtain ⟨hmoved, hok⟩ := outcome_content ih tag rfl v r'' hrun
      have htotal : r''.pos + r''.rest.length = r.pos + r.rest.length := by
        rw [hmoved.total, hrest, List.length_cons]
        dsimp only
        omega
      exact ⟨{ hmoved with total := htotal }, hok⟩

/-! ## Whole objects -/

/-- What a name list does to a reader. -/
theorem run_many_atomName_eq_ok {done done'} (h : ((Read.many Read.atomName n done).run o).run r = .ok (done', r')) :
    ∃ names rest pos, (∀ name ∈ names, Text.unitCount name < 0x80000000) ∧
      pos + rest.length = r.pos + r.rest.length ∧
      r' = ⟨rest, pos, (r.table.internAll names).2, r.atoms ++ (r.table.internAll names).1.toArray, r.objects⟩ := by
  induction n generalizing done r with
  | zero =>
    obtain ⟨rest, pos, table, atoms, objects⟩ := r
    cases h
    exact ⟨[], rest, pos, nofun, rfl, by simp [AtomTable.internAll]⟩
  | succ n ih =>
    obtain ⟨_, r₁, hname, hrest⟩ := Read.run_bind_eq_ok.mp h
    obtain ⟨name, r₀, htext, hset⟩ := Read.run_bind_eq_ok.mp hname
    cases hset
    obtain ⟨bytes, rest, hbytes, rfl, -, -, hcount⟩ := takes_text.run htext
    obtain ⟨names, rest', pos', hcounts, htotal, hr'⟩ := ih hrest
    refine ⟨name :: names, rest', pos', List.forall_mem_cons.mpr ⟨hcount, hcounts⟩, ?_, ?_⟩
    · simp [htotal, hbytes, Nat.add_assoc]
    · rw [hr']
      simp [AtomTable.internAll]

theorem run_head_eq_ok (h : (Read.head.run o).run r = .ok ((), r')) :
    ∃ names rest pos, (∀ name ∈ names, Text.unitCount name < 0x80000000) ∧
      pos + rest.length = r.pos + r.rest.length ∧
      r' = ⟨rest, pos, (r.table.internAll names).2, r.atoms ++ (r.table.internAll names).1.toArray, r.objects⟩ := by
  unfold Read.head at h
  obtain ⟨v, r₁, hv, h⟩ := Read.run_bind_eq_ok.mp h
  obtain ⟨bytes₁, rest₁, hbytes₁, rfl, -⟩ := takes_byte.run hv
  split at h
  · obtain ⟨_, _, hfail, -⟩ := Read.run_bind_eq_ok.mp h
    exact absurd hfail Read.run_fail_ne_ok
  · obtain ⟨n, r₂, hn, h⟩ := Read.run_bind_eq_ok.mp h
    obtain ⟨bytes₂, rest₂, hbytes₂, rfl, -⟩ := takes_leb.run hn
    obtain ⟨done, r₃, hdone, h⟩ := Read.run_bind_eq_ok.mp h
    cases h
    obtain ⟨names, rest, pos, hnames, htotal, hr'⟩ := run_many_atomName_eq_ok hdone
    refine ⟨names, rest, pos, hnames, ?_, hr'⟩
    dsimp only at hbytes₂
    simp [htotal, hbytes₁, hbytes₂, Nat.add_assoc]

theorem lookup_of_mem {i} (h : (i, v) ∈ heap) (hunique : ∀ w, (i, w) ∈ heap → w = v) : heap.lookup i = some v := by
  induction heap with
  | nil => cases h
  | cons entry heap ih =>
    obtain ⟨j, w⟩ := entry
    by_cases hj : i = j
    · subst hj
      obtain rfl := hunique w List.mem_cons_self
      exact List.lookup_cons_self
    · rw [List.lookup_cons, beq_false_of_ne hj]
      have hmem : (i, v) ∈ heap := by
        rcases List.mem_cons.mp h with heq | hmem
        · exact absurd (congrArg Prod.fst heq) hj
        · exact hmem
      exact ih hmem fun w hw => hunique w (List.mem_cons_of_mem _ hw)

/-- The complete objects, each with its identity. -/
def heapOf (objects : Objects) : List (Nat × Value) :=
  objects.toList.filterMap fun object => object.bind fun v => v.identity?.map (·, v)

theorem mem_heapOf {objects i} :
    (i, v) ∈ heapOf objects ↔ v.identity? = some i ∧ ∃ k : Nat, objects[k]? = some (some v) := by
  simp only [heapOf, List.mem_filterMap, Option.bind_eq_some_iff, Option.map_eq_some_iff, Prod.mk.injEq]
  constructor
  · rintro ⟨_, hmem, v, rfl, i, hi, rfl, rfl⟩
    obtain ⟨k, hk⟩ := List.mem_iff_getElem?.mp hmem
    exact ⟨hi, k, by simpa using hk⟩
  · rintro ⟨hi, k, hk⟩
    refine ⟨some v, List.mem_iff_getElem?.mpr ⟨k, by simpa using hk⟩, v, rfl, i, hi, rfl, rfl⟩

/-- Every object has a tag of its own, so that the complete ones make a heap. -/
theorem Advances.holds_heapOf (h : Advances first r r') (hstart : r.objects = #[]) :
    Holds (heapOf r'.objects) r'.objects := by
  intro k v i hv hi
  apply lookup_of_mem (mem_heapOf.mpr ⟨hi, k, hv⟩)
  intro w hw
  obtain ⟨hi', k', hw⟩ := mem_heapOf.mp hw
  have hsize : r.objects.size = 0 := by rw [hstart]; rfl
  rcases Nat.lt_trichotomy k k' with hlt | rfl | hlt
  · exact absurd (h.ordered k k' v w i i (by omega) hlt hv hw hi hi') (lt_irrefl i)
  · rw [hv, Option.some.injEq, Option.some.injEq] at hw
    exact hw.symm
  · exact absurd (h.ordered k' k w v i i (by omega) hlt hw hv hi' hi) (lt_irrefl i)

/-- What is read can be written, and is stored as it is. -/
theorem decode_stable {t'} (ht : t.Sound) {bytes} (h : decode bytes t o = .ok (v, t'))
    (hsize : t'.entries.size ≤ 0x100000000) : t'.Sound ∧ ∃ heap, 2 * heap.length ≤ bytes.length ∧ v.Stable t' heap := by
  obtain ⟨s, hscan, hrest, rfl⟩ := decode_eq_ok_iff.mp h
  obtain ⟨_, r, hhead, hvalue⟩ := Read.run_bind_eq_ok.mp hscan
  obtain ⟨names, rest, pos, hnames, htotal, rfl⟩ := run_head_eq_ok hhead
  obtain ⟨hmoved, hok⟩ := yields_value (t := (t.internAll names).2) _ _ v s hvalue
  have htable : s.table = (t.internAll names).2 := hmoved.table
  have hlength : pos + rest.length = bytes.length := by simpa using htotal
  rw [htable] at hsize ⊢
  refine ⟨ht.internAll names, heapOf s.objects, ?_, ?_⟩
  · have hbudget := hmoved.budget
    have htotal' := hmoved.total
    have hcount : (heapOf s.objects).length ≤ s.objects.toList.length := List.length_filterMap_le ..
    rw [hrest] at htotal'
    simp only [Array.length_toList, List.length_nil, List.size_toArray] at hcount hbudget htotal'
    omega
  · have hfine : Fine (t.internAll names).2 (heapOf s.objects)
        ⟨rest, pos, (t.internAll names).2, #[] ++ (t.internAll names).1.toArray, #[]⟩ := by
      refine ⟨?_, fun k w hw => by simp at hw⟩
      intro a ha
      exact ht.storable_internAll hnames hsize a (by simpa using ha)
    exact (hok _ (hmoved.holds_heapOf rfl) hfine).2

end Object

end ScriptBytecode
