import ScriptBytecode.Proofs.ObjectReading
import ScriptBytecode.Proofs.ObjectValues
import ScriptBytecode.Proofs.ObjectWriting

/-!
# Name lists

Behind the name list of an object, the reader has the atom of each name in its own table. With that, whole objects are
read back.
-/

namespace ScriptBytecode

variable {names : List String}

/-- The atoms of names, and the table with all of them. -/
def AtomTable.internAll (t : AtomTable) : List String → List Atom × AtomTable
  | [] => ([], t)
  | name :: names =>
    (((t.intern name).1 :: ((t.intern name).2.internAll names).1), ((t.intern name).2.internAll names).2)

theorem AtomTable.length_internAll (t : AtomTable) (names : List String) :
    (t.internAll names).1.length = names.length := by
  induction names generalizing t with
  | nil => rfl
  | cons name names ih => simp [internAll, ih]

variable {t : AtomTable}

theorem AtomTable.Reachable.internAll (h : t.Reachable) (names : List String) : (t.internAll names).2.Reachable := by
  induction names generalizing t with
  | nil => exact h
  | cons name names ih => exact ih (.intern h name)

variable {a : Atom}

theorem Atom.Storable.intern (h : a.Storable t) (ht : t.Sound) (name : String) : a.Storable (t.intern name).2 :=
  h.imp_right (·.imp_right fun ⟨known, hknows, hlt⟩ => ⟨known, hknows.intern ht name, hlt⟩)

/-- The atom of a name that a name list can hold can be stored. -/
theorem AtomTable.Sound.storable_intern (ht : t.Sound) {name} (hname : Text.unitCount name < 0x80000000)
    (hsize : (t.intern name).2.entries.size ≤ 0x100000000) : (t.intern name).1.Storable (t.intern name).2 := by
  rcases ht.entry?_intern name with hindex | ⟨e, hentry, hkind, rfl⟩
  · exact .inl ⟨hindex, (ht.covers_intern name).id_lt hsize⟩
  · cases hpredefined : (t.intern e.name).1.isPredefined with
    | true => exact .inr (.inl hpredefined)
    | false =>
      have hdynamic : Atom.firstDynamic ≤ (t.intern e.name).1.id := by simpa [Atom.isPredefined] using hpredefined
      exact .inr (.inr ⟨e.name, ⟨hdynamic, e, hentry, hkind, rfl⟩, hname⟩)

/-! ## Atoms of a whole list -/

theorem AtomTable.Sound.internAll (h : t.Sound) (names : List String) : (t.internAll names).2.Sound := by
  induction names generalizing t with
  | nil => exact h
  | cons name names ih => exact ih (h.intern name)

theorem AtomTable.Sound.size_internAll (h : t.Sound) (names : List String) :
    t.entries.size ≤ (t.internAll names).2.entries.size ∧
      (t.internAll names).2.entries.size ≤ t.entries.size + names.length := by
  induction names generalizing t with
  | nil => exact ⟨le_rfl, le_rfl⟩
  | cons name names ih =>
    have hfirst := (h.grows_intern name).size
    have hrest := ih (h.intern name)
    rw [List.length_cons]
    exact ⟨hfirst.1.trans hrest.1, hrest.2.trans (by omega)⟩

theorem Atom.Storable.internAll (h : a.Storable t) (ht : t.Sound) (names : List String) :
    a.Storable (t.internAll names).2 := by
  induction names generalizing t with
  | nil => exact h
  | cons name names ih => exact ih (h.intern ht name) (ht.intern name)

theorem AtomTable.Knows.internAll {known} (h : t.Knows a known) (ht : t.Sound) (names : List String) :
    (t.internAll names).2.Knows a known := by
  induction names generalizing t with
  | nil => exact h
  | cons name names ih => exact ih (h.intern ht name) (ht.intern name)

/-- The names of dynamic atoms are known once they are interned. -/
theorem AtomTable.Sound.knows_internAll (ht : t.Sound) (hdynamic : ∀ a ∈ (t.internAll names).1, a.isStatic = false) :
    List.Forall₂ (t.internAll names).2.Knows (t.internAll names).1 names := by
  induction names generalizing t with
  | nil => exact .nil
  | cons name names ih =>
    rw [AtomTable.internAll, List.forall_mem_cons] at hdynamic
    obtain ⟨hfirst, hrest⟩ := hdynamic
    refine .cons ?_ (ih (ht.intern name) hrest)
    apply Knows.internAll _ (ht.intern name)
    rw [Atom.isStatic, Bool.or_eq_false_iff] at hfirst
    rcases ht.entry?_intern name with hindex | ⟨e, hentry, hkind, hname⟩
    · rw [hfirst.1] at hindex
      cases hindex
    · exact ⟨by simpa [Atom.isPredefined] using hfirst.2, e, hentry, hkind, hname⟩

/-- What is interned can be stored, as long as handles have 32 bits. -/
theorem AtomTable.Sound.storable_internAll (ht : t.Sound) (hnames : ∀ name ∈ names, Text.unitCount name < 0x80000000)
    (hsize : (t.internAll names).2.entries.size ≤ 0x100000000) :
    ∀ a ∈ (t.internAll names).1, a.Storable (t.internAll names).2 := by
  induction names generalizing t with
  | nil => exact nofun
  | cons name names ih =>
    rw [List.forall_mem_cons] at hnames
    have hsound := ht.intern name
    intro a ha
    rcases List.mem_cons.mp ha with rfl | ha
    · have hfirst := Nat.le_trans (hsound.size_internAll names).1 hsize
      exact (ht.storable_intern hnames.1 hfirst).internAll hsound names
    · exact ih hsound hnames.2 hsize a ha

namespace Object

variable {p : Passage}

/-- Each name is interned, one after the other. -/
theorem run_many_atomName (o : ReadOptions) (hnames : ∀ name ∈ names, Text.unitCount name < 0x80000000)
    (t : AtomTable) (rest : Bytes) (pos : Nat) (before : Array Atom) (objects : Objects) (done : Array Unit) :
    ∃ done', ((Read.many Read.atomName names.length done).run o).run
        ⟨names.flatMap Text.store ++ rest, pos, t, before, objects⟩
      = .ok (done', ⟨rest, pos + (names.flatMap Text.store).length, (t.internAll names).2,
        before ++ (t.internAll names).1.toArray, objects⟩) := by
  induction names generalizing t pos before done with
  | nil => exact ⟨done, by simp [Read.many, AtomTable.internAll]; rfl⟩
  | cons name names ih =>
    rw [List.forall_mem_cons] at hnames
    have htext := parses_text hnames.1 o (names.flatMap Text.store ++ rest) pos t before objects
    obtain ⟨done', hrun⟩ := ih hnames.2 (t.intern name).2 (pos + (Text.store name).length)
      (before.push (t.intern name).1) (done.push ())
    refine ⟨done', ?_⟩
    rw [List.length_cons, Read.many, List.flatMap_cons, List.append_assoc, ReaderT.run_bind, StateT.run_bind]
    have hfirst : (Read.atomName.run o).run ⟨Text.store name ++ (names.flatMap Text.store ++ rest), pos, t, before,
        objects⟩ = .ok ((), ⟨names.flatMap Text.store ++ rest, pos + (Text.store name).length, (t.intern name).2,
          before.push (t.intern name).1, objects⟩) := by
      simp [Read.atomName, htext]
    rw [hfirst, ok_bind, hrun]
    simp [AtomTable.internAll, Nat.add_assoc]

theorem run_head (o : ReadOptions) (hcount : names.length < 0x100000000)
    (hnames : ∀ name ∈ names, Text.unitCount name < 0x80000000) (t : AtomTable) (body : Bytes) :
    ∃ pos, (Read.head.run o).run ⟨version.toUInt8 :: Leb128.write names.length
        ++ names.flatMap Text.store ++ body, 0, t, #[], #[]⟩
      = .ok ((), ⟨body, pos, (t.internAll names).2, (t.internAll names).1.toArray, #[]⟩) := by
  obtain ⟨done, hrun⟩ := run_many_atomName o hnames t body
    (0 + 1 + (Leb128.write names.length).length) #[] #[] #[]
  refine ⟨0 + 1 + (Leb128.write names.length).length + (names.flatMap Text.store).length, ?_⟩
  have hversion := parses_toUInt8 (n := version) (by decide) o
    (Leb128.write names.length ++ (names.flatMap Text.store ++ body)) 0 t #[] #[]
  have hleb := parses_leb hcount o (names.flatMap Text.store ++ body) (0 + 1) t #[] #[]
  rw [show version.toUInt8 :: Leb128.write names.length ++ names.flatMap Text.store ++ body
    = [version.toUInt8] ++ (Leb128.write names.length ++ (names.flatMap Text.store ++ body)) by simp]
  unfold Read.head
  rw [ReaderT.run_bind, StateT.run_bind, hversion, ok_bind]
  simp only [ne_eq, not_true_eq_false, if_false, List.length_singleton]
  rw [ReaderT.run_bind, StateT.run_bind, hleb, ok_bind, ReaderT.run_bind, StateT.run_bind, hrun, ok_bind,
    Array.empty_append]
  rfl

/-- The state of a writer at the start. -/
theorem sound_start : Sound p 0 ⟨#[], [], 0⟩ where
  nodup := List.nodup_nil
  admitted := nofun
  listed := nofun
  budget := fun _ => ⟨List.nodup_nil, nofun, le_rfl⟩

theorem tracks_start (pos : Nat) : Tracks p [] ⟨#[], [], 0⟩ pos #[] [] where
  size := rfl
  below := nofun
  inj := nofun
  complete := nofun
  met := nofun
  paired := nofun

/-- A writer that has written a whole value. -/
structure Written (p : Passage) (v : Value) (bytes : Bytes) (s : WriteState) (names : List String) : Prop where
  fits : v.Fits p.Admits p.heap
  run : ∃ body, ((Write.value v).run p.env).run ⟨#[], [], 0⟩ = .ok (body, s) ∧
    bytes = version.toUInt8 :: Leb128.write names.length ++ names.flatMap Text.store ++ body
  names : List.Forall₂ (fun a name => p.env.table.name? a = some name) s.atoms.toList names

theorem exists_written {v : Value} {bytes} (hfits : v.Fits p.Admits p.heap)
    (h : encode v p.env.table p.env.options = .ok bytes) : ∃ s names, Written p v bytes s names := by
  obtain ⟨body, s, names, hrun, hnames, hbytes⟩ := encode_eq_ok_iff.mp h
  exact ⟨s, names, hfits, ⟨body, hrun, hbytes⟩, hnames⟩

namespace Written

variable {v : Value} {bytes : Bytes} {s : WriteState} {names : List String} (h : Written p v bytes s names)

include h

theorem sound : Sound p 0 s := by
  obtain ⟨body, hrun, -⟩ := h.run
  obtain ⟨-, -, hs, -⟩ := value_readsBack v [] 0 h.fits nofun _ _ _ hrun sound_start
  exact hs

theorem unitCount_lt : ∀ name ∈ names, Text.unitCount name < 0x80000000 := by
  intro name hname
  obtain ⟨a, ha, hsome⟩ := exists_left_of_forall₂ h.names hname
  have hlisted := h.sound.listed a ha
  have hindex : a.index? = none := by
    have := (id_lt_of_listed hlisted).2
    unfold Atom.index? Atom.isIndex
    rw [if_neg (by simpa using this)]
  obtain ⟨-, e, hentry, hlt⟩ := hlisted
  rw [AtomTable.name?, hindex, hentry] at hsome
  cases hsome
  exact hlt

/-- If the reader's atoms for the names are the new ones, it reads a copy of the value. -/
theorem decode {t : AtomTable} (hatoms : s.atoms.toList.map p.rename = (t.internAll names).1) :
    ∃ w links, decode bytes t p.options = .ok (w, (t.internAll names).2) ∧
      (∀ I, Links.Within links I → (p.copy v).Mirrors I w) ∧
      (p.env.options.allowReference → ∀ link ∈ links, ∀ link' ∈ links,
        (link.1 = link'.1 ↔ link.2 = link'.2)) := by
  obtain ⟨body, hrun, rfl⟩ := h.run
  have hcount : names.length < 0x100000000 := by
    have hsize := h.sound.length_atoms_le
    have hlength := h.names.length_eq
    rw [Array.length_toList] at hlength
    have : Atom.firstDynamic + 0x80000000 > Atom.indexTag := by decide
    omega
  obtain ⟨pos, hhead⟩ := run_head p.options hcount h.unitCount_lt t body
  obtain ⟨new, hnew, -, -, hread⟩ := value_readsBack v [] 0 h.fits nofun _ _ _ hrun sound_start
  rw [List.nil_append] at hnew
  subst hnew
  obtain ⟨w, objects, links, hgives, -, hmirrors, htracks⟩ := hread (t.internAll names).1.toArray
    (by simp [hatoms]) pos #[] []
    ((version.toUInt8 :: Leb128.write names.length ++ names.flatMap Text.store ++ body).length + 1)
    (tracks_start pos) (by simp; omega)
  refine ⟨w, links, ?_, hmirrors, htracks.paired⟩
  have hbody := hgives [] (t.internAll names).2
  rw [List.append_nil] at hbody
  have hscan : scan p.options t (version.toUInt8 :: Leb128.write names.length ++ names.flatMap Text.store ++ body)
      = .ok (w, ⟨[], pos + body.length, (t.internAll names).2, (t.internAll names).1.toArray, objects⟩) := by
    unfold scan
    rw [ReaderT.run_bind, StateT.run_bind, hhead, ok_bind]
    exact hbody
  exact decode_eq_ok_iff.mpr ⟨_, hscan, rfl, rfl⟩

end Written

/-- A name list can be read as any atoms, if those that stand for themselves are not in it. -/
theorem exists_rename {atoms targets : List Atom} (hnodup : atoms.Nodup) (hlength : atoms.length = targets.length)
    (hdynamic : ∀ a ∈ atoms, a.isStatic = false) :
    ∃ ρ : Atom → Atom, (∀ a, a.isStatic → ρ a = a) ∧ atoms.map ρ = targets := by
  induction atoms generalizing targets with
  | nil => exact ⟨id, fun _ _ => rfl, (List.length_eq_zero_iff.mp hlength.symm).symm⟩
  | cons a atoms ih =>
    obtain ⟨b, targets, rfl⟩ := List.exists_cons_of_length_eq_add_one hlength.symm
    rw [List.forall_mem_cons] at hdynamic
    obtain ⟨hnot, hnodup⟩ := List.nodup_cons.mp hnodup
    obtain ⟨ρ, hkeeps, hmap⟩ := ih hnodup (Nat.succ.inj hlength) hdynamic.2
    refine ⟨fun c => if c = a then b else ρ c, ?_, ?_⟩
    · intro c hc
      have hne : c ≠ a := by
        rintro rfl
        rw [hdynamic.1] at hc
        cases hc
      exact (if_neg hne).trans (hkeeps c hc)
    · have hrest : atoms.map (fun c => if c = a then b else ρ c) = atoms.map ρ := by
        apply List.map_congr_left
        intro c hc
        apply if_neg
        rintro rfl
        exact hnot hc
      rw [List.map_cons, hrest, hmap, if_pos rfl]

end Object

end ScriptBytecode
