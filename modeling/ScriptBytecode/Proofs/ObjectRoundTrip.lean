import ScriptBytecode.Proofs.ObjectNames

/-!
# Objects, read back

A value that the object format can hold is written, and what is written is read back as the same value,
without the debug information that was stripped.
-/

namespace ScriptBytecode

open Object (WriteOptions recode recode_id)

variable {t : AtomTable}

/-! ## Values that can be stored -/

variable {a : Atom}

theorem Atom.Storable.fits (h : a.Storable t) : a.Fits t := by
  rcases h with ⟨hindex, hlt⟩ | hpredefined | ⟨name, hknows, hlt⟩
  · refine ⟨hlt, fun _ e he => ?_⟩
    rw [ AtomTable.entry?, if_pos hindex] at he
    cases he
  · refine ⟨?_, fun h => absurd hpredefined (by simp [h])⟩
    have hid : a.id < Atom.firstDynamic := by simpa [Atom.isPredefined] using hpredefined
    have hdynamic : Atom.firstDynamic = 210 := rfl
    omega
  · obtain ⟨-, e, hentry, -, rfl⟩ := hknows
    constructor
    · have hlt := AtomTable.entry?_lt hentry
      have htag : Atom.indexTag = 0x80000000 := rfl
      omega
    · intro _ e' he'
      rw [hentry] at he'
      cases he'
      exact hlt

theorem Atom.Storable.named (h : a.Storable t) : a.Named t := by
  rcases h with ⟨hindex, -⟩ | hpredefined | ⟨name, ⟨-, e, hentry, -⟩, -⟩
  · exact .inr (by simp [AtomTable.has, hindex])
  · exact .inl hpredefined
  · exact .inr (by simp [AtomTable.has, hentry])

theorem FunctionRecord.HeadStorable.fits {f : FunctionRecord} (h : f.HeadStorable t) :
    f.HeadFits (Atom.Storable t) where
  name := h.name
  mode := h.mode
  argCount := h.argCount
  varCount := h.varCount
  definedArgCount := h.definedArgCount
  stackSize := h.stackSize
  slotVars := fun v hv => ⟨(h.slotVars v hv).name, (h.slotVars v hv).level, (h.slotVars v hv).next⟩
  closureVars := fun v hv => ⟨(h.closureVars v hv).name, (h.closureVars v hv).index⟩
  code := by
    obtain ⟨instrs, hdecode, hatoms⟩ := h.code
    intro instrs' hdecode'
    rw [hdecode] at hdecode'
    cases hdecode'
    exact hatoms
  debug := fun d hd => ⟨(h.debug d hd).filename, (h.debug d hd).line⟩

theorem FunctionRecord.HeadStorable.writable {f : FunctionRecord} (h : f.HeadStorable t) : f.HeadWritable t where
  name := h.name.named
  slots := h.slots
  slotCount := by
    have := h.argCount
    have := h.varCount
    omega
  slotVars := fun v hv => (h.slotVars v hv).name.named
  closureCount := h.closureCount.trans (by decide)
  closureVars := fun v hv => (h.closureVars v hv).name.named
  codeSize := h.codeSize.trans (by decide)
  code := by
    obtain ⟨instrs, hdecode, hatoms⟩ := h.code
    exact ⟨instrs, hdecode, fun site hsite => (hatoms site hsite).named⟩
  debug := fun d hd => ⟨(h.debug d hd).filename.named, Nat.lt_trans (h.debug d hd).lines (by decide),
    fun s hs => Nat.lt_trans ((h.debug d hd).source s hs).2 (by decide)⟩
  constantCount := h.constantCount.trans (by decide)

theorem Export.Storable.fits {e : Export} (h : e.Storable t) : e.Fits (Atom.Storable t) := by
  cases e <;> exact h

theorem Export.Storable.writable {e : Export} (h : e.Storable t) : e.Writable t := by
  cases e with
  | ofLocal => exact h.2.named
  | ofModule => exact ⟨h.2.1.named, h.2.2.named⟩

theorem ModuleRecord.HeadStorable.fits {m : ModuleRecord} (h : m.HeadStorable t) : m.HeadFits (Atom.Storable t) where
  name := h.name
  exports := fun e he => (h.exports e he).fits
  stars := h.stars
  imports := fun i hi => ⟨(h.imports i hi).varIdx, (h.imports i hi).name, (h.imports i hi).reqModule⟩

theorem ModuleRecord.HeadStorable.writable {m : ModuleRecord} (h : m.HeadStorable t) : m.HeadWritable t where
  name := h.name.named
  requireCount := h.requireCount.trans (by decide)
  exportCount := h.exportCount.trans (by decide)
  exports := fun e he => (h.exports e he).writable
  starCount := h.starCount.trans (by decide)
  importCount := h.importCount.trans (by decide)
  imports := fun i hi => (h.imports i hi).name.named

section

variable {t : AtomTable} {heap : List (Nat × Value)}

mutual

theorem Value.Storable.split : (v : Value) → v.Storable t heap → v.Fits (Atom.Storable t) heap ∧ v.Writable t
  | .null, _ | .undefined, _ | .bool _, _ | .float _, _ => ⟨trivial, trivial⟩
  | .int _, h => ⟨h, trivial⟩
  | .string _, h => ⟨h, trivial⟩
  | .bigint _, h => ⟨trivial, h.trans (by decide)⟩
  | .array _ items, ⟨hid, hcount, hitems⟩ =>
    have hall := storableAll_split items hitems
    ⟨⟨hid, hall.1⟩, hcount.trans (by decide), hall.2⟩
  | .object _ props, ⟨hid, hcount, hprops⟩ =>
    have hall := storableProps_split props hprops
    ⟨⟨hid, hall.1⟩, hcount.trans (by decide), hall.2⟩
  | .template _ cooked raw, ⟨hid, hcookedCount, hcooked, hrawCount, hraw⟩ =>
    have hfirst := storableAll_split cooked hcooked
    have hsecond := storableAll_split raw hraw
    ⟨⟨hid, hfirst.1, hsecond.1⟩, hcookedCount.trans (by decide), hfirst.2,
      hrawCount.trans (by decide), hsecond.2⟩
  | .function _ f, h => FunctionRecord.Storable.split f h
  | .module _ m, h => ModuleRecord.Storable.split m h

theorem storableAll_split : (vs : List Value) → storableAll t heap vs →
    fitsAll (Atom.Storable t) heap vs ∧ writableAll t vs
  | [], _ => ⟨trivial, trivial⟩
  | v :: rest, ⟨hv, hrest⟩ =>
    have hfirst := Value.Storable.split v hv
    have hall := storableAll_split rest hrest
    ⟨⟨hfirst.1, hall.1⟩, hfirst.2, hall.2⟩

theorem storableProps_split : (ps : List Property) → storableProps t heap ps →
    fitsProps (Atom.Storable t) heap ps ∧ writableProps t ps
  | [], _ => ⟨trivial, trivial⟩
  | ⟨_, v⟩ :: rest, ⟨hkey, hv, hrest⟩ =>
    have hfirst := Value.Storable.split v hv
    have hall := storableProps_split rest hrest
    ⟨⟨hkey, hfirst.1, hall.1⟩, hkey.named, hfirst.2, hall.2⟩

theorem FunctionRecord.Storable.split : (f : FunctionRecord) → f.Storable t heap →
    f.Fits (Atom.Storable t) heap ∧ f.Writable t
  | ⟨_, _, _, _, _, _, _, _, _, _, _, _, constants, _⟩, ⟨hhead, hconstants⟩ =>
    have hall := storableAll_split constants hconstants
    ⟨⟨hhead.fits, hall.1⟩, hhead.writable, hall.2⟩

theorem ModuleRecord.Storable.split : (m : ModuleRecord) → m.Storable t heap →
    m.Fits (Atom.Storable t) heap ∧ m.Writable t
  | ⟨_, requires, _, _, _, body⟩, ⟨hhead, hrequires, hbody⟩ =>
    have hall := storableProps_split requires hrequires
    have hfunction := FunctionRecord.Storable.split body hbody
    ⟨⟨hhead.fits, hall.1, hfunction.1⟩, hhead.writable, hall.2, hfunction.2⟩

end

/-! With all atoms as they were, what is stored of a value is what stripping leaves of it, but for the caches. -/

theorem DebugInfo.Storable.stored_id {o} {d : DebugInfo} (h : d.Storable t) : d.stored o id = d.strip o := by
  obtain ⟨filename, line, lines, source⟩ := d
  have hsource : source.filter (!·.isEmpty) = source := by
    cases hs : source with
    | none => rfl
    | some s =>
      have hne := (h.source s hs).1
      simp [Option.filter, hne]
  simp [DebugInfo.stored, DebugInfo.strip, hsource]

variable {o : WriteOptions}

mutual

theorem Value.same_stored_id : (v : Value) → v.Storable t heap → ∀ w : Value,
    w.same (v.stored o id) = w.same (v.strip o)
  | .null, _, _ | .undefined, _, _ | .bool _, _, _ | .int _, _, _ | .float _, _, _ | .string _, _, _
  | .bigint _, _, _ => rfl
  | .array _ items, h, w => by
    cases w with
    | array _ ws => exact sameAll_stored_id items h.2.2 ws
    | _ => rfl
  | .object _ props, h, w => by
    cases w with
    | object _ ws => exact sameProps_stored_id props h.2.2 ws
    | _ => rfl
  | .template _ cooked raw, h, w => by
    cases w with
    | template _ ws ws' =>
      exact congrArg₂ and (sameAll_stored_id cooked h.2.2.1 ws) (sameAll_stored_id raw h.2.2.2.2 ws')
    | _ => rfl
  | .function _ f, h, w => by
    cases w with
    | function _ g => exact FunctionRecord.same_stored_id f h g
    | _ => rfl
  | .module _ m, h, w => by
    cases w with
    | module _ n => exact ModuleRecord.same_stored_id m h n
    | _ => rfl

theorem sameAll_stored_id : (vs : List Value) → storableAll t heap vs → ∀ ws : List Value,
    sameAll ws (storedAll o id vs) = sameAll ws (stripAll o vs)
  | [], _, _ => rfl
  | v :: rest, h, ws => by
    cases ws with
    | nil => rfl
    | cons w ws => exact congrArg₂ and (Value.same_stored_id v h.1 w) (sameAll_stored_id rest h.2 ws)

theorem sameProps_stored_id : (ps : List Property) → storableProps t heap ps → ∀ qs : List Property,
    sameProps qs (storedProps o id ps) = sameProps qs (stripProps o ps)
  | [], _, _ => rfl
  | ⟨key, v⟩ :: rest, h, qs => by
    cases qs with
    | nil => rfl
    | cons q qs =>
      obtain ⟨l, w⟩ := q
      exact congrArg₂ and (congrArg (l == key && ·) (Value.same_stored_id v h.2.1 w))
        (sameProps_stored_id rest h.2.2 qs)

theorem FunctionRecord.same_stored_id : (f : FunctionRecord) → f.Storable t heap → ∀ g : FunctionRecord,
    g.same (f.stored o id) = g.same (f.strip o)
  | ⟨name, flags, kind, mode, args, vars, defined, stack, slotVars, closure, code, debug, constants, cache⟩, h, g => by
    obtain ⟨hhead, hconstants⟩ := h
    have hall := sameAll_stored_id constants hconstants g.constants
    have hflag : (o.shown debug).isSome = (!o.stripDebug && flags.hasDebug) := by
      rw [show flags.hasDebug = debug.isSome from hhead.hasDebug]
      unfold WriteOptions.shown
      cases o.stripDebug <;> simp
    have hinfo : (o.shown debug).map (·.stored o id) = o.debug debug := by
      unfold WriteOptions.shown WriteOptions.debug
      cases o.stripDebug with
      | true => rfl
      | false =>
        cases debug with
        | none => rfl
        | some d => simp [(hhead.debug d rfl).stored_id]
    obtain ⟨_, _, _, _, _, _, _, _, _, _, _, _, constants', _⟩ := g
    simp only at hall
    have hcode : recode (fun a => a.id) code = code := recode_id code
    simp [FunctionRecord.stored, FunctionRecord.strip, FunctionRecord.same, hflag, hinfo, hall, hcode, Variable.rename,
      ClosureVar.rename]

theorem ModuleRecord.same_stored_id : (m : ModuleRecord) → m.Storable t heap → ∀ n : ModuleRecord,
    n.same (m.stored o id) = n.same (m.strip o)
  | ⟨name, requires, exports, stars, imports, body⟩, h, n => by
    obtain ⟨-, hrequires, hbody⟩ := h
    have hall := sameProps_stored_id requires hrequires n.requires
    have hfunction := FunctionRecord.same_stored_id body hbody n.body
    obtain ⟨_, _, _, _, _, _⟩ := n
    simp only at hall hfunction
    have hexports : exports.map (·.rename id) = exports :=
      List.map_id'' (fun e => by cases e <;> rfl) exports
    simp [ModuleRecord.stored, ModuleRecord.strip, ModuleRecord.same, hall, hfunction, hexports, Import.rename]

end

end

namespace Object

/-! ## Into the same table -/

/-- The names of atoms that the table knows lead back to them. -/
theorem internAll_of_knows (ht : t.Sound) {atoms names} (h : List.Forall₂ t.Knows atoms names) :
    (t.internAll names).1 = atoms := by
  induction names generalizing atoms t with
  | nil => exact (List.forall₂_nil_right_iff.mp h).symm
  | cons name names ih =>
    obtain ⟨a, atoms, hknows, hrest, rfl⟩ := List.forall₂_cons_right_iff.mp h
    have hintern := ht.intern_of_knows hknows
    have hkept : List.Forall₂ (t.retain a).Knows atoms names := hrest.imp fun b name hb => hb.grows (ht.grows_retain a)
    have hatoms := ih (ht.retain a) hkept
    rw [AtomTable.internAll, hintern, hatoms]

theorem knows_of_storable {name} (h : a.Storable t) (hlisted : a.Listed t) (hname : t.name? a = some name) :
    t.Knows a name := by
  have hrange := id_lt_of_listed hlisted
  rcases h with ⟨hindex, -⟩ | hpredefined | ⟨name', hknows, -⟩
  · have hlt : Atom.indexTag ≤ a.id := by simpa [Atom.isIndex] using hindex
    omega
  · rw [hlisted.1] at hpredefined
    cases hpredefined
  · have hindex : a.index? = none := by
      unfold Atom.index? Atom.isIndex
      rw [if_neg (by simpa using hrange.2)]
    obtain ⟨hdynamic, e, hentry, hkind, rfl⟩ := hknows
    rw [AtomTable.name?, hindex, hentry] at hname
    cases hname
    exact ⟨hdynamic, e, hentry, hkind, rfl⟩

/-- The writer's table knows the names of the atoms that it has numbered. -/
theorem Written.knows {p v bytes s names} (h : Written p v bytes s names)
    (hadmits : ∀ a, p.Admits a → a.Storable p.env.table) : List.Forall₂ p.env.table.Knows s.atoms.toList names := by
  have hsound := h.sound
  refine List.forall₂_iff_zip.mpr ⟨h.names.length_eq, ?_⟩
  intro a name hmem
  have ha := (List.of_mem_zip hmem).1
  exact knows_of_storable (hadmits a (hsound.admitted a ha)) (hsound.listed a ha)
    ((List.forall₂_iff_zip.mp h.names).2 hmem)

/-- Into the table of the writer, with references if it has used any. -/
def Passage.back (t : AtomTable) (o : WriteOptions) (heap : List (Nat × Value))
    (hheap : o.allowReference = true → heap.length < 0x80000000) (ro : ReadOptions)
    (hallow : o.allowReference = true → ro.allowReference = true) : Passage where
  env := ⟨t, o⟩
  Admits := Atom.Storable t
  heap := heap
  rename := id
  options := ro
  fits := fun _ => Atom.Storable.fits
  keeps := fun _ _ => rfl
  allows := hallow
  small := hheap

end Object

end ScriptBytecode
