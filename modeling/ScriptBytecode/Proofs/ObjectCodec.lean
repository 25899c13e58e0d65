import ScriptBytecode.Object.Reader
import ScriptBytecode.Proofs.ObjectCopies
import ScriptBytecode.Proofs.Text

/-!
# Writing and reading in step

`ReadsBack` says that what a writer adds to the bytes is read back by a reader, whatever was written
before and comes after. It is put together piece by piece, in the order of the bytes.
-/

namespace ScriptBytecode.Object

variable {bytes : Bytes} {s s' : WriteState} {o : ReadOptions} {pos n : Nat} {env : WriteEnv} {atoms : Array Atom}

/-- The objects that a reader has numbered. -/
abbrev Objects := Array (Option Value)

/-- Behind the name list, a reader takes `bytes` and gives `a`; `objects` become `objects'`. -/
def Gives {α : Type} (o : ReadOptions) (atoms : Array Atom) (read : Read α) (pos : Nat)
    (objects : Objects) (bytes : Bytes) (a : α) (objects' : Objects) : Prop :=
  ∀ rest table, (read.run o).run ⟨bytes ++ rest, pos, table, atoms, objects⟩
    = .ok (a, ⟨rest, pos + bytes.length, table, atoms, objects'⟩)

/-- A reader takes `bytes` and gives `a`, without a look at what was read before. -/
def Parses {α : Type} (read : Read α) (bytes : Bytes) (a : α) : Prop :=
  ∀ o rest pos table atoms objects, (read.run o).run ⟨bytes ++ rest, pos, table, atoms, objects⟩
    = .ok (a, ⟨rest, pos + bytes.length, table, atoms, objects⟩)

theorem Parses.gives {α : Type} {read : Read α} {a : α} (h : Parses read bytes a) (o : ReadOptions)
    (atoms : Array Atom) (pos : Nat) (objects : Objects) :
    Gives o atoms read pos objects bytes a objects :=
  fun rest table => h o rest pos table atoms objects

variable {α β : Type} {next : α → Read β} {objects : Objects}

theorem gives_pure (a : α) : Gives o atoms (pure a) pos objects [] a objects :=
  fun _ _ => rfl

theorem Gives.bind {read} {objects' objects'' bytes' a b} (h : Gives o atoms read pos objects bytes a objects')
    (hnext : Gives o atoms (next a) (pos + bytes.length) objects' bytes' b objects'') :
    Gives o atoms (read >>= next) pos objects (bytes ++ bytes') b objects'' := by
  intro rest table
  have hfirst := h (bytes' ++ rest) table
  have hsecond := hnext rest table
  rw [List.append_assoc, ReaderT.run_bind, StateT.run_bind, hfirst, List.length_append,
    ← Nat.add_assoc, ← hsecond]
  rfl

theorem Gives.bind_nil {read} {objects' objects'' a b} (h : Gives o atoms read pos objects bytes a objects')
    (hnext : Gives o atoms (next a) (pos + bytes.length) objects' [] b objects'') :
    Gives o atoms (read >>= next) pos objects bytes b objects'' := by
  have hbind := h.bind hnext
  rwa [List.append_nil] at hbind

theorem Parses.bind {read} {bytes' a b} (h : Parses read bytes a)
    (hnext : Parses (next a) bytes' b) : Parses (read >>= next) (bytes ++ bytes') b :=
  fun o rest pos table atoms objects =>
    (h.gives o atoms pos objects).bind (hnext.gives o atoms _ objects) rest table

theorem Parses.bind_nil {read} {a b} (h : Parses read bytes a)
    (hnext : Parses (next a) [] b) : Parses (read >>= next) bytes b := by
  have hbind := h.bind hnext
  rwa [List.append_nil] at hbind

theorem parses_pure (a : α) : Parses (pure a) [] a :=
  fun _ _ _ _ _ _ => rfl

/-! ## Single fields -/

section

variable (o : ReadOptions)

@[simp] theorem Read.run_get (r : ReadState) : ((get : Read ReadState).run o).run r = .ok (r, r) := rfl

@[simp] theorem Read.run_read (r : ReadState) : ((read : Read ReadOptions).run o).run r = .ok (o, r) := rfl

@[simp] theorem Read.run_set (r r' : ReadState) : ((set r' : Read Unit).run o).run r = .ok ((), r') := rfl

@[simp] theorem Read.run_modify (r : ReadState) (f : ReadState → ReadState) :
    ((modify f : Read Unit).run o).run r = .ok ((), f r) := rfl

@[simp] theorem Read.run_modifyGet (r : ReadState) (f : ReadState → α × ReadState) :
    ((modifyGet f : Read α).run o).run r = .ok ((f r).1, (f r).2) := rfl

@[simp] theorem Read.run_lift_ok (r : ReadState) (a : α) :
    ((liftM (Except.ok a : Result α) : Read α).run o).run r = .ok (a, r) := rfl

end

@[simp] theorem ok_bind {ε α β : Type} (a : α) (f : α → Except ε β) : Except.ok a >>= f = f a := rfl

theorem parses_byte (b : UInt8) : Parses Read.byte [b] b.toNat :=
  fun _ _ _ _ _ _ => rfl

theorem parses_toUInt8 (h : n < 256) : Parses Read.byte [n.toUInt8] n := by
  have hbyte := parses_byte n.toUInt8
  rwa [Leb128.toNat_toUInt8 h] at hbyte

theorem parses_bytes (bytes : Bytes) : Parses (Read.bytes bytes.length) bytes bytes := by
  intro o rest pos table atoms objects
  have htake : (bytes ++ rest).take bytes.length = bytes := List.take_left
  have hdrop : (bytes ++ rest).drop bytes.length = rest := List.drop_left
  simp [Read.bytes, htake, hdrop]

theorem parses_leb (h : n < 0x100000000) : Parses Read.leb (Leb128.write n) n := by
  intro o rest pos table atoms objects
  have hread := Leb128.read_write pos rest h
  simp [Read.leb, hread]

theorem parses_leb16 (field : String) (h : n < 0x10000) : Parses (Read.leb16 field) (Leb128.write n) n := by
  unfold Read.leb16
  refine (parses_leb (by omega)).bind_nil ?_
  rw [if_pos h]
  exact parses_pure n

theorem parses_signedLeb {n} (h : fitsSigned 32 n) : Parses Read.signedLeb (Leb128.writeSigned n) n := by
  unfold Read.signedLeb
  refine (parses_leb (Leb128.zigzag_lt h)).bind_nil ?_
  rw [Leb128.unzigzag_zigzag]
  exact parses_pure n

theorem length_le_unitCount (s : String) : s.toList.length ≤ Text.unitCount s := by
  unfold Text.unitCount
  induction s.toList with
  | nil => exact le_rfl
  | cons c rest ih =>
    have hc : 0 < (Text.units c).length := by
      unfold Text.units
      dsimp only
      split <;> simp
    rw [List.flatMap_cons, List.length_append, List.length_cons]
    omega

/-- A text is read back from its stored form. -/
theorem parses_text {s} (h : Text.unitCount s < 0x80000000) : Parses Read.text (Text.store s) s := by
  unfold Read.text Text.store
  split
  · have hlen : (s.toList.flatMap Text.units).length < 0x80000000 := h
    have hheader : (s.toList.flatMap Text.units).length * 2 % 0x100000000
        = (s.toList.flatMap Text.units).length * 2 := Nat.mod_eq_of_lt (by omega)
    have hbytes : ((s.toList.flatMap Text.units).flatMap (leBytes 2)).length
        = 2 * (s.toList.flatMap Text.units).length := by
      simp [List.length_flatMap, Nat.mul_comm]
    dsimp only
    rw [hheader]
    refine (parses_leb (by omega)).bind ?_
    rw [if_pos (by omega)]
    have hhalf : ((s.toList.flatMap Text.units).length * 2 + 1) / 2
        = (s.toList.flatMap Text.units).length := by omega
    rw [hhalf, ← hbytes]
    refine (parses_bytes _).bind_nil ?_
    rw [Text.ofUnits_pairs]
    dsimp only
    rw [String.ofList_toList]
    exact parses_pure s
  · rename_i hwide
    have hlen := length_le_unitCount s
    have hheader : s.toList.length * 2 % 0x100000000 = s.toList.length * 2 :=
      Nat.mod_eq_of_lt (by omega)
    rw [hheader]
    refine (parses_leb (by omega)).bind ?_
    rw [if_neg (by omega)]
    have hhalf : s.toList.length * 2 / 2 = (s.toList.map (·.toNat.toUInt8)).length := by simp
    rw [hhalf]
    refine (parses_bytes _).bind_nil ?_
    rw [Text.map_ofNat_toUInt8 (by simpa using hwide), String.ofList_toList]
    exact parses_pure s

theorem Read.run_bind_eq_ok {read} {r x} : ((read >>= next).run o).run r = .ok x ↔
      ∃ a s, (read.run o).run r = .ok (a, s) ∧ ((next a).run o).run s = .ok x := by
  rw [ReaderT.run_bind]
  exact ScriptBytecode.run_bind_eq_ok

theorem Read.run_get_bind (next : ReadState → Read α) (o : ReadOptions) (r : ReadState) :
    ((get >>= next).run o).run r = ((next r).run o).run r := rfl

/-- A fault is no result. -/
theorem Read.run_fail_ne_ok {why r x} : ((Read.fail why : Read α).run o).run r ≠ .ok x :=
  nofun

/-! ## Readers that only take bytes -/

variable {r r' : ReadState} {least : Nat}

/-- A reader that takes bytes, `least` of them at least, without a look at what was read before. -/
def Takes (least : Nat) (read : Read α) (ok : α → Prop) : Prop :=
  ∀ o r a r', (read.run o).run r = .ok (a, r') →
    ∃ bytes, r.rest = bytes ++ r'.rest ∧ least ≤ bytes.length ∧ Parses read bytes a ∧ ok a

namespace Takes

variable {ok : α → Prop}

theorem run {read} {a} (h : Takes least read ok) (hrun : (read.run o).run r = .ok (a, r')) :
    ∃ bytes rest, r.rest = bytes ++ rest ∧ r' = { r with rest := rest, pos := r.pos + bytes.length } ∧
      least ≤ bytes.length ∧ Parses read bytes a ∧ ok a := by
  obtain ⟨bytes, hrest, hleast, hparses, ha⟩ := h o r a r' hrun
  have hrun' := hparses o r'.rest r.pos r.table r.atoms r.objects
  rw [← hrest] at hrun'
  have hr' := congrArg Prod.snd (Except.ok.inj (hrun.symm.trans hrun'))
  exact ⟨bytes, r'.rest, hrest, hr', hleast, hparses, ha⟩

theorem pure {a} (h : ok a) : Takes 0 (Pure.pure a) ok := by
  intro o r a' r' hrun
  cases hrun
  exact ⟨[], rfl, le_rfl, parses_pure a, h⟩

theorem fail {why} : Takes least (Read.fail why) ok :=
  fun _ _ _ _ hrun => absurd hrun Read.run_fail_ne_ok

theorem bind {read} {ok'} (h : Takes least read ok)
    (hnext : ∀ a, ok a → Takes 0 (next a) ok') : Takes 0 (read >>= next) ok' := by
  intro o r b r'' hrun
  obtain ⟨a, r', ha, hb⟩ := Read.run_bind_eq_ok.mp hrun
  obtain ⟨bytes, hrest, -, hparses, hok⟩ := h o r a r' ha
  obtain ⟨bytes', hrest', -, hparses', hok'⟩ := hnext a hok o r' b r'' hb
  exact ⟨bytes ++ bytes', by simp [hrest, hrest'], Nat.zero_le _, hparses.bind hparses', hok'⟩

theorem lift {x : Result α} (h : ∀ a, x = .ok a → ok a) : Takes 0 (liftM x) ok := by
  intro o r a r' hrun
  cases x with
  | error e => cases hrun
  | ok a =>
    cases hrun
    exact ⟨[], rfl, le_rfl, fun _ _ _ _ _ _ => rfl, h _ rfl⟩

end Takes

theorem run_byte_eq_ok (h : (Read.byte.run o).run r = .ok (n, r')) :
    ∃ b rest, r.rest = b :: rest ∧ n = b.toNat ∧ r' = { r with rest := rest, pos := r.pos + 1 } := by
  obtain ⟨bytes, pos, table, atoms, objects⟩ := r
  cases bytes with
  | nil => cases h
  | cons b rest =>
    cases h
    exact ⟨b, rest, rfl, rfl, rfl⟩

theorem takes_byte : Takes 1 Read.byte (fun n => n < 0x100) := by
  intro o r n r' hrun
  obtain ⟨b, rest, hrest, rfl, rfl⟩ := run_byte_eq_ok hrun
  exact ⟨[b], hrest, le_rfl, parses_byte b, b.toNat_lt⟩

theorem run_bytes_eq_ok {taken} :
    ((Read.bytes n).run o).run r = .ok (taken, r') ↔
      n ≤ r.rest.length ∧ taken = r.rest.take n ∧ r' = { r with rest := r.rest.drop n, pos := r.pos + n } := by
  unfold Read.bytes
  simp only [ReaderT.run_bind, StateT.run_bind, Read.run_get, ok_bind]
  have hlen : (r.rest.take n).length = n ↔ n ≤ r.rest.length := by
    rw [List.length_take]
    omega
  split
  · constructor
    · intro h
      cases h
      exact ⟨hlen.mp ‹_›, rfl, rfl⟩
    · rintro ⟨-, rfl, rfl⟩
      rfl
  · constructor
    · intro h
      exact absurd h Read.run_fail_ne_ok
    · intro h
      exact absurd (hlen.mpr h.1) ‹_›

theorem takes_bytes (n : Nat) : Takes 0 (Read.bytes n) (fun taken => taken.length = n) := by
  intro o r taken r' hrun
  obtain ⟨hn, rfl, rfl⟩ := run_bytes_eq_ok.mp hrun
  have hlength : (r.rest.take n).length = n := List.length_take_of_le hn
  refine ⟨_, (List.take_append_drop n _).symm, Nat.zero_le _, ?_, hlength⟩
  have hparses := parses_bytes (r.rest.take n)
  rwa [hlength] at hparses

theorem takes_leb : Takes 1 Read.leb (fun n => n < 0x100000000) := by
  intro o r n r' hrun
  unfold Read.leb at hrun
  simp only [ReaderT.run_bind, StateT.run_bind, Read.run_get, ok_bind] at hrun
  cases hread : Leb128.read r.pos r.rest with
  | error e =>
    rw [hread] at hrun
    cases hrun
  | ok x =>
    obtain ⟨n', used, rest⟩ := x
    rw [hread] at hrun
    cases hrun
    obtain ⟨hlt, taken, hbytes, hpos, hused, htaken⟩ := Leb128.exists_groups_of_readGroups hread
    refine ⟨taken, hbytes, hpos, ?_, hlt⟩
    intro o rest pos table atoms objects
    have hread' : Leb128.read pos (taken ++ rest) = .ok (n', used, rest) := htaken pos rest
    simp [Read.leb, hread', hused]

theorem takes_leb16 (field : String) : Takes 0 (Read.leb16 field) (fun n => n < 0x10000) := by
  unfold Read.leb16
  apply takes_leb.bind
  intro n _
  split
  · exact .pure ‹_›
  · exact .fail

theorem takes_text : Takes 0 Read.text (fun s => Text.unitCount s < 0x80000000) := by
  unfold Read.text
  apply takes_leb.bind
  intro header hheader
  dsimp only
  split
  · apply (takes_bytes _).bind
    intro taken hlength
    split
    · rename_i cs hcs
      apply Takes.pure
      have hunits := Text.length_units_ofUnits (fun _ => Text.pairs_lt) hcs
      have hpairs := Text.length_pairs_le taken
      simp only [Text.unitCount, String.toList_ofList, List.flatMap_nil, List.length_nil] at hunits ⊢
      omega
    · exact .fail
  · apply (takes_bytes _).bind
    intro taken hlength
    apply Takes.pure
    have hunits := Text.length_units_bytes taken
    rw [Text.unitCount, String.toList_ofList, hunits]
    omega

theorem takes_varKind (bits : Nat) : Takes 0 (Read.varKind bits) (fun _ => True) := by
  unfold Read.varKind
  split
  · exact .pure trivial
  · exact .fail

/-! ## Runs of a writer -/

@[simp] theorem Write.run_get (env : WriteEnv) (s : WriteState) :
    ((get : Write WriteState).run env).run s = .ok (s, s) := rfl

@[simp] theorem Write.run_set (env : WriteEnv) (s s' : WriteState) :
    ((set s' : Write Unit).run env).run s = .ok ((), s') := rfl

@[simp] theorem Write.run_read (env : WriteEnv) (s : WriteState) :
    ((read : Write WriteEnv).run env).run s = .ok (env, s) := rfl

theorem Write.run_bind_eq_ok {α β : Type} {write} {next : α → Write β} {x} :
    ((write >>= next).run env).run s = .ok x ↔
      ∃ a s₁, (write.run env).run s = .ok (a, s₁) ∧ ((next a).run env).run s₁ = .ok x := by
  rw [ReaderT.run_bind]
  exact ScriptBytecode.run_bind_eq_ok

theorem Write.run_map_eq_ok {α β : Type} {write : Write α} {f : α → β} {b} :
    ((f <$> write).run env).run s = .ok (b, s') ↔ ∃ a, (write.run env).run s = .ok (a, s') ∧ f a = b := by
  rw [map_eq_pure_bind, Write.run_bind_eq_ok]
  constructor
  · rintro ⟨a, s₁, ha, hpure⟩
    cases hpure
    exact ⟨a, ha, rfl⟩
  · rintro ⟨a, ha, rfl⟩
    exact ⟨a, s', ha, rfl⟩

theorem Write.run_count_eq_ok :
    ((Write.count n).run env).run s = .ok (bytes, s') ↔ n < 0x100000000 ∧ bytes = Leb128.write n ∧ s' = s := by
  unfold Write.count
  split
  · constructor
    · intro h
      cases h
      exact ⟨‹_›, rfl, rfl⟩
    · rintro ⟨-, rfl, rfl⟩
      rfl
  · constructor
    · intro h
      cases h
    · intro h
      exact absurd h.1 ‹_›

/-! ## States in step -/

/-- From a writer to a reader: the reader has the atom `rename a` where the writer has `a`. -/
structure Passage where
  env : WriteEnv
  /-- The atoms that values may have. -/
  Admits : Atom → Prop
  /-- The array, object or template of each identity. -/
  heap : List (Nat × Value)
  rename : Atom → Atom
  options : ReadOptions
  fits : ∀ a, Admits a → a.Fits env.table
  keeps : ∀ a, a.isStatic = true → rename a = a
  allows : env.options.allowReference = true → options.allowReference = true
  small : env.options.allowReference = true → heap.length < 0x80000000

/-- What is read where a value was written. -/
def Passage.copy (p : Passage) (v : Value) : Value :=
  v.stored p.env.options p.rename

variable (p : Passage)

/-- What holds of the writer's state throughout. With references, the index of an object is below twice
the number of objects met; `raws` of these are templates whose raw strings have no index yet. -/
structure Sound (raws : Nat) (s : WriteState) : Prop where
  nodup : s.atoms.toList.Nodup
  admitted : ∀ a ∈ s.atoms.toList, p.Admits a
  listed : ∀ a ∈ s.atoms.toList, a.Listed p.env.table
  budget : p.env.options.allowReference = true → (s.objects.map Prod.fst).Nodup ∧
    (∀ id ∈ s.objects.map Prod.fst, id ∈ p.heap.map Prod.fst) ∧ s.count + raws ≤ 2 * s.objects.length

/-- What a writer does to its state, inside the objects with the given identities. -/
structure Grows (inside : List Nat) (s s' : WriteState) : Prop where
  atoms : s.atoms.toList <+: s'.atoms.toList
  count : s.count ≤ s'.count
  kept : ∀ id ∈ inside, s'.objects.lookup id = s.objects.lookup id
  fresh : ∀ id k, s'.objects.lookup id = some k → s.objects.lookup id = some k ∨ s.count ≤ k

/-- Identities of written objects with those of the objects that were read for them. -/
abbrev Links := List (Nat × Nat)

/-- The links are among the pairs of a relation. -/
def Links.Within (links : Links) (I : Nat → Nat → Prop) : Prop :=
  ∀ link ∈ links, I link.1 link.2

/-- The reader has numbered the objects as the writer has: every one is complete, unless reader and
writer are inside it. Without references an object may be linked to many; with references, to one. -/
structure Tracks (inside : List Nat) (s : WriteState) (pos : Nat) (objects : Objects) (links : Links) : Prop where
  size : objects.size = s.count
  below : ∀ id k, s.objects.lookup id = some k → k < s.count
  inj : ∀ id id' k, s.objects.lookup id = some k → s.objects.lookup id' = some k → id = id'
  complete : ∀ id k, s.objects.lookup id = some k → id ∈ inside ∨
    ∃ v w, p.heap.lookup id = some v ∧ objects[k]? = some (some w) ∧
      ∀ I, links.Within I → (p.copy v).Mirrors I w
  met : ∀ link ∈ links, link.2 < pos ∧ (s.objects.lookup link.1).isSome = true
  paired : p.env.options.allowReference = true → ∀ link ∈ links, ∀ link' ∈ links,
    (link.1 = link'.1 ↔ link.2 = link'.2)

theorem Grows.refl (inside : List Nat) (s : WriteState) : Grows inside s s :=
  ⟨List.prefix_refl _, le_rfl, fun _ _ => rfl, fun _ _ h => .inl h⟩

theorem Grows.trans {inside s''} (h : Grows inside s s') (h' : Grows inside s' s'') : Grows inside s s'' where
  atoms := h.atoms.trans h'.atoms
  count := h.count.trans h'.count
  kept := fun id hid => (h'.kept id hid).trans (h.kept id hid)
  fresh := by
    intro id k hk
    rcases h'.fresh id k hk with hk | hk
    · exact h.fresh id k hk
    · exact .inr (h.count.trans hk)

/-! ## Reading back -/

/-- What `ok` says of something read, whatever identities it has. -/
def Is {α : Type} (a : α) : (Nat → Nat → Prop) → α → Prop :=
  fun _ b => b = a

/-- What a writer adds behind `before` is read back, by a reader of enough depth, as something that is `ok` for
the identities that are linked by then. -/
def ReadsBack {α : Type} (inside : List Nat) (raws raws' : Nat) (before : Bytes) (write : Write Bytes)
    (read : Nat → Read α) (ok : (Nat → Nat → Prop) → α → Prop) : Prop :=
  ∀ s out s', (write.run p.env).run s = .ok (out, s') → Sound p raws s →
    ∃ new, out = before ++ new ∧ Sound p raws' s' ∧ Grows inside s s' ∧
      ∀ atoms : Array Atom, s'.atoms.toList.map p.rename <+: atoms.toList → ∀ pos objects links depth,
        Tracks p inside s pos objects links → new.length ≤ depth →
        ∃ a objects' links', Gives p.options atoms (read depth) pos objects new a objects' ∧ links ⊆ links' ∧
          (∀ I, Links.Within links' I → ok I a) ∧ Tracks p inside s' (pos + new.length) objects' links'

variable {p}

theorem Links.Within.mono {links} {links' : Links} {I} (h : links'.Within I) (hsub : links ⊆ links') : links.Within I :=
  fun link hlink => h link (hsub hlink)

/-- Reading goes on behind what was read. -/
theorem Tracks.move {inside pos' links} (h : Tracks p inside s pos objects links) (hle : pos ≤ pos') :
    Tracks p inside s pos' objects links :=
  { h with met := fun link hlink => ⟨Nat.lt_of_lt_of_le (h.met link hlink).1 hle, (h.met link hlink).2⟩ }

variable {next : Bytes → Write Bytes}

namespace ReadsBack

variable {α β : Type} {inside : List Nat} {raws raws' raws'' : Nat} {before : Bytes} {write : Write Bytes}
  {read : Nat → Read α} {readNext : α → Nat → Read β} {ok : (Nat → Nat → Prop) → α → Prop}
  {ok' : (Nat → Nat → Prop) → β → Prop}

theorem done {a} (hbytes : bytes = before) (ha : ∀ I, ok I a) :
    ReadsBack p inside raws raws before (pure bytes) (fun _ => pure a) ok := by
  intro s out s' hrun hs
  cases hrun
  refine ⟨[], by rw [List.append_nil, hbytes], hs, .refl _ _, ?_⟩
  intro atoms _ pos objects links depth htracks _
  exact ⟨a, objects, links, gives_pure a, List.Subset.refl _, fun I _ => ha I, htracks⟩

/-- One piece is written and read, then the rest. What is written next does not depend on what the piece
is read as, as long as it can be read at all. -/
theorem bind_view {γ : Type} {write} (view : γ → Bytes) {next : γ → Write Bytes}
    (h : ReadsBack p inside raws raws' [] (view <$> write) read ok) (hsome : ∃ a I, ok I a)
    (hnext : ∀ c a, (∃ I, ok I a) → ReadsBack p inside raws' raws'' (before ++ view c) (next c) (readNext a)
      (fun I b => ok I a → ok' I b)) :
    ReadsBack p inside raws raws'' before (write >>= next)
      (fun depth => read depth >>= fun a => readNext a depth) ok' := by
  intro s out s₂ hrun hs
  obtain ⟨c, s₁, hc, hrun₂⟩ := Write.run_bind_eq_ok.mp hrun
  obtain ⟨new, hnew, hs₁, hgrows, hread⟩ := h s (view c) s₁ (Write.run_map_eq_ok.mpr ⟨c, hc, rfl⟩) hs
  rw [List.nil_append] at hnew
  subst hnew
  obtain ⟨a₀, ha₀⟩ := hsome
  obtain ⟨more, rfl, hs₂, hgrows₂, -⟩ := hnext c a₀ ha₀ s₁ out s₂ hrun₂ hs₁
  refine ⟨view c ++ more, List.append_assoc _ _ _, hs₂, hgrows.trans hgrows₂, ?_⟩
  intro atoms hatoms pos objects links depth htracks hdepth
  rw [List.length_append] at hdepth
  obtain ⟨a, objects₁, links₁, hgives, hlinks, ha, htracks₁⟩ :=
    hread atoms ((hgrows₂.atoms.map p.rename).trans hatoms) pos objects links depth htracks (by omega)
  obtain ⟨more', hmore, -, -, hread₂⟩ :=
    hnext c a ⟨fun i j => (i, j) ∈ links₁, ha _ fun _ hlink => hlink⟩ s₁ _ s₂ hrun₂ hs₁
  obtain rfl := List.append_cancel_left hmore
  obtain ⟨b, objects₂, links₂, hgives₂, hlinks₂, hb, htracks₂⟩ :=
    hread₂ atoms hatoms (pos + (view c).length) objects₁ links₁ depth htracks₁ (by omega)
  refine ⟨b, objects₂, links₂, hgives.bind hgives₂, List.Subset.trans hlinks hlinks₂, ?_, ?_⟩
  · intro I hI
    exact hb I hI (ha I (hI.mono hlinks₂))
  · rwa [List.length_append, ← Nat.add_assoc]

theorem bind (h : ReadsBack p inside raws raws' [] write read ok) (hsome : ∃ a I, ok I a)
    (hnext : ∀ bytes a, (∃ I, ok I a) →
      ReadsBack p inside raws' raws'' (before ++ bytes) (next bytes) (readNext a) (fun I b => ok I a → ok' I b)) :
    ReadsBack p inside raws raws'' before (write >>= next) (fun depth => read depth >>= fun a => readNext a depth)
      ok' :=
  bind_view id ((id_map write).symm ▸ h) hsome hnext

theorem mapRead {f : α → β} (h : ReadsBack p inside raws raws' before write read ok)
    (hok : ∀ I a, ok I a → ok' I (f a)) :
    ReadsBack p inside raws raws' before write (fun depth => read depth >>= fun a => pure (f a)) ok' := by
  intro s out s' hrun hs
  obtain ⟨new, hnew, hs', hgrows, hread⟩ := h s out s' hrun hs
  refine ⟨new, hnew, hs', hgrows, ?_⟩
  intro atoms hatoms pos objects links depth htracks hdepth
  obtain ⟨a, objects', links', hgives, hlinks, ha, htracks'⟩ :=
    hread atoms hatoms pos objects links depth htracks hdepth
  refine ⟨f a, objects', links', ?_, hlinks, fun I hI => hok I a (ha I hI), htracks'⟩
  exact hgives.bind_nil (gives_pure _)

theorem weaken {ok'} (h : ReadsBack p inside raws raws' before write read ok) (hok : ∀ I a, ok I a → ok' I a) :
    ReadsBack p inside raws raws' before write read ok' := by
  have hsame := h.mapRead (f := id) hok
  simpa only [id, bind_pure] using hsame

/-- A piece of which it is known what it is read as. -/
theorem bind_eq {a} (h : ReadsBack p inside raws raws' [] write read (Is a))
    (hnext : ∀ bytes, ReadsBack p inside raws' raws'' (before ++ bytes) (next bytes) (readNext a) ok') :
    ReadsBack p inside raws raws'' before (write >>= next) (fun depth => read depth >>= fun a => readNext a depth)
      ok' := by
  refine h.bind ⟨a, Eq, rfl⟩ ?_
  rintro bytes _ ⟨_, rfl⟩
  exact (hnext bytes).weaken fun _ _ hb _ => hb

/-- The last piece. -/
theorem last (h : ReadsBack p inside raws raws' [] write read ok)
    (hnext : ∀ bytes, next bytes = pure (before ++ bytes)) :
    ReadsBack p inside raws raws' before (write >>= next) read ok := by
  intro s out s' hrun hs
  obtain ⟨bytes, s₁, hbytes, hrun⟩ := Write.run_bind_eq_ok.mp hrun
  rw [hnext] at hrun
  cases hrun
  obtain ⟨new, hnew, hrest⟩ := h s bytes s' hbytes hs
  exact ⟨new, by rw [hnew, List.nil_append], hrest⟩

/-- Bytes that need no writer. -/
theorem piece {read a} (h : Parses read bytes a)
    (hnext : ReadsBack p inside raws raws' (before ++ bytes) write (readNext a) ok') :
    ReadsBack p inside raws raws' before write (fun depth => read >>= fun a => readNext a depth) ok' := by
  intro s out s' hrun hs
  obtain ⟨new, rfl, hs', hgrows, hread⟩ := hnext s out s' hrun hs
  refine ⟨bytes ++ new, List.append_assoc _ _ _, hs', hgrows, ?_⟩
  intro atoms hatoms pos objects links depth htracks hdepth
  rw [List.length_append] at hdepth
  obtain ⟨b, objects', links', hgives, hlinks, hb, htracks'⟩ := hread atoms hatoms (pos + bytes.length) objects links
    depth (htracks.move (Nat.le_add_right _ _)) (by omega)
  refine ⟨b, objects', links', (h.gives _ atoms pos objects).bind hgives, hlinks, hb, ?_⟩
  rwa [List.length_append, ← Nat.add_assoc]

/-- A writer that looks at its options or its table. -/
theorem readEnv {next : WriteEnv → Write Bytes}
    (h : ReadsBack p inside raws raws' before (next p.env) read ok) :
    ReadsBack p inside raws raws' before (MonadReader.read >>= next) read ok :=
  h

/-- A count that does not fit is not written. -/
theorem count {n} {next : Bytes → Write Bytes}
    (hnext : n < 0x100000000 → ReadsBack p inside raws raws' before (next (Leb128.write n)) read ok) :
    ReadsBack p inside raws raws' before (Write.count n >>= next) read ok := by
  intro s out s' hrun hs
  obtain ⟨_, _, hcount, hrest⟩ := Write.run_bind_eq_ok.mp hrun
  obtain ⟨hn, rfl, rfl⟩ := Write.run_count_eq_ok.mp hcount
  exact hnext hn _ out s' hrest hs

/-- What is refused needs no reader. -/
theorem fail_bind {γ : Type} {why} {next : γ → Write Bytes} :
    ReadsBack p inside raws raws' before (Write.fail why >>= next) read ok :=
  nofun

end ReadsBack

end ScriptBytecode.Object
