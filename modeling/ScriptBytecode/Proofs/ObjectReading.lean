import ScriptBytecode.Proofs.ObjectRecords

/-!
# Which bytes are objects

Whether bytes are read as an object does not depend on the atom table, and no object is the beginning of another one.
Both follow from watching two readers at once: the second one sees the bytes of the first with more behind them, and
has atoms of its own. As long as the first one goes on, so does the second.
-/

namespace ScriptBytecode.Object

variable {bytes : Bytes} {t : AtomTable}

/-! ## Two readers in step -/

/-- What a reader can tell of the objects that it has numbered: whether they are complete, and what they are. -/
def outline (objects : Objects) : Array (Option String) :=
  objects.map (·.map Value.typeName)

/-- The second reader is where the first one is, but for its table and its atoms, and sees `more` bytes at the end. -/
structure InStep (more : Bytes) (r r' : ReadState) : Prop where
  rest : r'.rest = r.rest ++ more
  pos : r'.pos = r.pos
  atoms : r'.atoms.size = r.atoms.size
  objects : outline r'.objects = outline r.objects

/-- When a reader accepts, a second one that is in step with it accepts as well, stays in step and gives something that
is `ok` beside what the first one gives. -/
def Shadows {α β : Type} (more : Bytes) (o : ReadOptions) (read : Read α) (read' : Read β) (ok : α → β → Prop) :
    Prop :=
  ∀ r r', InStep more r r' → ∀ a s, (read.run o).run r = .ok (a, s) →
    ∃ b s', (read'.run o).run r' = .ok (b, s') ∧ ok a b ∧ InStep more s s'

variable {α β γ δ : Type} {more : Bytes} {o : ReadOptions} {ok : α → β → Prop}

namespace Shadows

theorem pure {a b} (h : ok a b) : Shadows more o (Pure.pure a) (Pure.pure b) ok := by
  intro r r' hstep a' s hrun
  cases hrun
  exact ⟨b, r', rfl, h, hstep⟩

theorem bind {read read'} {next : α → Read γ} {next' : β → Read δ} {ok'}
    (h : Shadows more o read read' ok) (hnext : ∀ a b, ok a b → Shadows more o (next a) (next' b) ok') :
    Shadows more o (read >>= next) (read' >>= next') ok' := by
  intro r r' hstep c s hrun
  obtain ⟨a, r₁, ha, hc⟩ := Read.run_bind_eq_ok.mp hrun
  obtain ⟨b, r₁', hb, hok, hstep₁⟩ := h r r' hstep a r₁ ha
  obtain ⟨d, s', hd, hok', hstep'⟩ := hnext a b hok r₁ r₁' hstep₁ c s hc
  exact ⟨d, s', Read.run_bind_eq_ok.mpr ⟨b, r₁', hb, hd⟩, hok', hstep'⟩

/-- Where both readers get the same, they go on alike. -/
theorem bind_same {read read'} {next : α → Read γ} {next' : α → Read δ} {ok} (h : Shadows more o read read' Eq)
    (hnext : ∀ a, Shadows more o (next a) (next' a) ok) : Shadows more o (read >>= next) (read' >>= next') ok := by
  apply h.bind
  rintro a _ rfl
  exact hnext a

/-- Each reader looks at its own state. -/
theorem look {next : ReadState → Read α} {next' : ReadState → Read β} {ok}
    (h : ∀ r r', InStep more r r' → Shadows more o (next r) (next' r') ok) :
    Shadows more o (get >>= next) (get >>= next') ok :=
  fun r r' hstep => h r r' hstep r r' hstep

/-- What the first reader refuses is of no concern. -/
theorem fail {why read'} : Shadows more o (Read.fail why) read' ok :=
  fun _ _ _ _ _ hrun => absurd hrun Read.run_fail_ne_ok

theorem throw {e read'} : Shadows more o (MonadExcept.throw e : Read α) read' ok :=
  nofun

end Shadows

/-! ## Single fields -/

theorem Takes.shadows {least} {read : Read α} {ok} (h : Takes least read ok) : Shadows more o read read Eq := by
  intro r r' hstep a s hrun
  obtain ⟨bytes, rest, hrest, rfl, -, hparses, -⟩ := h.run hrun
  have hrun' := hparses o (rest ++ more) r'.pos r'.table r'.atoms r'.objects
  rw [← List.append_assoc, ← hrest, ← hstep.rest] at hrun'
  exact ⟨a, _, hrun', rfl, rfl, by rw [hstep.pos], hstep.atoms, hstep.objects⟩

theorem shadows_many {item item' ok} (h : Shadows more o item item' ok) (n : Nat) (done : Array α) (done' : Array β) :
    Shadows more o (Read.many item n done) (Read.many item' n done') (fun _ _ => True) := by
  induction n generalizing done done' with
  | zero => exact .pure trivial
  | succ n ih =>
    apply h.bind
    intro a b _
    exact ih (done.push a) (done'.push b)

theorem shadows_counted {item item'} (h : Shadows more o item item' ok) :
    Shadows more o (Read.counted item) (Read.counted item') (fun _ _ => True) := by
  unfold Read.counted
  apply takes_leb.shadows.bind_same
  intro n
  apply (shadows_many h n #[] #[]).bind
  intro _ _ _
  exact .pure trivial

/-! ## Atoms

Which atom an index leads to depends on the table, but not whether it leads to one. -/

theorem isSome_atomAt? {atoms atoms' : Array Atom} (h : atoms'.size = atoms.size) (n : Nat) :
    (atomAt? atoms' n).isSome = (atomAt? atoms n).isSome := by
  unfold atomAt?
  split
  · rfl
  · by_cases hlt : n - Atom.firstDynamic < atoms.size
    · rw [Array.getElem?_eq_getElem hlt, Array.getElem?_eq_getElem (h ▸ hlt)]
      rfl
    · rw [Array.getElem?_eq_none (by omega), Array.getElem?_eq_none (by omega)]

theorem shadows_atomOfIndex (n : Nat) :
    Shadows more o (Read.atomOfIndex n) (Read.atomOfIndex n) (fun _ _ => True) := by
  intro r r' hstep a s hrun
  obtain ⟨ha, rfl⟩ := run_atomOfIndex_eq_ok.mp hrun
  have hsome := isSome_atomAt? hstep.atoms n
  rw [ha] at hsome
  obtain ⟨b, hb⟩ := Option.isSome_iff_exists.mp hsome
  exact ⟨b, r', run_atomOfIndex_eq_ok.mpr ⟨hb, rfl⟩, trivial, hstep⟩

theorem shadows_atom : Shadows more o Read.atom Read.atom (fun _ _ => True) := by
  unfold Read.atom
  apply takes_leb.shadows.bind_same
  intro n
  split
  · split
    · exact .pure trivial
    · exact .fail
  · exact shadows_atomOfIndex _

theorem shadows_atomName : Shadows more o Read.atomName Read.atomName (fun _ _ => True) := by
  unfold Read.atomName
  apply takes_text.shadows.bind_same
  intro name r r' hstep a s hrun
  cases hrun
  refine ⟨_, _, rfl, trivial, hstep.rest, hstep.pos, ?_, hstep.objects⟩
  simp [hstep.atoms]

theorem shadows_head : Shadows more o Read.head Read.head (fun _ _ => True) := by
  unfold Read.head
  apply takes_byte.shadows.bind_same
  intro v
  split
  · exact Shadows.bind .fail fun _ _ h => h
  · apply takes_leb.shadows.bind_same
    intro n
    apply (shadows_many shadows_atomName n #[] #[]).bind
    intro _ _ _
    exact .pure trivial

/-! ## Records -/

theorem shadows_variable : Shadows more o Read.variable_ Read.variable_ (fun _ _ => True) := by
  unfold Read.variable_
  apply shadows_atom.bind
  intro _ _ _
  apply takes_leb.shadows.bind_same
  intro level
  apply takes_leb.shadows.bind_same
  intro next
  apply takes_byte.shadows.bind_same
  intro bits
  apply (takes_varKind _).shadows.bind_same
  intro kind
  exact .pure trivial

theorem shadows_closureVar : Shadows more o Read.closureVar Read.closureVar (fun _ _ => True) := by
  unfold Read.closureVar
  apply shadows_atom.bind
  intro _ _ _
  apply (takes_leb16 _).shadows.bind_same
  intro idx
  apply takes_byte.shadows.bind_same
  intro bits
  apply (takes_varKind _).shadows.bind_same
  intro kind
  exact .pure trivial

/-- Computations that do not read. -/
theorem shadows_lift {x : Result α} {y : Result β} (h : ∀ a, x = .ok a → ∃ b, y = .ok b) :
    Shadows more o (liftM x) (liftM y) (fun a b => x = .ok a ∧ y = .ok b) := by
  intro r r' hstep a s hrun
  cases x with
  | error e => cases hrun
  | ok a =>
    obtain ⟨b, rfl⟩ := h a rfl
    cases hrun
    exact ⟨b, r', rfl, ⟨rfl, rfl⟩, hstep⟩

/-- Code is read as code, with whatever atoms. -/
theorem shadows_code (n : Nat) :
    Shadows more o (Read.code n) (Read.code n) (fun _ code' => ∃ instrs, decodeFinal code' = .ok instrs) := by
  intro r r' hstep code s hrun
  obtain ⟨hn, rfl, instrs, hdecode, hatoms, -⟩ := run_readCode_eq_ok.mp hrun
  have htake : r'.rest.take n = r.rest.take n := by
    rw [hstep.rest, List.take_append_of_le_length hn]
  rw [← htake] at hdecode
  have hatoms' : ∀ site ∈ atomSites instrs, (atomAt? r'.atoms site.2.id).isSome := by
    intro site hsite
    rw [isSome_atomAt? hstep.atoms]
    exact hatoms site hsite
  refine ⟨_, _, run_readCode_eq_ok.mpr ⟨?_, rfl, instrs, hdecode, hatoms', rfl⟩, ?_, ?_, ?_, hstep.atoms,
    hstep.objects⟩
  · rw [hstep.rest, List.length_append]
    omega
  · exact exists_decodeFinal_recode hdecode _
  · simp [hstep.rest, List.drop_append_of_le_length hn]
  · simp [hstep.pos]

theorem shadows_debug : Shadows more o Read.debug Read.debug (fun _ _ => True) := by
  unfold Read.debug
  apply shadows_atom.bind
  intro _ _ _
  apply takes_leb.shadows.bind_same
  intro line
  apply takes_leb.shadows.bind_same
  intro size
  apply (takes_bytes _).shadows.bind_same
  intro lines
  apply takes_leb.shadows.bind_same
  intro size'
  apply (takes_bytes _).shadows.bind_same
  intro stored
  split
  · exact .pure trivial
  · exact .fail

theorem shadows_debug? (present : Bool) :
    Shadows more o (Read.debug? present) (Read.debug? present) (fun _ _ => True) := by
  unfold Read.debug?
  split
  · apply shadows_debug.bind
    intro _ _ _
    exact .pure trivial
  · exact .pure trivial

theorem shadows_slotVars (slots : Nat) :
    Shadows more o (Read.slotVars slots) (Read.slotVars slots) (fun _ _ => True) := by
  unfold Read.slotVars
  split
  · exact .pure trivial
  · apply takes_leb.shadows.bind_same
    intro stored
    split
    · exact .fail
    · apply (shadows_many shadows_variable slots #[] #[]).bind
      intro _ _ _
      exact .pure trivial

theorem shadows_exportEntry : Shadows more o Read.exportEntry Read.exportEntry (fun _ _ => True) := by
  unfold Read.exportEntry
  apply takes_byte.shadows.bind_same
  intro type
  split
  · apply takes_leb.shadows.bind_same
    intro varIdx
    apply shadows_atom.bind
    intro _ _ _
    exact .pure trivial
  · split
    · apply takes_leb.shadows.bind_same
      intro reqModule
      apply shadows_atom.bind
      intro _ _ _
      apply shadows_atom.bind
      intro _ _ _
      exact .pure trivial
    · exact .fail

theorem shadows_importEntry : Shadows more o Read.importEntry Read.importEntry (fun _ _ => True) := by
  unfold Read.importEntry
  apply takes_leb.shadows.bind_same
  intro varIdx
  apply takes_byte.shadows.bind_same
  intro star
  apply shadows_atom.bind
  intro _ _ _
  apply takes_leb.shadows.bind_same
  intro reqModule
  exact .pure trivial

/-! ## Values -/

/-- Values that a reader cannot tell apart. -/
def SameType (v w : Value) : Prop :=
  v.typeName = w.typeName

variable {value value' : Read Value}

theorem shadows_reserve : Shadows more o Read.reserve Read.reserve Eq := by
  intro r r' hstep slot s hrun
  cases hrun
  have hsize : r'.objects.size = r.objects.size := by
    have hmap := congrArg Array.size hstep.objects
    simpa [outline] using hmap
  refine ⟨_, _, rfl, hsize.symm, hstep.rest, hstep.pos, hstep.atoms, ?_⟩
  have houtline := hstep.objects
  simp only [outline] at houtline
  simp [outline, houtline]

theorem shadows_complete (slot : Nat) {v w} (h : SameType v w) :
    Shadows more o (Read.complete slot v) (Read.complete slot w) SameType := by
  intro r r' hstep x s hrun
  cases hrun
  refine ⟨w, _, rfl, h, hstep.rest, hstep.pos, hstep.atoms, ?_⟩
  have houtline := hstep.objects
  simp only [outline] at houtline
  have htype : v.typeName = w.typeName := h
  simp [outline, Array.map_setIfInBounds, houtline, htype]

section

variable (h : Shadows more o value value' SameType)
include h

theorem shadows_property : Shadows more o (Read.property value) (Read.property value') (fun _ _ => True) := by
  unfold Read.property
  apply shadows_atom.bind
  intro _ _ _
  apply h.bind
  intro _ _ _
  exact .pure trivial

theorem shadows_function : Shadows more o (Read.function value) (Read.function value') (fun _ _ => True) := by
  unfold Read.function
  apply (takes_bytes 2).shadows.bind_same
  intro flags
  apply takes_byte.shadows.bind_same
  intro mode
  apply shadows_atom.bind
  intro _ _ _
  apply (takes_leb16 _).shadows.bind_same
  intro args
  apply (takes_leb16 _).shadows.bind_same
  intro vars
  apply (takes_leb16 _).shadows.bind_same
  intro defined
  apply (takes_leb16 _).shadows.bind_same
  intro stack
  apply takes_leb.shadows.bind_same
  intro closureCount
  apply takes_leb.shadows.bind_same
  intro constantCount
  apply takes_leb.shadows.bind_same
  intro codeSize
  apply (shadows_slotVars _).bind
  intro _ _ _
  apply (shadows_many shadows_closureVar _ _ _).bind
  intro _ _ _
  apply (shadows_code _).bind
  rintro code code' ⟨instrs', hdecode'⟩
  apply (shadows_debug? _).bind
  intro _ _ _
  apply (shadows_many h _ _ _).bind
  intro _ _ _
  have hcache : ∃ cache, InlineCache.ofCode code' = .ok cache := ⟨_, bind_eq_ok.mpr ⟨instrs', hdecode', rfl⟩⟩
  apply (shadows_lift fun _ _ => hcache).bind
  intro _ _ _
  exact .pure trivial

theorem shadows_module : Shadows more o (Read.module value) (Read.module value') (fun _ _ => True) := by
  unfold Read.module
  apply shadows_atom.bind
  intro _ _ _
  apply (shadows_counted (shadows_property h)).bind
  intro _ _ _
  apply (shadows_counted shadows_exportEntry).bind
  intro _ _ _
  apply (shadows_counted takes_leb.shadows).bind
  intro _ _ _
  apply (shadows_counted shadows_importEntry).bind
  intro _ _ _
  apply h.bind
  intro body body' hbody
  cases body with
  | function id f =>
    cases body' with
    | function id' f' => exact .pure trivial
    | _ => simp [SameType, Value.typeName] at hbody
  | _ => exact .fail

theorem shadows_content (start : Nat) (tag : Tag) :
    Shadows more o (Read.content value start tag) (Read.content value' start tag) SameType := by
  have hvalues := shadows_counted h
  have hprops := shadows_counted (shadows_property h)
  unfold Read.content
  cases tag with
  | null | undefined | false | true => exact .pure rfl
  | int =>
    unfold Read.signedLeb
    simp only [bind_assoc, pure_bind]
    apply takes_leb.shadows.bind_same
    intro n
    exact .pure rfl
  | float =>
    apply (takes_bytes 8).shadows.bind_same
    intro taken
    exact .pure rfl
  | string =>
    apply takes_text.shadows.bind_same
    intro s
    exact .pure rfl
  | bigInt =>
    apply takes_leb.shadows.bind_same
    intro n
    apply (takes_bytes n).shadows.bind_same
    intro taken
    exact .pure rfl
  | array =>
    apply shadows_reserve.bind_same
    intro slot
    apply hvalues.bind
    intro _ _ _
    exact shadows_complete slot rfl
  | object =>
    apply shadows_reserve.bind_same
    intro slot
    apply hprops.bind
    intro _ _ _
    exact shadows_complete slot rfl
  | template =>
    apply shadows_reserve.bind_same
    intro slot
    apply hvalues.bind
    intro _ _ _
    apply h.bind
    intro raw raw' hraw
    cases raw with
    | array id items =>
      cases raw' with
      | array id' items' => exact shadows_complete slot rfl
      | _ => simp [SameType, Value.typeName] at hraw
    | _ => exact .fail
  | function =>
    apply (shadows_function h).bind
    intro _ _ _
    exact .pure rfl
  | module =>
    apply (shadows_module h).bind
    intro _ _ _
    exact .pure rfl
  | reference =>
    have hread : Shadows more o (read : Read ReadOptions) read Eq := by
      intro r r' hstep a s hrun
      cases hrun
      exact ⟨o, r', rfl, rfl, hstep⟩
    apply hread.bind_same
    intro o'
    split
    · exact Shadows.bind .throw fun _ _ h => h
    · apply takes_leb.shadows.bind_same
      intro index
      apply Shadows.look
      intro r r' hstep
      -- a reference leads to an object in both readers or in neither
      have houtline : (outline r'.objects)[index]? = (outline r.objects)[index]? := by rw [hstep.objects]
      simp only [outline, Array.getElem?_map] at houtline
      cases hobject : r.objects[index]? with
      | none => exact .fail
      | some object =>
        cases object with
        | none => exact .fail
        | some v =>
          rw [hobject] at houtline
          obtain ⟨object', hobject', hcomplete⟩ := Option.map_eq_some_iff.mp houtline
          obtain ⟨w, rfl, htype⟩ := Option.map_eq_some_iff.mp hcomplete
          rw [hobject']
          exact .pure htype.symm
  | bigFloat | bigDecimal | typedArray | arrayBuffer | sharedArrayBuffer | date | objectValue => exact .throw

end

/-- With more depth to go, no value is lost. -/
theorem shadows_value {depth depth'} (h : depth ≤ depth') :
    Shadows more o (Read.value depth) (Read.value depth') SameType := by
  induction depth generalizing depth' with
  | zero => exact .fail
  | succ depth ih =>
    obtain ⟨depth', rfl⟩ : ∃ d, depth' = d + 1 := ⟨depth' - 1, by omega⟩
    have hinner := ih (Nat.le_of_succ_le_succ h)
    rw [Read.value, Read.value]
    apply Shadows.look
    intro r r' hstep
    rw [hstep.pos]
    apply takes_byte.shadows.bind_same
    intro b
    split
    · exact shadows_content hinner _ _
    · exact .throw

/-! ## Whole objects -/

/-- Reads up to the end of the value that the bytes start with. -/
def scan (o : ReadOptions) (t : AtomTable) (bytes : Bytes) : Result (Value × ReadState) :=
  ((do Read.head; Read.value (bytes.length + 1)).run o).run ⟨bytes, 0, t, #[], #[]⟩

theorem decode_eq_ok_iff {t' v} :
    decode bytes t o = .ok (v, t') ↔ ∃ s, scan o t bytes = .ok (v, s) ∧ s.rest = [] ∧ s.table = t' := by
  have hscan : ((Read.object bytes.length).run o).run ⟨bytes, 0, t, #[], #[]⟩ = (do
      let found ← scan o t bytes
      if found.2.rest.isEmpty then return found else .error (.unreadable .trailingBytes found.2.pos)) := by
    simp only [Read.object, scan, ReaderT.run_bind, StateT.run_bind, bind_assoc]
    congr 1
    funext x
    congr 1
    funext found
    cases hrest : found.2.rest with
    | nil => simp [hrest]
    | cons b rest =>
      simp [hrest]
      rfl
  unfold decode
  rw [hscan]
  cases scan o t bytes with
  | error e => simp [bind, Except.bind]
  | ok x =>
    obtain ⟨w, s⟩ := x
    cases hrest : s.rest with
    | nil => simp [hrest, pure, Except.pure]
    | cons b rest => simp [hrest, bind, Except.bind]

/-- Bytes that are read as an object. -/
def Accepts (o : ReadOptions) (t : AtomTable) (bytes : Bytes) : Prop :=
  ∃ result, decode bytes t o = .ok result

instance (t : AtomTable) (bytes : Bytes) : Decidable (Accepts o t bytes) :=
  match h : decode bytes t o with
  | .ok result => isTrue ⟨result, h⟩
  | .error _ => isFalse fun ⟨_, hok⟩ => nomatch h.symm.trans hok

theorem accepts_iff : Accepts o t bytes ↔ ∃ v s, scan o t bytes = .ok (v, s) ∧ s.rest = [] := by
  constructor
  · rintro ⟨⟨v, t'⟩, hdecode⟩
    obtain ⟨s, hscan, hrest, -⟩ := decode_eq_ok_iff.mp hdecode
    exact ⟨v, s, hscan, hrest⟩
  · rintro ⟨v, s, hscan, hrest⟩
    exact ⟨(v, s.table), decode_eq_ok_iff.mpr ⟨s, hscan, hrest, rfl⟩⟩

/-- An object with more behind it is read to its end, where the rest begins, whatever the table is. -/
theorem Accepts.scan (h : Accepts o t bytes) (t' : AtomTable) (more : Bytes) :
    ∃ v s, scan o t' (bytes ++ more) = .ok (v, s) ∧ s.rest = more := by
  obtain ⟨v, s, hscan, hrest⟩ := accepts_iff.mp h
  have hshadows : Shadows more o (do Read.head; Read.value (bytes.length + 1))
      (do Read.head; Read.value ((bytes ++ more).length + 1)) SameType := by
    apply shadows_head.bind
    intro _ _ _
    exact shadows_value (by simp)
  have hstart : InStep more ⟨bytes, 0, t, #[], #[]⟩ ⟨bytes ++ more, 0, t', #[], #[]⟩ := ⟨rfl, rfl, rfl, rfl⟩
  obtain ⟨w, s', hscan', -, hstep⟩ := hshadows _ _ hstart v s hscan
  refine ⟨w, s', hscan', ?_⟩
  rw [hstep.rest, hrest, List.nil_append]

theorem accepts_append_iff (h : Accepts o t bytes) (t' : AtomTable) : Accepts o t' (bytes ++ more) ↔ more = [] := by
  obtain ⟨v, s, hscan, hrest⟩ := h.scan t' more
  rw [accepts_iff, hscan]
  constructor
  · rintro ⟨v', s', hsame, hnil⟩
    cases hsame
    exact hrest.symm.trans hnil
  · intro hnil
    exact ⟨v, s, rfl, hrest.trans hnil⟩

/-- Whether bytes are an object does not depend on the table that they are read into, and neither a proper beginning
nor a proper continuation of an object is one. -/
theorem accepts_exactly (o : ReadOptions) (t : AtomTable) (bytes : Bytes) :
    (∀ t', Accepts o t' bytes ↔ Accepts o t bytes) ∧
      (Accepts o t bytes → ∀ other, other <+: bytes ∨ bytes <+: other → other ≠ bytes → ¬Accepts o t other) := by
  constructor
  · have hmove : ∀ t₁ t₂, Accepts o t₁ bytes → Accepts o t₂ bytes := by
      intro t₁ t₂ h
      have happend : Accepts o t₂ (bytes ++ []) := (accepts_append_iff h t₂).mpr rfl
      rwa [List.append_nil] at happend
    exact fun t' => ⟨hmove t' t, hmove t t'⟩
  · rintro h other (⟨more, rfl⟩ | ⟨more, rfl⟩) hne hother
    · obtain rfl := (accepts_append_iff hother t).mp h
      exact hne (List.append_nil _).symm
    · obtain rfl := (accepts_append_iff h t).mp hother
      exact hne (List.append_nil _)

/-- Two items, one of them a reference to the other, behind a name that nothing uses. -/
def sharedItems : Bytes :=
  [2, 1, 2, 0x78, Tag.array.byte, 2, Tag.array.byte, 0, Tag.reference.byte, 1]

theorem accepts_exactly_sharedItems :
    Accepts ⟨true⟩ .initial sharedItems ∧ ¬Accepts ⟨true⟩ .initial (sharedItems.take 9) ∧
      ¬Accepts ⟨true⟩ .initial (sharedItems ++ [Tag.null.byte]) := by
  have haccepts : Accepts ⟨true⟩ .initial sharedItems := by decide +kernel
  have hexact := (accepts_exactly ⟨true⟩ .initial sharedItems).2 haccepts
  refine ⟨haccepts, ?_, ?_⟩
  · exact hexact _ (.inl (List.take_prefix 9 _)) (by decide)
  · exact hexact _ (.inr (List.prefix_append _ _)) (by decide)

end ScriptBytecode.Object
