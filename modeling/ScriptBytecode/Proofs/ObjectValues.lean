import ScriptBytecode.Proofs.ObjectRecords

/-!
# Values, read back

What a writer makes of a value is read back as a copy of it, without the debug information that was stripped. The
argument follows the structure of values. An array, object or template never contains itself, so that at a reference
to it the reader has it complete.
-/

namespace ScriptBytecode.Object

variable {p : Passage} {inside : List Nat} {raws raws' : Nat}

variable {id pos n k : Nat} {objects objects' : Objects} {v w : Value} {α : Type} {links : Links} {atoms : Array Atom}
  {o : ReadOptions} {write : Write Bytes} {before : Bytes}

/-! ## Tags -/

theorem Tag.ofByte?_byte (t : Tag) : Tag.ofByte? t.byte.toNat = some t := by
  cases t <;> rfl

theorem gives_value {depth bytes tag}
    (h : Gives o atoms (Read.content (Read.value depth) pos tag) (pos + 1) objects bytes v objects') :
    Gives o atoms (Read.value (depth + 1)) pos objects (tag.byte :: bytes) v objects' := by
  intro rest table
  have hcontent := h rest table
  have hbyte := parses_byte tag.byte o (bytes ++ rest) pos table atoms objects
  have htag := Tag.ofByte?_byte tag
  have hlen : pos + (tag.byte :: bytes).length = pos + 1 + bytes.length := by
    rw [List.length_cons]
    omega
  rw [Read.value]
  simp only [ReaderT.run_bind, StateT.run_bind, Read.run_get, ok_bind]
  rw [show tag.byte :: bytes ++ rest = [tag.byte] ++ (bytes ++ rest) from rfl, hbyte, ok_bind, hlen]
  simp only [htag]
  exact hcontent

/-- A value is read back if its content is, wherever its tag stands. -/
theorem value_of_content (tag : Tag) {ok} (h : ∀ start,
      ReadsBack p inside raws raws' [tag.byte] write (fun depth => Read.content (Read.value depth) start tag) ok) :
    ReadsBack p inside raws raws' [] write Read.value ok := by
  intro s out s' hrun hs
  obtain ⟨new, rfl, hs', hgrows, -⟩ := h 0 s out s' hrun hs
  refine ⟨tag.byte :: new, rfl, hs', hgrows, ?_⟩
  intro atoms hatoms pos objects links depth htracks hdepth
  rw [List.length_cons] at hdepth
  obtain ⟨depth, rfl⟩ : ∃ d, depth = d + 1 := ⟨depth - 1, by omega⟩
  obtain ⟨new', hnew, -, -, hread⟩ := h pos s _ s' hrun hs
  obtain rfl := List.append_cancel_left hnew
  obtain ⟨a, objects', links', hgives, hlinks, ha, htracks'⟩ :=
    hread atoms hatoms (pos + 1) objects links depth (htracks.move (Nat.le_succ _)) (by omega)
  refine ⟨a, objects', links', gives_value hgives, hlinks, ha, ?_⟩
  rwa [List.length_cons, Nat.add_comm new.length, ← Nat.add_assoc]

/-! ## Functions -/

theorem parses_flags (flags : FunctionFlags) (kind : FunctionKind) :
    Parses (Read.bytes 2) (leBytes 2 (flags.pack kind)) (leBytes 2 (flags.pack kind)) := by
  have h := parses_bytes (leBytes 2 (flags.pack kind))
  rwa [length_leBytes] at h

theorem unpack_leBytes (flags : FunctionFlags) (kind : FunctionKind) :
    FunctionFlags.unpack (ofLeBytes (leBytes 2 (flags.pack kind))) = (flags, kind) := by
  rw [ofLeBytes_leBytes, Nat.mod_eq_of_lt (pack_lt flags kind), unpack_pack]

theorem parses_lift {x : Result α} {a : α} (h : x = .ok a) : Parses (liftM x) [] a := by
  subst h
  exact fun _ _ _ _ _ _ => rfl

/-- Code that is no code is not written. -/
theorem ReadsBack.decoded {code next} {read : Nat → Read α} {ok} (h : ∀ instrs, decodeFinal code = .ok instrs →
      ReadsBack p inside raws raws' before (Write.code code >>= next) read ok) :
    ReadsBack p inside raws raws' before (Write.code code >>= next) read ok := by
  intro s out s' hrun
  obtain ⟨_, _, hcode, -⟩ := Write.run_bind_eq_ok.mp hrun
  obtain ⟨instrs, hdecode, -⟩ := run_code_eq_ok.mp hcode
  exact h instrs hdecode s out s' hrun

/-- A cache can be made of code, whatever its atoms are. -/
theorem ofCode_recode {code instrs} (h : decodeFinal code = .ok instrs) (f : Atom → Nat) :
    InlineCache.ofCode (recode f code) = .ok (.of (recode f code)) := by
  obtain ⟨instrs', hdecode⟩ := exists_decodeFinal_recode h f
  have hcache : InlineCache.ofCode (recode f code) = .ok ((instrs'.filterMap (InlineCache.access? ·.instr)).foldl
      InlineCache.add []) := bind_eq_ok.mpr ⟨instrs', hdecode, rfl⟩
  rw [InlineCache.of, hcache]
  rfl

theorem function_readsBack {f : FunctionRecord} (hf : f.HeadFits p.Admits)
    (hconstants : ReadsBack p inside raws raws [] (Write.values f.constants)
      (fun depth => Read.many (Read.value depth) f.constants.length #[])
      (fun I ws => mirrorsAll I (storedAll p.env.options p.rename f.constants) ws.toList)) :
    ReadsBack p inside raws raws [Tag.function.byte] (Write.function f)
      (fun depth => Read.function (Read.value depth))
      (fun I g => (f.stored p.env.options p.rename).Mirrors I g) := by
  obtain ⟨name, flags, kind, mode, args, vars, defined, stack, slotVars, closure, code, debug,
    constants, cache⟩ := f
  obtain ⟨hname, hmode, hargs, hvars, hdefined, hstack, hslotVars, hclosure, hcode, hdebug⟩ := hf
  simp only at *
  rw [Write.function]
  unfold Write.functionHead Read.function
  by_cases hslots : slotVars.length = args + vars
  · simp only [hslots, ne_eq, not_true_eq_false, if_false, bind_assoc, pure_bind]
    refine .readEnv ?_
    refine .piece (parses_flags { flags with hasDebug := (p.env.options.shown debug).isSome } kind) ?_
    simp only [unpack_leBytes]
    refine .piece (parses_toUInt8 hmode) ?_
    refine (atom_readsBack hname).bind_eq fun nameBytes => ?_
    refine .piece (parses_leb16 _ hargs) ?_
    refine .piece (parses_leb16 _ hvars) ?_
    refine .piece (parses_leb16 _ hdefined) ?_
    refine .piece (parses_leb16 _ hstack) ?_
    refine .count fun hclosureCount => ?_
    refine .piece (parses_leb hclosureCount) ?_
    refine .count fun hconstantCount => ?_
    refine .piece (parses_leb hconstantCount) ?_
    refine .count fun hcodeSize => ?_
    refine .piece (parses_leb hcodeSize) ?_
    refine (slotVars_readsBack hslots hslotVars).bind_eq fun slotBytes => ?_
    refine many_readsBack rfl (fun v hv => closureVar_readsBack (hclosure v hv)) fun closureBytes => ?_
    refine .decoded fun instrs hdecode => ?_
    refine (code_readsBack hcode).bind_eq fun codeBytes => ?_
    refine (debug?_readsBack ?_).bind_eq fun debugBytes => ?_
    · intro d hd
      split at hd
      · cases hd
      · exact hdebug d hd
    refine hconstants.bind ⟨(storedAll p.env.options p.rename constants).toArray, Eq, by simp [mirrorsAll_refl]⟩ ?_
    rintro constantBytes ws -
    refine .piece (parses_lift (ofCode_recode hdecode _)) ?_
    refine .done (by simp [Object.WriteOptions.shown]) fun I hws => ?_
    exact ⟨rfl, hws⟩
  · simp only [hslots, ne_eq, not_false_eq_true, if_true]
    exact .fail_bind

/-! ## Modules -/

/-- A list whose items are read one after the other, behind its length. -/
theorem counted_bind {β : Type} {item : Nat → Read α} {next : Bytes → Write Bytes} {readNext : List α → Nat → Read β}
    (ok : (Nat → Nat → Prop) → List α → Prop) {ok' : (Nat → Nat → Prop) → β → Prop} (hn : n < 0x100000000)
    (h : ReadsBack p inside raws raws [] write (fun depth => Read.many (item depth) n #[])
      (fun I items => ok I items.toList)) (hsome : ∃ items I, ok I items)
    (hnext : ∀ bytes items,
      ReadsBack p inside raws raws' (before ++ Leb128.write n ++ bytes) (next bytes) (readNext items)
      (fun I b => ok I items → ok' I b)) :
    ReadsBack p inside raws raws' before (write >>= next) (fun depth => Read.counted (item depth) >>= fun items =>
      readNext items depth) ok' := by
  unfold Read.counted
  simp only [bind_assoc, pure_bind]
  refine .piece (parses_leb hn) ?_
  obtain ⟨items, I, hitems⟩ := hsome
  exact h.bind ⟨items.toArray, I, by simpa using hitems⟩ fun bytes items _ => hnext bytes items.toList

theorem module_readsBack {m : ModuleRecord} (hm : m.HeadFits p.Admits)
    (hrequires : ReadsBack p inside raws raws [] (Write.properties m.requires)
      (fun depth => Read.many (Read.property (Read.value depth)) m.requires.length #[])
      (fun I ps => mirrorsProps I (storedProps p.env.options p.rename m.requires) ps.toList))
    (hbody : ReadsBack p inside raws raws [Tag.function.byte] (Write.function m.body)
      (fun depth => Read.function (Read.value depth))
      (fun I g => (m.body.stored p.env.options p.rename).Mirrors I g)) :
    ReadsBack p inside raws raws [Tag.module.byte] (Write.module m)
      (fun depth => Read.module (Read.value depth)) (fun I n => (m.stored p.env.options p.rename).Mirrors I n) := by
  obtain ⟨name, requires, exports, stars, imports, body⟩ := m
  obtain ⟨hname, hexports, hstars, himports⟩ := hm
  simp only at *
  have hvalue : ReadsBack p inside raws raws [] (Write.function body) Read.value
      (fun I w => ∃ start g, w = .function start g ∧ (body.stored p.env.options p.rename).Mirrors I g) :=
    value_of_content .function fun start => hbody.mapRead fun I g hg => ⟨start, g, rfl, hg⟩
  rw [Write.module]
  unfold Read.module
  refine (atom_readsBack hname).bind_eq fun nameBytes => ?_
  refine .count fun hrequireCount => ?_
  refine counted_bind (fun I ps => mirrorsProps I (storedProps p.env.options p.rename requires) ps) hrequireCount
    hrequires ⟨_, Eq, mirrorsProps_refl _⟩ fun requireBytes ps => ?_
  refine .count fun hexportCount => ?_
  refine counted_readsBack hexportCount (fun e he => export_readsBack (hexports e he)) fun exportBytes => ?_
  refine .count fun hstarCount => ?_
  refine .piece (parses_counted hstarCount fun n hn => parses_leb (hstars n hn)) ?_
  refine .count fun himportCount => ?_
  refine counted_readsBack himportCount (fun i hi => import_readsBack (himports i hi)) fun importBytes => ?_
  refine hvalue.bind ⟨.function 0 (body.stored p.env.options p.rename), Eq, 0, _, rfl,
    FunctionRecord.mirrors_refl _⟩ ?_
  rintro bodyBytes _ ⟨_, start, g, rfl, -⟩
  refine .done (by simp) ?_
  rintro I ⟨_, _, heq, hg⟩ hps
  cases heq
  exact ⟨rfl, hps, rfl, rfl, rfl, hg⟩

/-! ## Big integers and floating point -/

/-- A number of one byte more: the new byte is the lowest one. -/
theorem signedWord_byte {b m} (hk : 0 < k) (hb : b < 256) :
    signedWord (8 * (k + 1)) (b + 256 * m) = b + 256 * signedWord (8 * k) m := by
  have hhalf : Nat.pow 2 (8 * (k + 1) - 1) = 256 * Nat.pow 2 (8 * k - 1) := by
    rw [show 8 * (k + 1) - 1 = 8 + (8 * k - 1) by omega]
    exact Nat.pow_add 2 8 (8 * k - 1)
  have hall : Nat.pow 2 (8 * (k + 1)) = 256 * Nat.pow 2 (8 * k) := by
    rw [show 8 * (k + 1) = 8 + 8 * k by omega]
    exact Nat.pow_add 2 8 (8 * k)
  unfold signedWord
  rw [hhalf, hall]
  split <;> split <;> omega

theorem signedBytes_length_pos (fuel : Nat) (n : Int) : 0 < (signedBytes fuel n).length := by
  cases fuel with
  | zero => exact Nat.one_pos
  | succ fuel =>
    rw [signedBytes]
    split <;> simp

theorem fitsSigned_div {fuel n} (h : fitsSigned (8 * (fuel + 2)) n) : fitsSigned (8 * (fuel + 1)) (n / 256) := by
  have hhalf : Nat.pow 2 (8 * (fuel + 2) - 1) = 256 * Nat.pow 2 (8 * (fuel + 1) - 1) := by
    rw [show 8 * (fuel + 2) - 1 = 8 + (8 * (fuel + 1) - 1) by omega]
    exact Nat.pow_add 2 8 (8 * (fuel + 1) - 1)
  simp only [fitsSigned, Bool.and_eq_true, decide_eq_true_eq] at h ⊢
  omega

theorem signedWord_signedBytes (fuel : Nat) (n : Int) (h : fitsSigned (8 * (fuel + 1)) n) :
    signedWord (8 * (signedBytes fuel n).length) (ofLeBytes (signedBytes fuel n)) = n := by
  have hbyte : (n % 256).toNat < 256 := by omega
  induction fuel generalizing n with
  | zero =>
    simp only [fitsSigned, Bool.and_eq_true, decide_eq_true_eq] at h
    have h7 : Nat.pow 2 7 = 128 := rfl
    have h8 : Nat.pow 2 8 = 256 := rfl
    simp only [signedBytes, ofLeBytes, List.length_singleton, Leb128.toNat_toUInt8 hbyte, signedWord,
      Nat.mul_one, Nat.mul_zero, Nat.add_zero, h7, h8] at h ⊢
    split <;> omega
  | succ fuel ih =>
    rw [signedBytes]
    split
    · rename_i hlast
      have h7 : Nat.pow 2 7 = 128 := rfl
      have h8 : Nat.pow 2 8 = 256 := rfl
      simp only [Bool.or_eq_true, Bool.and_eq_true, decide_eq_true_eq] at hlast
      simp only [ofLeBytes, List.length_singleton, Leb128.toNat_toUInt8 hbyte, signedWord,
        Nat.mul_one, Nat.mul_zero, Nat.add_zero, h7, h8]
      split <;> omega
    · rw [List.length_cons, ofLeBytes, Leb128.toNat_toUInt8 hbyte,
        signedWord_byte (signedBytes_length_pos _ _) hbyte, ih _ (fitsSigned_div h) (by omega)]
      omega

theorem ofBigIntBytes_bigIntBytes (n : Int) : ofBigIntBytes (bigIntBytes n) = n := by
  unfold ofBigIntBytes bigIntBytes
  split
  · simp_all
  · have hpos := signedBytes_length_pos (n.natAbs.log2 / 8 + 1) n
    have hne : (signedBytes (n.natAbs.log2 / 8 + 1) n).isEmpty = false := by
      cases hbytes : signedBytes (n.natAbs.log2 / 8 + 1) n with
      | nil => simp [hbytes] at hpos
      | cons => rfl
    rw [hne]
    refine signedWord_signedBytes _ n ?_
    have hlog : n.natAbs < Nat.pow 2 (n.natAbs.log2 + 1) := Nat.lt_log2_self
    have hmono : Nat.pow 2 (n.natAbs.log2 + 1) ≤ Nat.pow 2 (8 * (n.natAbs.log2 / 8 + 1 + 1) - 1) :=
      Nat.pow_le_pow_right (by omega) (by omega)
    simp only [fitsSigned, Bool.and_eq_true, decide_eq_true_eq]
    omega

/-- A number takes no more bytes than it fits into. -/
theorem length_signedBytes_le (fuel : Nat) {n} (h : fitsSigned (8 * (k + 1)) n) :
    (signedBytes fuel n).length ≤ k + 1 := by
  induction fuel generalizing k n with
  | zero => exact Nat.le_add_left 1 k
  | succ fuel ih =>
    rw [signedBytes]
    split
    · exact Nat.le_add_left 1 k
    · rename_i hmore
      cases k with
      | zero =>
        have h7 : (Nat.pow 2 (8 * (0 + 1) - 1) : Nat) = 128 := rfl
        simp only [fitsSigned, h7, Bool.and_eq_true, decide_eq_true_eq] at h
        simp only [Bool.or_eq_true, Bool.and_eq_true, decide_eq_true_eq] at hmore
        omega
      | succ k => exact Nat.succ_le_succ (ih (fitsSigned_div h))

theorem length_bigIntBytes_le (bytes : Bytes) : (bigIntBytes (ofBigIntBytes bytes)).length ≤ bytes.length := by
  unfold bigIntBytes
  split
  · exact Nat.zero_le _
  · rename_i hne
    cases bytes with
    | nil => exact absurd rfl hne
    | cons b rest =>
      apply length_signedBytes_le
      apply fitsSigned_signedWord (by omega)
      have hlt := ofLeBytes_lt (b :: rest)
      rwa [pow_256] at hlt

theorem parses_float (n : UInt64) : Parses (Read.bytes 8) (leBytes 8 n.toNat) (leBytes 8 n.toNat) := by
  have h := parses_bytes (leBytes 8 n.toNat)
  rwa [length_leBytes] at h

theorem ofLeBytes_toUInt64 (n : UInt64) : (ofLeBytes (leBytes 8 n.toNat)).toUInt64 = n := by
  have hlt : n.toNat < Nat.pow 256 8 := n.toNat_lt
  rw [ofLeBytes_leBytes, Nat.mod_eq_of_lt hlt]
  exact UInt64.ofNat_toNat

/-! ## Shared objects -/

variable {s : WriteState}

theorem Sound.length_objects_le (h : Sound p raws s) (hallow : p.env.options.allowReference) :
    s.count ≤ 2 * p.heap.length := by
  obtain ⟨hnodup, hsub, hcount⟩ := h.budget hallow
  have hlen := (hnodup.subperm hsub).length_le
  simp only [List.length_map] at hlen
  omega

theorem lookup_eq_none_iff {objects : List (Nat × Nat)} : objects.lookup id = none ↔ id ∉ objects.map Prod.fst := by
  rw [List.lookup_eq_none_iff]
  simp only [List.mem_map, not_exists, not_and, bne_iff_ne]
  constructor
  · intro h p hp heq
    exact h p hp heq.symm
  · intro h p hp heq
    exact h p hp heq.symm

theorem mem_of_lookup {heap : List (Nat × Value)} (h : heap.lookup id = some v) : id ∈ heap.map Prod.fst := by
  obtain ⟨before, after, rfl, -⟩ := List.lookup_eq_some_iff.mp h
  simp

/-- The state with one more object. -/
def WriteState.register (s : WriteState) (id : Nat) : WriteState :=
  { s with objects := (id, s.count) :: s.objects, count := s.count + 1 }

theorem lookup_register (s : WriteState) (id id' : Nat) :
    (s.register id).objects.lookup id'
      = if id' = id then some s.count else s.objects.lookup id' := by
  unfold WriteState.register
  rw [List.lookup_cons]
  by_cases h : id' = id
  · simp [h]
  · have hne : (id' == id) = false := by simpa using h
    simp [h, hne]

theorem Sound.register (h : Sound p raws s) (hid : p.heap.lookup id = some v)
    (hnew : p.env.options.allowReference → s.objects.lookup id = none) :
    Sound p (raws + 1) (s.register id) where
  nodup := h.nodup
  admitted := h.admitted
  listed := h.listed
  budget := by
    intro hallow
    obtain ⟨hnodup, hsub, hcount⟩ := h.budget hallow
    refine ⟨?_, ?_, ?_⟩
    · exact List.nodup_cons.mpr ⟨lookup_eq_none_iff.mp (hnew hallow), hnodup⟩
    · intro id' hid'
      rcases List.mem_cons.mp hid' with rfl | hid'
      · exact mem_of_lookup hid
      · exact hsub id' hid'
    · simp only [WriteState.register, List.length_cons]
      omega

variable {s' : WriteState}

theorem Grows.register (hnot : id ∉ inside) (h : Grows (id :: inside) (s.register id) s') : Grows inside s s' where
  atoms := h.atoms
  count := Nat.le_of_succ_le h.count
  kept := by
    intro id' hid'
    rw [h.kept id' (List.mem_cons_of_mem _ hid'), lookup_register, if_neg]
    rintro rfl
    exact hnot hid'
  fresh := by
    intro id' k hk
    rcases h.fresh id' k hk with hk | hk
    · rw [lookup_register] at hk
      split at hk
      · exact .inr (Option.some.inj hk).le
      · exact .inl hk
    · exact .inr (Nat.le_of_succ_le hk)

theorem getElem?_push_of_some (h : objects[k]? = some (some w)) : (objects.push none)[k]? = some (some w) := by
  obtain ⟨hlt, -⟩ := Array.getElem?_eq_some_iff.mp h
  rw [Array.getElem?_push_lt hlt, ← h, Array.getElem?_eq_getElem hlt]

/-- A new object is linked to the one whose tag the reader is at. -/
theorem Tracks.register (h : Tracks p inside s pos objects links)
    (hnew : p.env.options.allowReference → s.objects.lookup id = none) :
    Tracks p (id :: inside) (s.register id) (pos + 1) (objects.push none) ((id, pos) :: links) where
  size := by simp [WriteState.register, h.size]
  below := by
    intro id' k hk
    rw [lookup_register] at hk
    change k < s.count + 1
    split at hk
    · cases hk
      omega
    · have := h.below id' k hk
      omega
  inj := by
    intro id₁ id₂ k h₁ h₂
    rw [lookup_register] at h₁ h₂
    split at h₁
    · split at h₂
      · omega
      · cases h₁
        have := h.below _ _ h₂
        omega
    · split at h₂
      · cases h₂
        have := h.below _ _ h₁
        omega
      · exact h.inj _ _ _ h₁ h₂
  complete := by
    intro id' k hk
    rw [lookup_register] at hk
    split at hk
    · rename_i heq
      exact .inl (by simp [heq])
    · rcases h.complete id' k hk with hin | ⟨v, w, hv, hw, hmirrors⟩
      · exact .inl (List.mem_cons_of_mem _ hin)
      · refine .inr ⟨v, w, hv, getElem?_push_of_some hw, ?_⟩
        intro I hI
        exact hmirrors I (hI.mono (List.subset_cons_self _ _))
  met := by
    intro link hlink
    rw [lookup_register]
    rcases List.mem_cons.mp hlink with rfl | hlink
    · simp
    · obtain ⟨hlt, hsome⟩ := h.met link hlink
      refine ⟨Nat.lt_succ_of_lt hlt, ?_⟩
      split
      · rfl
      · exact hsome
  paired := by
    intro hallow
    -- an old link has an identity that was met, and an offset before this one
    have hother : ∀ link ∈ links, link.1 ≠ id ∧ link.2 ≠ pos := by
      intro link hlink
      obtain ⟨hlt, hsome⟩ := h.met link hlink
      refine ⟨?_, hlt.ne⟩
      intro heq
      rw [heq, hnew hallow] at hsome
      cases hsome
    intro link hlink link' hlink'
    rcases List.mem_cons.mp hlink with rfl | hlink
    · rcases List.mem_cons.mp hlink' with rfl | hlink'
      · simp
      · have hne := hother link' hlink'
        exact ⟨fun heq => absurd heq.symm hne.1, fun heq => absurd heq.symm hne.2⟩
    · rcases List.mem_cons.mp hlink' with rfl | hlink'
      · have hne := hother link hlink
        exact ⟨fun heq => absurd heq hne.1, fun heq => absurd heq hne.2⟩
      · exact h.paired hallow link hlink link' hlink'

/-- Once its content is read, an object is complete. -/
theorem Tracks.complete_register (h : Tracks p (id :: inside) s' pos objects links)
    (hgrows : Grows (id :: inside) (s.register id) s') (hid : p.heap.lookup id = some v)
    (hw : ∀ I, links.Within I → (p.copy v).Mirrors I w) :
    Tracks p inside s' pos (objects.setIfInBounds s.count (some w)) links := by
  have hown : s'.objects.lookup id = some s.count := by
    rw [hgrows.kept id List.mem_cons_self, lookup_register, if_pos rfl]
  refine ⟨by simp [h.size], h.below, h.inj, ?_, h.met, h.paired⟩
  intro id' k hk
  by_cases heq : id' = id
  · subst heq
    rw [hown] at hk
    cases hk
    have hlt := h.below _ _ hown
    exact .inr ⟨v, w, hid, by simp [h.size, hlt], hw⟩
  · have hne : s.count ≠ k := by
      rintro rfl
      exact heq (h.inj _ _ _ hk hown)
    rcases h.complete id' k hk with hin | ⟨v', w', hv', hw', hmirrors⟩
    · exact .inl ((List.mem_cons.mp hin).resolve_left heq)
    · refine .inr ⟨v', w', hv', ?_, hmirrors⟩
      rw [Array.getElem?_setIfInBounds_ne hne]
      exact hw'

theorem run_register {env} (id : Nat) (s : WriteState) :
    ((Write.register id).run env).run s =
      match (if env.options.allowReference then s.objects.lookup id else none) with
      | some index => .ok (some index, s)
      | none => .ok (none, s.register id) := by
  unfold Write.register
  simp only [ReaderT.run_bind, StateT.run_bind, Write.run_get, Write.run_read, ok_bind]
  cases (if env.options.allowReference then s.objects.lookup id else none) <;> rfl

/-- A reference is read as the object that it refers to. -/
theorem gives_reference {depth} (hallow : o.allowReference) (hk : k < 0x100000000) (hw : objects[k]? = some (some w)) :
    Gives o atoms (Read.value (depth + 1)) pos objects (Tag.reference.byte :: Leb128.write k) w objects := by
  apply gives_value
  intro rest table
  have hleb := parses_leb hk o rest (pos + 1) table atoms objects
  unfold Read.content
  simp [hallow, hleb, hw]
  rfl

theorem gives_reserve {bytes} {next : Nat → Read α} {a}
    (h : Gives o atoms (next objects.size) pos (objects.push none) bytes a objects') :
    Gives o atoms (Read.reserve >>= next) pos objects bytes a objects' :=
  h

theorem gives_complete (slot : Nat) (v : Value) :
    Gives o atoms (Read.complete slot v) pos objects [] v (objects.setIfInBounds slot (some v)) :=
  fun _ _ => rfl

/-- An object is read back if its content is, and so is every further occurrence of it. -/
theorem shared_readsBack (tag : Tag) {body} (inner : Nat → Nat → Read Value) (hid : p.heap.lookup id = some v)
    (hnot : id ∉ inside) (hcontent : ∀ value start, Read.content (Read.value value) start tag = do
      let slot ← Read.reserve
      let w ← inner start value
      Read.complete slot w) (hbody : ∀ start, ReadsBack p (id :: inside) (raws + 1) raws [tag.byte] body (inner start)
      (fun I w => I id start → (p.copy v).Mirrors I w)) :
    ReadsBack p inside raws raws [] (Write.shared id body) Read.value (fun I w => (p.copy v).Mirrors I w) := by
  intro s out s' hrun hs
  unfold Write.shared at hrun
  obtain ⟨found, s₁, hregister, hrun⟩ := Write.run_bind_eq_ok.mp hrun
  rw [run_register] at hregister
  cases hfound : (if p.env.options.allowReference then s.objects.lookup id else none) with
  | some k =>
    -- the object was met before
    have hallow : p.env.options.allowReference := by
      by_contra hnot
      rw [if_neg hnot] at hfound
      cases hfound
    rw [hfound] at hregister
    cases hregister
    cases hrun
    rw [if_pos hallow] at hfound
    refine ⟨Tag.reference.byte :: Leb128.write k, rfl, hs, .refl _ _, ?_⟩
    intro atoms _ pos objects links depth htracks hdepth
    rw [List.length_cons] at hdepth
    obtain ⟨depth, rfl⟩ : ∃ d, depth = d + 1 := ⟨depth - 1, by omega⟩
    have hlt := htracks.below id k hfound
    have hcount := hs.length_objects_le hallow
    have hsmall := p.small hallow
    obtain ⟨v', w, hv', hw, hmirrors⟩ := (htracks.complete id k hfound).resolve_left hnot
    rw [hid] at hv'
    obtain rfl := Option.some.inj hv'
    exact ⟨w, objects, links, gives_reference (p.allows hallow) (by omega) hw, List.Subset.refl _, hmirrors,
      htracks.move (Nat.le_add_right _ _)⟩
  | none =>
    have hnew : p.env.options.allowReference = true → s.objects.lookup id = none := by
      intro hallow
      rwa [if_pos hallow] at hfound
    rw [hfound] at hregister
    cases hregister
    have hs₁ := hs.register hid hnew
    obtain ⟨new, rfl, hs', hgrows, -⟩ := hbody 0 _ out s' hrun hs₁
    refine ⟨tag.byte :: new, rfl, hs', hgrows.register hnot, ?_⟩
    intro atoms hatoms pos objects links depth htracks hdepth
    rw [List.length_cons] at hdepth
    obtain ⟨depth, rfl⟩ : ∃ d, depth = d + 1 := ⟨depth - 1, by omega⟩
    obtain ⟨new', hnew', -, -, hread⟩ := hbody pos _ _ s' hrun hs₁
    obtain rfl := List.append_cancel_left hnew'
    obtain ⟨w, objects', links', hgives, hlinks, hw, htracks'⟩ :=
      hread atoms hatoms (pos + 1) _ _ depth (htracks.register hnew) (by omega)
    have hmirrors : ∀ I, links'.Within I → (p.copy v).Mirrors I w := by
      intro I hI
      exact hw I hI (hI (id, pos) (hlinks List.mem_cons_self))
    refine ⟨w, objects'.setIfInBounds s.count (some w), links', gives_value ?_,
      fun link hlink => hlinks (List.mem_cons_of_mem _ hlink), hmirrors, ?_⟩
    · rw [hcontent, ← htracks.size]
      exact gives_reserve (hgives.bind_nil (gives_complete _ _))
    · rw [List.length_cons, Nat.add_comm new.length, ← Nat.add_assoc]
      exact htracks'.complete_register hgrows hid hmirrors

/-! ## The raw strings of a template -/

/-- The state in which one more index is used up. -/
def WriteState.skip (s : WriteState) : WriteState :=
  { s with count := s.count + 1 }

theorem Sound.skip (h : Sound p (raws + 1) s) : Sound p raws s.skip where
  nodup := h.nodup
  admitted := h.admitted
  listed := h.listed
  budget := by
    intro hallow
    obtain ⟨hnodup, hsub, hcount⟩ := h.budget hallow
    refine ⟨hnodup, hsub, ?_⟩
    change s.count + 1 + raws ≤ 2 * s.objects.length
    omega

theorem Grows.skip (h : Grows inside s.skip s') : Grows inside s s' where
  atoms := h.atoms
  count := Nat.le_of_succ_le h.count
  kept := h.kept
  fresh := fun id k hk => (h.fresh id k hk).imp_right Nat.le_of_succ_le

theorem Tracks.skip (h : Tracks p inside s pos objects links) :
    Tracks p inside s.skip (pos + 1) (objects.push none) links where
  size := by simp [WriteState.skip, h.size]
  below := fun id k hk => Nat.lt_succ_of_lt (h.below id k hk)
  inj := h.inj
  complete := by
    intro id k hk
    rcases h.complete id k hk with hin | ⟨v, w, hv, hw, hmirrors⟩
    · exact .inl hin
    · exact .inr ⟨v, w, hv, getElem?_push_of_some hw, hmirrors⟩
  met := fun link hlink => ⟨Nat.lt_succ_of_lt (h.met link hlink).1, (h.met link hlink).2⟩
  paired := h.paired

/-- No reference sees the slot of an index that was used up. -/
theorem Tracks.complete_skip {pos' links' w} (h : Tracks p inside s pos objects links)
    (h' : Tracks p inside s' pos' objects' links') (hgrows : Grows inside s.skip s') :
    Tracks p inside s' pos' (objects'.setIfInBounds s.count w) links' := by
  refine ⟨by simp [h'.size], h'.below, h'.inj, ?_, h'.met, h'.paired⟩
  intro id k hk
  have hne : s.count ≠ k := by
    rintro rfl
    rcases hgrows.fresh id _ hk with hold | hle
    · exact lt_irrefl _ (h.below id _ hold)
    · exact Nat.not_succ_le_self _ hle
  rw [Array.getElem?_setIfInBounds_ne hne]
  exact h'.complete id k hk

/-- An array that nothing refers to. -/
theorem anonymous_readsBack {body ok} (h : ReadsBack p inside raws raws [Tag.array.byte] body
      (fun depth => Read.counted (Read.value depth)) ok) :
    ReadsBack p inside (raws + 1) raws [] (Write.registerAnonymous >>= fun _ => body) Read.value
      (fun I w => ∃ start items, w = .array start items ∧ ok I items) := by
  intro s out s' hrun hs
  obtain ⟨new, rfl, hs', hgrows, hread⟩ := h s.skip out s' hrun hs.skip
  refine ⟨Tag.array.byte :: new, rfl, hs', hgrows.skip, ?_⟩
  intro atoms hatoms pos objects links depth htracks hdepth
  rw [List.length_cons] at hdepth
  obtain ⟨depth, rfl⟩ : ∃ d, depth = d + 1 := ⟨depth - 1, by omega⟩
  obtain ⟨items, objects', links', hgives, hlinks, hitems, htracks'⟩ :=
    hread atoms hatoms (pos + 1) _ links depth htracks.skip (by omega)
  refine ⟨.array pos items, objects'.setIfInBounds s.count (some (.array pos items)), links', gives_value ?_,
    hlinks, fun I hI => ⟨pos, items, rfl, hitems I hI⟩, ?_⟩
  · unfold Read.content
    rw [← htracks.size]
    exact gives_reserve (hgives.bind_nil (gives_complete _ _))
  · rw [List.length_cons, Nat.add_comm new.length, ← Nat.add_assoc]
    exact htracks.complete_skip htracks' hgrows

/-! ## Values -/

variable (p inside) in
/-- Something of a size is smaller than every object around it. -/
def Outside (n : Nat) : Prop :=
  ∀ id ∈ inside, ∀ v, p.heap.lookup id = some v → n < sizeOf v

theorem Outside.mono {m} (h : Outside p inside n) (hle : m ≤ n) : Outside p inside m :=
  fun id hid v hv => hle.trans_lt (h id hid v hv)

theorem Outside.not_mem (h : Outside p inside (sizeOf v)) (hid : p.heap.lookup id = some v) : id ∉ inside :=
  fun hmem => lt_irrefl _ (h id hmem v hid)

/-- What is inside an object is smaller than it. -/
theorem Outside.enter (h : Outside p inside (sizeOf v)) (hid : p.heap.lookup id = some v) (hlt : n < sizeOf v) :
    Outside p (id :: inside) n := by
  intro id' hid' v' hv'
  rcases List.mem_cons.mp hid' with rfl | hid'
  · rw [hid] at hv'
    cases hv'
    exact hlt
  · exact hlt.trans (h id' hid' v' hv')

theorem ReadsBack.raise {read : Nat → Read α} {ok} (h : ReadsBack p inside raws raws' before write read ok) :
    ReadsBack p inside (raws + 1) raws' before write read ok := by
  intro s out s' hrun hs
  refine h s out s' hrun ⟨hs.nodup, hs.admitted, hs.listed, ?_⟩
  intro hallow
  obtain ⟨hnodup, hsub, hcount⟩ := hs.budget hallow
  exact ⟨hnodup, hsub, by omega⟩

/-- Items behind a tag and their number. -/
theorem tagged_readsBack {item : Nat → Read α} (tag : Tag) {ok : (Nat → Nat → Prop) → List α → Prop}
    (hsome : ∃ items I, ok I items)
    (h : ReadsBack p inside raws raws [] write (fun depth => Read.many (item depth) n #[])
      (fun I items => ∃ new, items = #[] ++ new.toArray ∧ ok I new)) :
    ReadsBack p inside raws raws [tag.byte]
      (do return tag.byte :: (← Write.count n) ++ (← write)) (fun depth => Read.counted (item depth))
      ok := by
  have hitems : ReadsBack p inside raws raws [] write
      (fun depth => Read.many (item depth) n #[]) (fun I items => ok I items.toList) := by
    refine h.weaken ?_
    rintro I _ ⟨new, rfl, hnew⟩
    simpa using hnew
  refine .count fun hn => ?_
  have hcounted : ReadsBack p inside raws raws [tag.byte]
      (write >>= fun bytes => pure (tag.byte :: Leb128.write n ++ bytes))
      (fun depth => Read.counted (item depth) >>= fun items => pure items) ok :=
    counted_bind ok hn hitems hsome fun _ _ => .done (by simp) fun _ hok => hok
  simp only [bind_pure] at hcounted
  exact hcounted

/-- The two arrays of a template. -/
def templateParts (value : Read Value) (start : Nat) : Read Value := do
  let cooked ← Read.counted value
  match ← value with
  | .array _ raw => return .template start cooked raw
  | other => Read.fail (.templateRaw other.typeName)

theorem content_template (value : Read Value) (start : Nat) :
    Read.content value start .template =
      Read.reserve >>= fun slot => templateParts value start >>= Read.complete slot := by
  unfold Read.content templateParts
  simp only [bind_assoc]
  congr 1; funext slot
  congr 1; funext cooked
  congr 1; funext w
  cases w <;> rfl

mutual

theorem value_readsBack : (v : Value) → (inside : List Nat) → (raws : Nat) → v.Fits p.Admits p.heap →
    Outside p inside (sizeOf v) →
    ReadsBack p inside raws raws [] (Write.value v) Read.value (fun I w => (p.copy v).Mirrors I w)
  | .null, _, _, _, _ => value_of_content .null fun _ => .done rfl fun _ => trivial
  | .undefined, _, _, _, _ => value_of_content .undefined fun _ => .done rfl fun _ => trivial
  | .bool false, _, _, _, _ => value_of_content .false fun _ => .done rfl fun _ => rfl
  | .bool true, _, _, _, _ => value_of_content .true fun _ => .done rfl fun _ => rfl
  | .int n, inside, raws, h, _ =>
    value_of_content .int fun _ => .piece (parses_signedLeb h) (.done rfl fun _ => rfl)
  | .float x, inside, raws, _, _ =>
    value_of_content .float fun _ => .piece (parses_float _) (.done rfl fun _ => by
      rw [ofLeBytes_toUInt64]
      exact rfl)
  | .string x, inside, raws, h, _ =>
    value_of_content .string fun _ => .piece (parses_text h) (.done rfl fun _ => rfl)
  | .bigint n, inside, raws, _, _ =>
    value_of_content .bigInt fun _ => .count fun hn => .piece (parses_leb hn) (.piece (parses_bytes _)
      (.done (by simp) fun _ => by
        rw [ofBigIntBytes_bigIntBytes]
        exact rfl))
  | .array id items, inside, raws, h, hout => by
    rw [Value.Fits] at h
    obtain ⟨hid, hitems⟩ := h
    have hinner := values_readsBack items (id :: inside) raws #[] hitems
      (hout.enter hid (by simp only [Value.array.sizeOf_spec]; omega))
    have harray := tagged_readsBack .array ⟨_, Eq, mirrorsAll_refl _⟩ hinner
    rw [Write.value]
    refine shared_readsBack .array
      (fun start depth => Read.counted (Read.value depth) >>= fun items => pure (.array start items))
      hid (hout.not_mem hid) (fun _ _ => ?_) fun start => (harray.mapRead fun I ws hws => ?_).raise
    · simp [Read.content]
    · exact fun hlink => ⟨hlink, hws⟩
  | .object id props, inside, raws, h, hout => by
    rw [Value.Fits] at h
    obtain ⟨hid, hprops⟩ := h
    have hinner := properties_readsBack props (id :: inside) raws #[] hprops
      (hout.enter hid (by simp only [Value.object.sizeOf_spec]; omega))
    have hobject := tagged_readsBack .object ⟨_, Eq, mirrorsProps_refl _⟩ hinner
    rw [Write.value]
    refine shared_readsBack .object
      (fun start depth => Read.counted (Read.property (Read.value depth)) >>= fun props =>
        pure (.object start props))
      hid (hout.not_mem hid) (fun _ _ => ?_) fun start => (hobject.mapRead fun I ps hps => ?_).raise
    · simp [Read.content]
    · exact fun hlink => ⟨hlink, hps⟩
  | .template id cooked raw, inside, raws, h, hout => by
    rw [Value.Fits] at h
    obtain ⟨hid, hcooked, hraw⟩ := h
    have hfirst := values_readsBack cooked (id :: inside) (raws + 1) #[] hcooked
      (hout.enter hid (by simp only [Value.template.sizeOf_spec]; omega))
    have hsecond := values_readsBack raw (id :: inside) raws #[] hraw
      (hout.enter hid (by simp only [Value.template.sizeOf_spec]; omega))
    have hraws := anonymous_readsBack (tagged_readsBack .array ⟨_, Eq, mirrorsAll_refl _⟩ hsecond)
    rw [Write.value]
    refine shared_readsBack .template (fun start depth => templateParts (Read.value depth) start)
      hid (hout.not_mem hid) (fun _ _ => content_template _ _) fun start => .count fun hcookedCount => ?_
    refine counted_bind (fun I ws => mirrorsAll I (storedAll p.env.options p.rename cooked) ws) hcookedCount
      (hfirst.weaken ?_) ⟨_, Eq, mirrorsAll_refl _⟩ fun bytes ws => ?_
    · rintro I _ ⟨new, rfl, hnew⟩
      simpa using hnew
    have hwrite : (do
          Write.registerAnonymous
          return Tag.template.byte :: (Leb128.write cooked.length ++ bytes)
            ++ Tag.array.byte :: (← Write.count raw.length) ++ (← Write.values raw))
        = (Write.registerAnonymous >>= fun _ => do
          return Tag.array.byte :: (← Write.count raw.length) ++ (← Write.values raw)) >>=
          fun more => pure ([Tag.template.byte] ++ Leb128.write cooked.length ++ bytes ++ more) := by
      simp
    rw [hwrite]
    refine hraws.bind ⟨.array 0 (storedAll p.env.options p.rename raw), Eq, 0, _, rfl, mirrorsAll_refl _⟩ ?_
    rintro more _ ⟨_, start', items, rfl, -⟩
    refine .done rfl ?_
    rintro I ⟨_, _, heq, hitems⟩ hws hlink
    cases heq
    exact ⟨hlink, hws, hitems⟩
  | .function _ f, inside, raws, h, hout => by
    rw [Value.Fits] at h
    rw [Write.value]
    have hrecord := record_readsBack f inside raws h (hout.mono (by simp))
    exact value_of_content .function fun start => hrecord.mapRead fun I g hg => hg
  | .module _ ⟨name, requires, exports, stars, imports, body⟩, inside, raws, h, hout => by
    rw [Value.Fits, ModuleRecord.Fits] at h
    obtain ⟨hhead, hrequires, hbody⟩ := h
    rw [Write.value]
    have hreqs := properties_readsBack requires inside raws #[] hrequires (hout.mono (by simp; omega))
    have hrecord := record_readsBack body inside raws hbody (hout.mono (by simp; omega))
    have hmodule := module_readsBack hhead (hreqs.weaken ?_) hrecord
    · exact value_of_content .module fun start => hmodule.mapRead fun I g hg => hg
    · rintro I _ ⟨new, rfl, hnew⟩
      simpa using hnew

theorem values_readsBack : (vs : List Value) → (inside : List Nat) → (raws : Nat) → (done : Array Value) →
    fitsAll p.Admits p.heap vs → Outside p inside (sizeOf vs) →
    ReadsBack p inside raws raws [] (Write.values vs)
      (fun depth => Read.many (Read.value depth) vs.length done)
      (fun I ws => ∃ new, ws = done ++ new.toArray ∧ mirrorsAll I (storedAll p.env.options p.rename vs) new)
  | [], _, _, done, _, _ => .done rfl fun _ => ⟨[], by simp, trivial⟩
  | v :: rest, inside, raws, done, h, hout => by
    rw [fitsAll] at h
    have hv := value_readsBack v inside raws h.1 (hout.mono (by simp; omega))
    have hrest := fun w => values_readsBack rest inside raws (done.push w) h.2 (hout.mono (by simp))
    rw [Write.values]
    refine hv.bind ⟨_, Eq, Value.mirrors_refl _⟩ fun bytes w _ => ((hrest w).weaken ?_).last fun _ => rfl
    rintro I _ ⟨new, rfl, hnew⟩ hw
    exact ⟨w :: new, by simp, hw, hnew⟩

theorem properties_readsBack : (ps : List Property) → (inside : List Nat) → (raws : Nat) → (done : Array Property) →
    fitsProps p.Admits p.heap ps → Outside p inside (sizeOf ps) →
    ReadsBack p inside raws raws [] (Write.properties ps)
      (fun depth => Read.many (Read.property (Read.value depth)) ps.length done)
      (fun I qs => ∃ new, qs = done ++ new.toArray ∧ mirrorsProps I (storedProps p.env.options p.rename ps) new)
  | [], _, _, done, _, _ => .done rfl fun _ => ⟨[], by simp, trivial⟩
  | ⟨key, v⟩ :: rest, inside, raws, done, h, hout => by
    rw [fitsProps] at h
    obtain ⟨hkey, hval, hprops⟩ := h
    have hv := value_readsBack v inside raws hval (hout.mono (by simp; omega))
    have hrest := fun p => properties_readsBack rest inside raws (done.push p) hprops (hout.mono (by simp))
    rw [Write.properties]
    simp only [List.length_cons, Read.many, Read.property, bind_assoc, pure_bind]
    refine (atom_readsBack hkey).bind_eq fun keyBytes => ?_
    refine hv.bind ⟨_, Eq, Value.mirrors_refl _⟩ fun bytes w _ => ((hrest ⟨_, w⟩).weaken ?_).last fun _ => ?_
    · rintro I _ ⟨new, rfl, hnew⟩ hw
      exact ⟨⟨_, w⟩ :: new, by simp, rfl, hw, hnew⟩
    · simp

theorem record_readsBack : (f : FunctionRecord) → (inside : List Nat) → (raws : Nat) → f.Fits p.Admits p.heap →
    Outside p inside (sizeOf f) →
    ReadsBack p inside raws raws [Tag.function.byte] (Write.function f)
      (fun depth => Read.function (Read.value depth))
      (fun I g => (f.stored p.env.options p.rename).Mirrors I g)
  | ⟨name, flags, kind, mode, args, vars, defined, stack, slotVars, closure, code, debug,
      constants, cache⟩, inside, raws, h, hout => by
    rw [FunctionRecord.Fits] at h
    have hconstants := values_readsBack constants inside raws #[] h.2 (hout.mono (by simp; omega))
    refine function_readsBack h.1 (hconstants.weaken ?_)
    rintro I _ ⟨new, rfl, hnew⟩
    simpa using hnew

end

end ScriptBytecode.Object
