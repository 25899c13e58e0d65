import ScriptBytecode.Proofs.ObjectRoundTrip

/-!
# Writing a copy

A copy of a value is written as the value itself was: the atoms are met in the same order, so that they get the same
indices, and an object is met again where its original was. Two writers run side by side, the first on the value and
the second on what a reader made of it.
-/

namespace ScriptBytecode.Object

variable {a : Atom} {s s' : WriteState}

/-- Two writers. Where the first has the atom `a`, the second has `rename a`; `Link` goes from the objects of the first
to those of the second. -/
structure Rewriting where
  table : AtomTable
  table' : AtomTable
  options : WriteOptions
  rename : Atom → Atom
  /-- The atoms that the first writer numbers. -/
  numbered : List Atom
  Link : Nat → Nat → Prop
  keeps : ∀ a, a.isStatic = true → rename a = a
  dynamic : ∀ a ∈ numbered, (rename a).isStatic = false
  name : ∀ a ∈ numbered, table'.name? (rename a) = table.name? a
  has : ∀ a ∈ numbered, table'.has (rename a) = true
  injective : ∀ a ∈ numbered, ∀ b ∈ numbered, rename a = rename b → a = b
  paired : options.allowReference = true → ∀ i j i' j', Link i j → Link i' j' → (i = i' ↔ j = j')

namespace Rewriting

def env (q : Rewriting) : WriteEnv := ⟨q.table, q.options⟩

def env' (q : Rewriting) : WriteEnv := ⟨q.table', q.options⟩

/-- The second writer is where the first one is. -/
structure Matches (q : Rewriting) (s s' : WriteState) : Prop where
  atoms : s'.atoms.toList = s.atoms.toList.map q.rename
  count : s'.count = s.count
  objects : q.options.allowReference = true → ∀ i j, q.Link i j → s'.objects.lookup j = s.objects.lookup i

end Rewriting

/-- What the first writer writes, the second one writes as well. -/
def Rewrites (q : Rewriting) {α : Type} (write write' : Write α) : Prop :=
  ∀ s a s₁, (write.run q.env).run s = .ok (a, s₁) → s.atoms.toList <+: s₁.atoms.toList ∧
    (s₁.atoms.toList ⊆ q.numbered → ∀ s', q.Matches s s' →
      ∃ s₁', (write'.run q.env').run s' = .ok (a, s₁') ∧ q.Matches s₁ s₁')

variable {q : Rewriting} {α β : Type}

namespace Rewrites

theorem pure (a : α) : Rewrites q (Pure.pure a) (Pure.pure a) := by
  intro s b s₁ hrun
  cases hrun
  exact ⟨List.prefix_refl _, fun _ s' hmatches => ⟨s', rfl, hmatches⟩⟩

theorem bind {write write'} {next next' : α → Write β} (h : Rewrites q write write')
    (hnext : ∀ a, Rewrites q (next a) (next' a)) : Rewrites q (write >>= next) (write' >>= next') := by
  intro s b s₂ hrun
  obtain ⟨a, s₁, ha, hb⟩ := Write.run_bind_eq_ok.mp hrun
  obtain ⟨hgrows, hrewrites⟩ := h s a s₁ ha
  obtain ⟨hgrows₂, hrewrites₂⟩ := hnext a s₁ b s₂ hb
  refine ⟨hgrows.trans hgrows₂, ?_⟩
  intro hnumbered s' hmatches
  obtain ⟨s₁', ha', hmatches₁⟩ := hrewrites (fun a ha => hnumbered (hgrows₂.subset ha)) s' hmatches
  obtain ⟨s₂', hb', hmatches₂⟩ := hrewrites₂ hnumbered s₁' hmatches₁
  exact ⟨s₂', Write.run_bind_eq_ok.mpr ⟨a, s₁', ha', hb'⟩, hmatches₂⟩

theorem read {next next' : WriteEnv → Write α} (h : Rewrites q (next q.env) (next' q.env')) :
    Rewrites q (MonadReader.read >>= next) (MonadReader.read >>= next') :=
  h

theorem count (n : Nat) : Rewrites q (Write.count n) (Write.count n) := by
  intro s bytes s₁ hrun
  obtain ⟨hn, rfl, rfl⟩ := Write.run_count_eq_ok.mp hrun
  exact ⟨List.prefix_refl _, fun _ s' hmatches => ⟨s', Write.run_count_eq_ok.mpr ⟨hn, rfl, rfl⟩, hmatches⟩⟩

theorem fail_bind {γ : Type} {why} {next : γ → Write α} {write'} : Rewrites q (Write.fail why >>= next) write' :=
  nofun

theorem mapM {γ δ : Type} {write : γ → Write β} {write' : δ → Write β} {f : γ → δ} {xs : List γ}
    (h : ∀ x, Rewrites q (write x) (write' (f x))) : Rewrites q (xs.mapM write) ((xs.map f).mapM write') := by
  induction xs with
  | nil => exact .pure []
  | cons x rest ih =>
    rw [List.map_cons, List.mapM_cons, List.mapM_cons]
    apply (h x).bind
    intro b
    apply ih.bind
    intro bs
    exact .pure _

end Rewrites

open Rewrites (count)

/-! ## Atoms -/

theorem idxOf_map {atoms : List Atom} {f : Atom → Atom} (h : ∀ b ∈ atoms, f b = f a → b = a) :
    (atoms.map f).idxOf (f a) = atoms.idxOf a := by
  induction atoms with
  | nil => rfl
  | cons b atoms ih =>
    rw [List.forall_mem_cons] at h
    rw [List.map_cons, List.idxOf_cons, List.idxOf_cons, ih h.2]
    by_cases hab : b = a
    · rw [hab, beq_self_eq_true, beq_self_eq_true]
    · have hne : f b ≠ f a := fun heq => hab (h.1 heq)
      rw [beq_false_of_ne hab, beq_false_of_ne hne]

theorem Rewriting.Matches.indexOf_rename (h : q.Matches s s') (hnumbered : s.atoms.toList ⊆ q.numbered)
    (ha : a.isStatic ∨ a ∈ s.atoms.toList) :
    indexOf s'.atoms (q.rename a) = indexOf s.atoms a := by
  unfold indexOf
  by_cases hstatic : a.isStatic = true
  · rw [q.keeps a hstatic, if_pos hstatic, if_pos hstatic]
  · have hmem := ha.resolve_left hstatic
    have hdynamic := q.dynamic a (hnumbered hmem)
    rw [if_neg hstatic, if_neg (by simp [hdynamic]), h.atoms, idxOf_map]
    intro b hb heq
    exact q.injective b (hnumbered hb) a (hnumbered hmem) heq

/-- Where the first writer meets an atom for the first time, so does the second. -/
theorem Rewriting.Matches.meet (h : q.Matches s s') (hnumbered : (s.meet a).atoms.toList ⊆ q.numbered) :
    q.Matches (s.meet a) (s'.meet (q.rename a)) := by
  unfold WriteState.meet at hnumbered ⊢
  by_cases hstatic : a.isStatic = true
  · rw [q.keeps a hstatic, if_pos (.inl hstatic), if_pos (.inl hstatic)]
    exact h
  · by_cases hmem : a ∈ s.atoms.toList
    · have hmem' : q.rename a ∈ s'.atoms.toList := by
        rw [h.atoms]
        exact List.mem_map_of_mem hmem
      rw [if_pos (.inr hmem), if_pos (.inr hmem')]
      exact h
    · rw [if_neg (not_or.mpr ⟨hstatic, hmem⟩)] at hnumbered ⊢
      rw [Array.toList_push] at hnumbered
      have ha : a ∈ q.numbered := hnumbered (by simp)
      have hstatic' : ¬(q.rename a).isStatic := by simp [q.dynamic a ha]
      have hmem' : q.rename a ∉ s'.atoms.toList := by
        rw [h.atoms]
        intro hmem'
        obtain ⟨b, hb, heq⟩ := List.mem_map.mp hmem'
        obtain rfl := q.injective b (hnumbered (by simp [hb])) a ha heq
        exact hmem hb
      rw [if_neg (not_or.mpr ⟨hstatic', hmem'⟩)]
      exact ⟨by simp [h.atoms], h.count, h.objects⟩

theorem Rewriting.Matches.meetAll (h : q.Matches s s') {atoms}
    (hnumbered : (s.meetAll atoms).atoms.toList ⊆ q.numbered) :
    q.Matches (s.meetAll atoms) (s'.meetAll (atoms.map q.rename)) := by
  induction atoms generalizing s s' with
  | nil => exact h
  | cons a atoms ih =>
    have hadds := (s.meet a).addsAtoms_meetAll atoms
    exact ih (h.meet fun b hb => hnumbered (hadds.atoms.subset hb)) hnumbered

theorem known_rename (ha : a.isStatic ∨ a ∈ q.numbered) : Known q.env' s' (q.rename a) := by
  rcases ha with ha | ha
  · exact .inl (by rwa [q.keeps a ha])
  · exact .inr (.inr (q.has a ha))

theorem rewrites_atom (a : Atom) : Rewrites q (Write.atom a) (Write.atom (q.rename a)) := by
  intro s bytes s₁ hrun
  obtain ⟨-, rfl, rfl⟩ := run_atom_eq_ok.mp hrun
  refine ⟨(s.addsAtoms_meet a).atoms, ?_⟩
  intro hnumbered s' hmatches
  have hmatches₁ := hmatches.meet hnumbered
  have hmem := s.mem_meet a
  refine ⟨s'.meet (q.rename a), run_atom_eq_ok.mpr ⟨?_, rfl, ?_⟩, hmatches₁⟩
  · exact known_rename (hmem.imp_right fun h => hnumbered h)
  · unfold atomBytes
    rw [hmatches₁.indexOf_rename hnumbered hmem]
    by_cases hstatic : a.isStatic = true
    · rw [q.keeps a hstatic]
    · have hdynamic := q.dynamic a (hnumbered (hmem.resolve_left hstatic))
      have hindex : a.index? = none := by
        have : a.isIndex = false := by simp_all [Atom.isStatic]
        simp [Atom.index?, this]
      have hindex' : (q.rename a).index? = none := by
        have : (q.rename a).isIndex = false := by simp_all [Atom.isStatic]
        simp [Atom.index?, this]
      rw [hindex, hindex']

theorem rewrites_code (code : Bytes) :
    Rewrites q (Write.code code) (Write.code (recode (fun a => (q.rename a).id) code)) := by
  intro s out s₁ hrun
  obtain ⟨instrs, hdecode, -, hmeet, rfl⟩ := run_code_eq_ok.mp hrun
  refine ⟨hmeet ▸ (s.addsAtoms_meetAll _).atoms, ?_⟩
  intro hnumbered s' hmatches
  have hmem : ∀ site ∈ atomSites instrs, site.2.isStatic = true ∨ site.2 ∈ s₁.atoms.toList := by
    intro site hsite
    rw [hmeet]
    exact s.mem_meetAll (List.mem_map_of_mem hsite)
  -- the second writer's atoms have 32-bit handles as well
  have hlt : ∀ site ∈ atomSites instrs, (q.rename site.2).id < Nat.pow 256 4 := by
    intro site hsite
    rcases hmem site hsite with h | h
    · rw [q.keeps _ h]
      exact id_lt_of_mem_atomSites (Decode.decode_eq_ok_iff.mp hdecode) site hsite
    · have hdynamic := q.dynamic _ (hnumbered h)
      simp only [Atom.isStatic, Atom.isIndex, Bool.or_eq_false_iff, decide_eq_false_iff_not] at hdynamic
      have htag : Atom.indexTag = 0x80000000 := rfl
      have hpow : Nat.pow 256 4 = 0x100000000 := rfl
      omega
  have hdecode' := decodeFinal_recode hdecode (f := fun a => (q.rename a).id) hlt
  have hsites : ((atomSites (instrs.map (Located.mapAtom fun a => ⟨(q.rename a).id⟩))).map Prod.snd)
      = ((atomSites instrs).map Prod.snd).map q.rename := by
    simp [atomSites_map]
  rw [hmeet] at hnumbered
  have hmatches₁ := hmatches.meetAll hnumbered
  rw [← hmeet] at hnumbered hmatches₁
  refine ⟨_, run_code_eq_ok.mpr ⟨_, hdecode', ?_, rfl, ?_⟩, ?_⟩
  · intro site hsite
    rw [atomSites_map] at hsite
    obtain ⟨site', hsite', rfl⟩ := List.mem_map.mp hsite
    exact known_rename ((hmem site' hsite').imp_right fun h => hnumbered h)
  · rw [hsites, recode_recode hdecode (f := fun a => (q.rename a).id) hlt]
    apply recode_congr hdecode
    intro site hsite
    exact (hmatches₁.indexOf_rename hnumbered (hmem site hsite)).symm
  · rw [hsites]
    exact hmatches₁

/-! ## Records -/

theorem rewrites_variable (v : Variable) : Rewrites q (Write.variable_ v) (Write.variable_ (v.rename q.rename)) := by
  apply (rewrites_atom v.name).bind
  intro _
  exact .pure _

theorem rewrites_closureVar (v : ClosureVar) :
    Rewrites q (Write.closureVar v) (Write.closureVar (v.rename q.rename)) := by
  apply (rewrites_atom v.name).bind
  intro _
  exact .pure _

/-- What stripping leaves of a source is stored as the source itself. -/
theorem source_stored (o : WriteOptions) (d : DebugInfo) :
    (if o.stripSource then [] else (d.stored o q.rename).source.elim [] Text.utf8)
      = if o.stripSource then [] else d.source.elim [] Text.utf8 := by
  unfold DebugInfo.stored
  cases hstrip : o.stripSource with
  | true => rfl
  | false =>
    cases hsource : d.source with
    | none => rfl
    | some s =>
      by_cases hempty : s = ""
      · subst hempty
        rfl
      · simp [Option.filter, hempty]

theorem rewrites_debug? (d : Option DebugInfo) :
    Rewrites q (Write.debug? d) (Write.debug? (d.map (·.stored q.options q.rename))) := by
  cases d with
  | none => exact .pure _
  | some d =>
    rw [Option.map_some, Write.debug?, Write.debug?, Write.debug, Write.debug]
    apply (rewrites_atom d.filename).bind
    intro file
    apply (count d.lines.length).bind
    intro lines
    apply Rewrites.read
    rw [show q.env'.options = q.options from rfl, show q.env.options = q.options from rfl, source_stored]
    apply (count _).bind
    intro size
    exact .pure _

theorem rewrites_slotVars (slots : Nat) (vars : List Variable) :
    Rewrites q (Write.slotVars slots vars) (Write.slotVars slots (vars.map (·.rename q.rename))) := by
  unfold Write.slotVars
  split
  · exact .pure _
  · apply (count slots).bind
    intro _
    apply (Rewrites.mapM rewrites_variable).bind
    intro _
    exact .pure _

theorem rewrites_functionHead (f : FunctionRecord) (n : Nat) :
    Rewrites q (Write.functionHead f n) (Write.functionHead (f.stored q.options q.rename).head n) := by
  obtain ⟨name, flags, kind, mode, args, vars, defined, stack, slotVars, closure, code, debug, constants, cache⟩ := f
  unfold Write.functionHead
  simp only [FunctionRecord.stored, FunctionRecord.head, List.length_map, length_recode]
  by_cases hslots : slotVars.length = args + vars
  · simp only [hslots, ne_eq, not_true_eq_false, if_false]
    apply Rewrites.read
    have hshown : (if q.options.stripDebug then none else (q.options.shown debug).map (·.stored q.options q.rename))
        = (q.options.shown debug).map (·.stored q.options q.rename) := by
      unfold WriteOptions.shown
      cases q.options.stripDebug <;> rfl
    simp only [show q.env'.options = q.options from rfl, show q.env.options = q.options from rfl, hshown,
      Option.isSome_map]
    apply (rewrites_atom name).bind
    intro _
    apply (count closure.length).bind
    intro _
    apply (count n).bind
    intro _
    apply (count code.length).bind
    intro _
    apply (rewrites_slotVars (args + vars) slotVars).bind
    intro _
    apply (Rewrites.mapM rewrites_closureVar).bind
    intro _
    apply (rewrites_code code).bind
    intro _
    apply (rewrites_debug? (q.options.shown debug)).bind
    intro _
    exact .pure _
  · simp only [hslots, ne_eq, not_false_eq_true, if_true]
    exact .fail_bind

theorem rewrites_export (e : Export) : Rewrites q (Write.exportEntry e) (Write.exportEntry (e.rename q.rename)) := by
  cases e with
  | ofLocal varIdx name =>
    apply (rewrites_atom name).bind
    intro _
    exact .pure _
  | ofModule reqModule localName name =>
    apply (rewrites_atom localName).bind
    intro _
    apply (rewrites_atom name).bind
    intro _
    exact .pure _

theorem rewrites_import (i : Import) : Rewrites q (Write.importEntry i) (Write.importEntry (i.rename q.rename)) := by
  apply (rewrites_atom i.name).bind
  intro _
  exact .pure _

/-! ## Values -/

theorem rewrites_shared {i j} (hlink : q.Link i j) {body body'} (h : Rewrites q body body') :
    Rewrites q (Write.shared i body) (Write.shared j body') := by
  have hregister : Rewrites q (Write.register i) (Write.register j) := by
    intro s found s₁ hrun
    rw [run_register] at hrun
    cases hfound : (if q.env.options.allowReference then s.objects.lookup i else none) with
    | some k =>
      rw [hfound] at hrun
      cases hrun
      refine ⟨List.prefix_refl _, fun _ s' hmatches => ⟨s', ?_, hmatches⟩⟩
      have hallow : q.options.allowReference := by
        by_contra hnot
        rw [show q.env.options = q.options from rfl, if_neg hnot] at hfound
        cases hfound
      rw [run_register, show q.env'.options = q.options from rfl, if_pos hallow, hmatches.objects hallow i j hlink]
      rw [show q.env.options = q.options from rfl, if_pos hallow] at hfound
      rw [hfound]
    | none =>
      rw [hfound] at hrun
      cases hrun
      refine ⟨List.prefix_refl _, fun _ s' hmatches => ⟨s'.register j, ?_, ?_⟩⟩
      · have hfound' : (if q.env'.options.allowReference then s'.objects.lookup j else none) = none := by
          split
          · have hallow : q.options.allowReference := ‹_›
            rw [hmatches.objects hallow i j hlink]
            rwa [show q.env.options = q.options from rfl, if_pos hallow] at hfound
          · rfl
        rw [run_register, hfound']
      · refine ⟨hmatches.atoms, congrArg (· + 1) hmatches.count, ?_⟩
        intro hallow i' j' hlink'
        have hiff := q.paired hallow i' j' i j hlink' hlink
        rw [lookup_register, lookup_register, hmatches.objects hallow i' j' hlink', hmatches.count]
        simp only [hiff]
  apply hregister.bind
  intro found
  cases found with
  | some k => exact .pure _
  | none => exact h

theorem rewrites_anonymous : Rewrites q Write.registerAnonymous Write.registerAnonymous := by
  intro s u s₁ hrun
  cases hrun
  refine ⟨List.prefix_refl _, fun _ s' hmatches => ⟨s'.skip, rfl, hmatches.atoms, ?_, hmatches.objects⟩⟩
  exact congrArg (· + 1) hmatches.count

mutual

theorem rewrites_value : (v w : Value) → (v.stored q.options q.rename).Mirrors q.Link w →
    Rewrites q (Write.value v) (Write.value w)
  | .null, w, h => by
    cases w with
    | null => exact .pure _
    | _ => exact h.elim
  | .undefined, w, h => by
    cases w with
    | undefined => exact .pure _
    | _ => exact h.elim
  | .bool b, w, h => by
    cases w with
    | bool b' =>
      obtain rfl : b = b' := h
      cases b <;> exact .pure _
    | _ => exact h.elim
  | .int n, w, h | .float n, w, h | .string n, w, h => by
    cases w <;> first | exact h.elim | (cases h; exact .pure _)
  | .bigint n, w, h => by
    cases w with
    | bigint n' =>
      obtain rfl : n = n' := h
      exact (count _).bind fun _ => .pure _
    | _ => exact h.elim
  | .array i items, w, h => by
    cases w with
    | array j items' =>
      obtain ⟨hlink, hitems⟩ := h
      obtain ⟨hlength, hvalues⟩ := rewrites_values items items' hitems
      rw [Write.value, Write.value, hlength]
      apply rewrites_shared hlink
      apply (count items.length).bind
      intro _
      apply hvalues.bind
      intro _
      exact .pure _
    | _ => exact h.elim
  | .object i props, w, h => by
    cases w with
    | object j props' =>
      obtain ⟨hlink, hprops⟩ := h
      obtain ⟨hlength, hvalues⟩ := rewrites_properties props props' hprops
      rw [Write.value, Write.value, hlength]
      apply rewrites_shared hlink
      apply (count props.length).bind
      intro _
      apply hvalues.bind
      intro _
      exact .pure _
    | _ => exact h.elim
  | .template i cooked raw, w, h => by
    cases w with
    | template j cooked' raw' =>
      obtain ⟨hlink, hcooked, hraw⟩ := h
      obtain ⟨hlength, hfirst⟩ := rewrites_values cooked cooked' hcooked
      obtain ⟨hlength', hsecond⟩ := rewrites_values raw raw' hraw
      rw [Write.value, Write.value, hlength, hlength']
      apply rewrites_shared hlink
      apply (count cooked.length).bind
      intro _
      apply hfirst.bind
      intro _
      apply rewrites_anonymous.bind
      intro _
      apply (count raw.length).bind
      intro _
      apply hsecond.bind
      intro _
      exact .pure _
    | _ => exact h.elim
  | .function _ f, w, h => by
    cases w with
    | function _ g => exact rewrites_function f g h
    | _ => exact h.elim
  | .module _ m, w, h => by
    cases w with
    | module _ n => exact rewrites_module m n h
    | _ => exact h.elim

theorem rewrites_values : (vs ws : List Value) → mirrorsAll q.Link (storedAll q.options q.rename vs) ws →
    ws.length = vs.length ∧ Rewrites q (Write.values vs) (Write.values ws)
  | [], ws, h => by
    cases ws with
    | nil => exact ⟨rfl, .pure _⟩
    | cons => exact h.elim
  | v :: rest, ws, h => by
    cases ws with
    | nil => exact h.elim
    | cons w ws =>
      obtain ⟨hlength, hrest⟩ := rewrites_values rest ws h.2
      refine ⟨congrArg (· + 1) hlength, ?_⟩
      rw [Write.values, Write.values]
      apply (rewrites_value v w h.1).bind
      intro _
      apply hrest.bind
      intro _
      exact .pure _

theorem rewrites_properties : (ps qs : List Property) → mirrorsProps q.Link (storedProps q.options q.rename ps) qs →
    qs.length = ps.length ∧ Rewrites q (Write.properties ps) (Write.properties qs)
  | [], qs, h => by
    cases qs with
    | nil => exact ⟨rfl, .pure _⟩
    | cons => exact h.elim
  | ⟨k, v⟩ :: rest, qs, h => by
    cases qs with
    | nil => exact h.elim
    | cons r qs =>
      obtain ⟨l, w⟩ := r
      obtain ⟨rfl, hvalue, hprops⟩ := h
      obtain ⟨hlength, hrest⟩ := rewrites_properties rest qs hprops
      refine ⟨congrArg (· + 1) hlength, ?_⟩
      rw [Write.properties, Write.properties]
      apply (rewrites_atom k).bind
      intro _
      apply (rewrites_value v w hvalue).bind
      intro _
      apply hrest.bind
      intro _
      exact .pure _

theorem rewrites_function : (f g : FunctionRecord) → (f.stored q.options q.rename).Mirrors q.Link g →
    Rewrites q (Write.function f) (Write.function g)
  | ⟨name, flags, kind, mode, args, vars, defined, stack, slotVars, closure, code, debug, constants, cache⟩, g, h => by
    obtain ⟨hhead, hconstants⟩ := h
    obtain ⟨hlength, hvalues⟩ := rewrites_values constants g.constants hconstants
    obtain ⟨name', flags', kind', mode', args', vars', defined', stack', slotVars', closure', code', debug', constants',
      cache'⟩ := g
    simp only [FunctionRecord.head] at hhead hlength hvalues
    have hfirst := rewrites_functionHead (q := q) ⟨name, flags, kind, mode, args, vars, defined, stack, slotVars,
      closure, code, debug, [], cache⟩ constants.length
    rw [Write.function, Write.function, hhead, hlength]
    exact hfirst.bind fun _ => hvalues.bind fun _ => .pure _

theorem rewrites_module : (m n : ModuleRecord) → (m.stored q.options q.rename).Mirrors q.Link n →
    Rewrites q (Write.module m) (Write.module n)
  | ⟨name, requires, exports, stars, imports, body⟩, n, h => by
    obtain ⟨name', requires', exports', stars', imports', body'⟩ := n
    obtain ⟨rfl, hrequires, rfl, rfl, rfl, hbody⟩ := h
    obtain ⟨hlength, hprops⟩ := rewrites_properties requires requires' hrequires
    rw [Write.module, Write.module, hlength, List.length_map, List.length_map]
    apply (rewrites_atom name).bind
    intro _
    apply (count requires.length).bind
    intro _
    apply hprops.bind
    intro _
    apply (count exports.length).bind
    intro _
    apply (Rewrites.mapM rewrites_export).bind
    intro _
    apply (count _).bind
    intro _
    apply (count imports.length).bind
    intro _
    apply (Rewrites.mapM rewrites_import).bind
    intro _
    apply (rewrites_function body body' hbody).bind
    intro _
    exact .pure _

end

/-- If a value is written, a copy of it is written as the same bytes. -/
theorem encode_copy {v w body names} (hrun : ((Write.value v).run q.env).run ⟨#[], [], 0⟩ = .ok (body, s))
    (hnames : List.Forall₂ (fun a name => q.table.name? a = some name) s.atoms.toList names)
    (hnumbered : s.atoms.toList ⊆ q.numbered) (hcopy : (v.stored q.options q.rename).Mirrors q.Link w) :
    encode w q.table' q.options
      = .ok (version.toUInt8 :: Leb128.write names.length ++ names.flatMap Text.store ++ body) := by
  have hstart : q.Matches ⟨#[], [], 0⟩ ⟨#[], [], 0⟩ := ⟨rfl, rfl, fun _ _ _ _ => rfl⟩
  obtain ⟨-, hrewrites⟩ := rewrites_value v w hcopy _ _ _ hrun
  obtain ⟨s', hrun', hmatches⟩ := hrewrites hnumbered _ hstart
  refine encode_eq_ok_iff.mpr ⟨body, s', names, hrun', ?_, rfl⟩
  rw [hmatches.atoms, List.forall₂_map_left_iff]
  refine List.forall₂_iff_zip.mpr ⟨hnames.length_eq, ?_⟩
  intro a name hmem
  rw [q.name a (hnumbered (List.of_mem_zip hmem).1)]
  exact (List.forall₂_iff_zip.mp hnames).2 hmem

/-! ## What was read, written again -/

section

variable {p : Passage} {v : Value} {bytes : Bytes} {s : WriteState} {names : List String}
  (h : Written p v bytes s names) (hadmits : ∀ a, p.Admits a → a.Storable p.env.table) {t : AtomTable} (ht : t.Sound)
  (hatoms : s.atoms.toList.map p.rename = (t.internAll names).1)
  (hdynamic : ∀ a ∈ (t.internAll names).1, a.isStatic = false)

include h hadmits ht hatoms hdynamic

/-- A numbered atom and the one that is read for it have the same name. -/
theorem Written.exists_name : ∀ a ∈ s.atoms.toList, ∃ name, p.env.table.Knows a name ∧
    (t.internAll names).2.Knows (p.rename a) name := by
  have hknows := h.knows hadmits
  have hknows' := ht.knows_internAll hdynamic
  rw [← hatoms, List.forall₂_map_left_iff] at hknows'
  have hall : List.Forall₂ (fun name a => p.env.table.Knows a name ∧ (t.internAll names).2.Knows (p.rename a) name)
      names s.atoms.toList :=
    (List.forall₂_iff_zip.mpr ⟨hknows.length_eq, fun hmem =>
      ⟨(List.forall₂_iff_zip.mp hknows).2 hmem, (List.forall₂_iff_zip.mp hknows').2 hmem⟩⟩).flip
  intro a ha
  obtain ⟨name, -, hname⟩ := exists_left_of_forall₂ hall ha
  exact ⟨name, hname⟩

/-- If the atoms of the names that a reader interns are all dynamic, it reads a copy of the value, and writing the copy
gives the same bytes. -/
theorem Written.rewrite (hsource : p.env.table.Sound) :
    ∃ w I, Object.decode bytes t p.options = .ok (w, (t.internAll names).2) ∧ (p.copy v).Mirrors I w ∧
      encode w (t.internAll names).2 p.env.options = .ok bytes := by
  obtain ⟨w, links, hdecode, hmirrors, hpaired⟩ := h.decode hatoms
  have hcopy := hmirrors (fun i j => (i, j) ∈ links) fun _ hlink => hlink
  refine ⟨w, _, hdecode, hcopy, ?_⟩
  have hboth := h.exists_name hadmits ht hatoms hdynamic
  let q : Rewriting := {
    table := p.env.table
    table' := (t.internAll names).2
    options := p.env.options
    rename := p.rename
    numbered := s.atoms.toList
    Link := fun i j => (i, j) ∈ links
    keeps := p.keeps
    dynamic := by
      intro a ha
      apply hdynamic
      rw [← hatoms]
      exact List.mem_map_of_mem ha
    name := by
      intro a ha
      obtain ⟨name, hname, hname'⟩ := hboth a ha
      rw [hname.name?, hname'.name?]
    has := by
      intro a ha
      obtain ⟨name, -, -, e, hentry, -⟩ := hboth a ha
      simp [AtomTable.has, hentry]
    injective := by
      intro a ha b hb hsame
      obtain ⟨name, hname, hname'⟩ := hboth a ha
      obtain ⟨other, hother, hother'⟩ := hboth b hb
      rw [hsame] at hname'
      obtain rfl := hname'.name_unique hother'
      exact hsource.atom_unique hname hother
    paired := fun hallow i j i' j' hlink hlink' => hpaired hallow _ hlink _ hlink' }
  obtain ⟨body, hrun, rfl⟩ := h.run
  exact encode_copy (q := q) hrun h.names (fun _ ha => ha) hcopy

end

end ScriptBytecode.Object
