import ScriptBytecode.Proofs.ObjectRecords

/-!
# What can be written

A writer refuses few things: atoms without a name, code that is none, a wrong number of variables and counts of more
than 32 bits. A value without any of these is written, whatever the options are.
-/

namespace ScriptBytecode

open Object (atomSites bigIntBytes)

variable {t : AtomTable} {s : WriteState}

/-- An atom that a writer accepts. -/
def Atom.Named (t : AtomTable) (a : Atom) : Prop :=
  a.isPredefined = true ∨ t.has a = true

structure DebugInfo.Writable (t : AtomTable) (d : DebugInfo) : Prop where
  filename : d.filename.Named t
  lines : d.lines.length < 0x100000000
  source : ∀ s ∈ d.source, (Text.utf8 s).length < 0x100000000

/-- A function record up to its constants. -/
structure FunctionRecord.HeadWritable (t : AtomTable) (f : FunctionRecord) : Prop where
  name : f.name.Named t
  slots : f.slotVars.length = f.argCount + f.varCount
  slotCount : f.argCount + f.varCount < 0x100000000
  slotVars : ∀ v ∈ f.slotVars, v.name.Named t
  closureCount : f.closureVars.length < 0x100000000
  closureVars : ∀ v ∈ f.closureVars, v.name.Named t
  codeSize : f.code.length < 0x100000000
  code : ∃ instrs, decodeFinal f.code = .ok instrs ∧ ∀ site ∈ atomSites instrs, site.2.Named t
  debug : ∀ d ∈ f.debug, d.Writable t
  constantCount : f.constants.length < 0x100000000

def Export.Writable (t : AtomTable) : Export → Prop
  | .ofLocal _ name => name.Named t
  | .ofModule _ localName name => localName.Named t ∧ name.Named t

/-- A module record up to its required modules and its body. -/
structure ModuleRecord.HeadWritable (t : AtomTable) (m : ModuleRecord) : Prop where
  name : m.name.Named t
  requireCount : m.requires.length < 0x100000000
  exportCount : m.exports.length < 0x100000000
  exports : ∀ e ∈ m.exports, e.Writable t
  starCount : m.starExports.length < 0x100000000
  importCount : m.imports.length < 0x100000000
  imports : ∀ i ∈ m.imports, i.name.Named t

section

variable (t : AtomTable)

mutual

/-- A value that a writer accepts. -/
def Value.Writable : Value → Prop
  | .null | .undefined | .bool _ | .int _ | .float _ | .string _ => True
  | .bigint n => (bigIntBytes n).length < 0x100000000
  | .array _ items => items.length < 0x100000000 ∧ writableAll items
  | .object _ props => props.length < 0x100000000 ∧ writableProps props
  | .template _ cooked raw =>
    cooked.length < 0x100000000 ∧ writableAll cooked ∧ raw.length < 0x100000000 ∧ writableAll raw
  | .function _ f => f.Writable
  | .module _ m => m.Writable

def writableAll : List Value → Prop
  | [] => True
  | v :: rest => v.Writable ∧ writableAll rest

def writableProps : List Property → Prop
  | [] => True
  | ⟨key, v⟩ :: rest => key.Named t ∧ v.Writable ∧ writableProps rest

def FunctionRecord.Writable : FunctionRecord → Prop
  | ⟨name, flags, kind, mode, args, vars, defined, stack, slotVars, closure, code, debug, constants, cache⟩ =>
    FunctionRecord.HeadWritable t ⟨name, flags, kind, mode, args, vars, defined, stack, slotVars, closure, code, debug,
      constants, cache⟩ ∧ writableAll constants

def ModuleRecord.Writable : ModuleRecord → Prop
  | ⟨name, requires, exports, stars, imports, body⟩ =>
    ModuleRecord.HeadWritable t ⟨name, requires, exports, stars, imports, body⟩ ∧ writableProps requires ∧
      body.Writable

end

end

variable {a : Atom}

namespace Object

variable {env : WriteEnv} {α β : Type}

/-- Every atom that was numbered has a name. -/
def AllNamed (env : WriteEnv) (s : WriteState) : Prop :=
  ∀ a ∈ s.atoms.toList, (env.table.name? a).isSome = true

/-- A writer that does not fail. -/
def Succeeds (env : WriteEnv) (write : Write α) : Prop :=
  ∀ s, AllNamed env s → ∃ a s', (write.run env).run s = .ok (a, s') ∧ AllNamed env s'

namespace Succeeds

theorem pure (a : α) : Succeeds env (Pure.pure a) :=
  fun s hs => ⟨a, s, rfl, hs⟩

theorem bind {write} {next : α → Write β} (h : Succeeds env write) (hnext : ∀ a, Succeeds env (next a)) :
    Succeeds env (write >>= next) := by
  intro s hs
  obtain ⟨a, s₁, ha, hs₁⟩ := h s hs
  obtain ⟨b, s₂, hb, hs₂⟩ := hnext a s₁ hs₁
  exact ⟨b, s₂, Write.run_bind_eq_ok.mpr ⟨a, s₁, ha, hb⟩, hs₂⟩

theorem read {next : WriteEnv → Write α} (h : Succeeds env (next env)) : Succeeds env (MonadReader.read >>= next) :=
  h

theorem count {n} (h : n < 0x100000000) : Succeeds env (Write.count n) :=
  fun s hs => ⟨Leb128.write n, s, Write.run_count_eq_ok.mpr ⟨h, rfl, rfl⟩, hs⟩

theorem mapM {write : α → Write β} {xs : List α} (h : ∀ x ∈ xs, Succeeds env (write x)) :
    Succeeds env (xs.mapM write) := by
  induction xs with
  | nil => exact .pure []
  | cons x rest ih =>
    rw [List.forall_mem_cons] at h
    rw [List.mapM_cons]
    apply h.1.bind
    intro b
    apply (ih h.2).bind
    intro bs
    exact .pure _

end Succeeds

open Succeeds (count)

theorem known_of_named (h : a.Named env.table) : Known env s a := by
  rcases h with h | h
  · exact .inl (by simp [Atom.isStatic, h])
  · exact .inr (.inr h)

theorem AllNamed.meet (hs : AllNamed env s) (ha : a.Named env.table) : AllNamed env (s.meet a) := by
  unfold WriteState.meet
  split
  · exact hs
  · rename_i hnew
    have hdynamic : a.isIndex = false ∧ a.isPredefined = false := by
      simpa [Atom.isStatic] using (not_or.mp hnew).1
    intro b hb
    rw [Array.toList_push, List.mem_append, List.mem_singleton] at hb
    rcases hb with hb | rfl
    · exact hs b hb
    · have hhas := ha.resolve_left (by simp [hdynamic.2])
      simpa [AtomTable.has, AtomTable.name?, Atom.index?, hdynamic.1] using hhas

theorem AllNamed.meetAll {atoms} (hs : AllNamed env s) (hatoms : ∀ a ∈ atoms, a.Named env.table) :
    AllNamed env (s.meetAll atoms) := by
  induction atoms generalizing s with
  | nil => exact hs
  | cons a atoms ih =>
    rw [List.forall_mem_cons] at hatoms
    exact ih (hs.meet hatoms.1) hatoms.2

theorem succeeds_atom (ha : a.Named env.table) : Succeeds env (Write.atom a) :=
  fun s hs => ⟨_, s.meet a, run_atom_eq_ok.mpr ⟨known_of_named ha, rfl, rfl⟩, hs.meet ha⟩

theorem succeeds_code {code instrs} (hdecode : decodeFinal code = .ok instrs)
    (hatoms : ∀ site ∈ atomSites instrs, site.2.Named env.table) : Succeeds env (Write.code code) := by
  intro s hs
  have hknown : ∀ site ∈ atomSites instrs, Known env s site.2 :=
    fun site hsite => known_of_named (hatoms site hsite)
  refine ⟨_, _, run_code_eq_ok.mpr ⟨instrs, hdecode, hknown, rfl, rfl⟩, hs.meetAll ?_⟩
  intro a ha
  obtain ⟨site, hsite, rfl⟩ := List.mem_map.mp ha
  exact hatoms site hsite

theorem succeeds_variable {v : Variable} (h : v.name.Named env.table) : Succeeds env (Write.variable_ v) :=
  (succeeds_atom h).bind fun _ => .pure _

theorem succeeds_closureVar {v : ClosureVar} (h : v.name.Named env.table) : Succeeds env (Write.closureVar v) :=
  (succeeds_atom h).bind fun _ => .pure _

theorem succeeds_debug? {d} (h : ∀ d' ∈ d, d'.Writable env.table) : Succeeds env (Write.debug? d) := by
  cases d with
  | none => exact .pure []
  | some d =>
    have hd := h d rfl
    apply (succeeds_atom hd.filename).bind
    intro file
    apply (count hd.lines).bind
    intro lines
    apply Succeeds.read
    have hsource : (if env.options.stripSource then [] else d.source.elim [] Text.utf8).length < 0x100000000 := by
      split
      · decide
      · cases hs : d.source with
        | none => decide
        | some s => exact hd.source s hs
    apply (count hsource).bind
    intro size
    exact .pure _

theorem succeeds_slotVars {slots vars} (hslots : slots < 0x100000000) (h : ∀ v ∈ vars, v.name.Named env.table) :
    Succeeds env (Write.slotVars slots vars) := by
  unfold Write.slotVars
  split
  · exact .pure []
  · apply (count hslots).bind
    intro _
    apply (Succeeds.mapM fun v hv => succeeds_variable (h v hv)).bind
    intro _
    exact .pure _

theorem succeeds_functionHead {f : FunctionRecord} {constants} (h : f.HeadWritable env.table)
    (hconstants : constants < 0x100000000) : Succeeds env (Write.functionHead f constants) := by
  obtain ⟨instrs, hdecode, hatoms⟩ := h.code
  unfold Write.functionHead
  simp only [h.slots, ne_eq, not_true_eq_false, if_false]
  apply Succeeds.read
  apply (succeeds_atom h.name).bind
  intro _
  apply (count h.closureCount).bind
  intro _
  apply (count hconstants).bind
  intro _
  apply (count h.codeSize).bind
  intro _
  apply (succeeds_slotVars h.slotCount h.slotVars).bind
  intro _
  apply (Succeeds.mapM fun v hv => succeeds_closureVar (h.closureVars v hv)).bind
  intro _
  apply (succeeds_code hdecode hatoms).bind
  intro _
  have hdebug : ∀ d ∈ (if env.options.stripDebug then none else f.debug), d.Writable env.table := by
    intro d hd
    split at hd
    · cases hd
    · exact h.debug d hd
  apply (succeeds_debug? hdebug).bind
  intro _
  exact .pure _

theorem succeeds_export {e : Export} (h : e.Writable env.table) : Succeeds env (Write.exportEntry e) := by
  cases e with
  | ofLocal varIdx name => exact (succeeds_atom h).bind fun _ => .pure _
  | ofModule reqModule localName name =>
    apply (succeeds_atom h.1).bind
    intro _
    apply (succeeds_atom h.2).bind
    intro _
    exact .pure _

theorem succeeds_import {i : Import} (h : i.name.Named env.table) : Succeeds env (Write.importEntry i) :=
  (succeeds_atom h).bind fun _ => .pure _

theorem succeeds_shared {body} (id : Nat) (h : Succeeds env body) : Succeeds env (Write.shared id body) := by
  have hregister : Succeeds env (Write.register id) := by
    intro s hs
    unfold Write.register
    simp only [ReaderT.run_bind, StateT.run_bind, Write.run_get, Write.run_read, ok_bind]
    cases (if env.options.allowReference then s.objects.lookup id else none) with
    | some index => exact ⟨some index, s, rfl, hs⟩
    | none => exact ⟨none, _, rfl, hs⟩
  apply hregister.bind
  intro found
  cases found with
  | some index => exact .pure _
  | none => exact h

mutual

theorem succeeds_value : (v : Value) → v.Writable env.table → Succeeds env (Write.value v)
  | .null, _ | .undefined, _ | .bool false, _ | .bool true, _ | .int _, _ | .float _, _ | .string _, _ => .pure _
  | .bigint _, h => (count h).bind fun _ => .pure _
  | .array id items, ⟨hcount, hitems⟩ =>
    succeeds_shared id ((count hcount).bind fun _ => (succeeds_values items hitems).bind fun _ => .pure _)
  | .object id props, ⟨hcount, hprops⟩ =>
    succeeds_shared id ((count hcount).bind fun _ => (succeeds_properties props hprops).bind fun _ => .pure _)
  | .template id cooked raw, ⟨hcooked, hcookedItems, hraw, hrawItems⟩ => by
    rw [Write.value]
    apply succeeds_shared
    apply (count hcooked).bind
    intro _
    apply (succeeds_values cooked hcookedItems).bind
    intro _
    have hanonymous : Succeeds env Write.registerAnonymous := fun s hs => ⟨(), _, rfl, hs⟩
    apply hanonymous.bind
    intro _
    apply (count hraw).bind
    intro _
    apply (succeeds_values raw hrawItems).bind
    intro _
    exact .pure _
  | .function _ f, h => succeeds_function f h
  | .module _ m, h => succeeds_module m h

theorem succeeds_values : (vs : List Value) → writableAll env.table vs → Succeeds env (Write.values vs)
  | [], _ => .pure _
  | v :: rest, ⟨hv, hrest⟩ => (succeeds_value v hv).bind fun _ => (succeeds_values rest hrest).bind fun _ => .pure _

theorem succeeds_properties : (ps : List Property) → writableProps env.table ps → Succeeds env (Write.properties ps)
  | [], _ => .pure _
  | ⟨_, v⟩ :: rest, ⟨hkey, hv, hrest⟩ =>
    (succeeds_atom hkey).bind fun _ => (succeeds_value v hv).bind fun _ =>
      (succeeds_properties rest hrest).bind fun _ => .pure _

theorem succeeds_function : (f : FunctionRecord) → f.Writable env.table → Succeeds env (Write.function f)
  | ⟨name, flags, kind, mode, args, vars, defined, stack, slotVars, closure, code, debug, constants, cache⟩,
    ⟨hhead, hconstants⟩ => by
    rw [Write.function]
    refine (succeeds_functionHead ?_ hhead.constantCount).bind fun _ =>
      (succeeds_values constants hconstants).bind fun _ => .pure _
    exact { hhead with constantCount := by simp }

theorem succeeds_module : (m : ModuleRecord) → m.Writable env.table → Succeeds env (Write.module m)
  | ⟨name, requires, exports, stars, imports, body⟩, ⟨hhead, hrequires, hbody⟩ => by
    rw [Write.module]
    apply (succeeds_atom hhead.name).bind
    intro _
    apply (count hhead.requireCount).bind
    intro _
    apply (succeeds_properties requires hrequires).bind
    intro _
    apply (count hhead.exportCount).bind
    intro _
    apply (Succeeds.mapM fun e he => succeeds_export (hhead.exports e he)).bind
    intro _
    apply (count hhead.starCount).bind
    intro _
    apply (count hhead.importCount).bind
    intro _
    apply (Succeeds.mapM fun i hi => succeeds_import (hhead.imports i hi)).bind
    intro _
    apply (succeeds_function body hbody).bind
    intro _
    exact .pure _

end

theorem atomNames_eq_ok_iff {atoms names} :
    atomNames t atoms = .ok names ↔ List.Forall₂ (fun a name => t.name? a = some name) atoms names := by
  unfold atomNames
  rw [mapM_eq_ok]
  constructor
  · refine fun h => h.imp fun a name hname => ?_
    cases hget : t.name? a with
    | none =>
      rw [hget] at hname
      cases hname
    | some other =>
      rw [hget] at hname
      cases hname
      rfl
  · refine fun h => h.imp fun a name hname => ?_
    rw [hname]

/-- What an object is made of: version, names and value. -/
theorem encode_eq_ok_iff {v o bytes} :
    encode v t o = .ok bytes ↔ ∃ body s names, ((Write.value v).run ⟨t, o⟩).run ⟨#[], [], 0⟩ = .ok (body, s) ∧
      List.Forall₂ (fun a name => t.name? a = some name) s.atoms.toList names ∧
      bytes = version.toUInt8 :: Leb128.write names.length ++ names.flatMap Text.store ++ body := by
  unfold encode
  rw [bind_eq_ok]
  constructor
  · rintro ⟨⟨body, s⟩, hrun, h⟩
    obtain ⟨names, hnames, h⟩ := bind_eq_ok.mp h
    cases h
    exact ⟨body, s, names, hrun, atomNames_eq_ok_iff.mp hnames, rfl⟩
  · rintro ⟨body, s, names, hrun, hnames, rfl⟩
    exact ⟨(body, s), hrun, bind_eq_ok.mpr ⟨names, atomNames_eq_ok_iff.mpr hnames, rfl⟩⟩

/-- A value that a writer accepts is written, whatever the options are. -/
theorem exists_encode {v : Value} (h : v.Writable t) (o : WriteOptions) : ∃ bytes, encode v t o = .ok bytes := by
  have hsucceeds : Succeeds ⟨t, o⟩ (Write.value v) := succeeds_value v h
  obtain ⟨body, s, hrun, hnamed⟩ := hsucceeds ⟨#[], [], 0⟩ nofun
  obtain ⟨names, hnames⟩ : ∃ names, atomNames t s.atoms.toList = .ok names := by
    apply mapM_ok_of_forall
    intro a ha
    obtain ⟨name, hname⟩ := Option.isSome_iff_exists.mp (hnamed a ha)
    exact ⟨name, by simp [hname]⟩
  exact ⟨_, encode_eq_ok_iff.mpr ⟨body, s, names, hrun, atomNames_eq_ok_iff.mp hnames, rfl⟩⟩

end Object

end ScriptBytecode
