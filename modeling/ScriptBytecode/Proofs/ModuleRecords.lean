import ScriptBytecode.Proofs.CompiledRecords

/-!
# Records of modules

A module collects its imports before its body is emitted, its exports with the body and its variables after it. The
record that these tables become is consistent: indices refer to modules that are required, imports and closure
variables stand for each other, and every export of the syntax tree has its entry.
-/

namespace ScriptBytecode

variable {t : AtomTable} {i : Import}

/-! ## Imports -/

/-- The closure variables of a module that has declared its imports and nothing else. -/
structure ModuleTables.Imported (m : ModuleTables) (vars : Array ClosureVar) : Prop where
  size : vars.size = m.imports.size
  varIdx : ∀ (k : Nat) (i : Import), m.imports[k]? = some i → i.varIdx = k
  closureVar : ∀ (k : Nat) (v : ClosureVar), vars[k]? = some v → v.isLocal = false ∧ v.varIdx = k % 0x10000

theorem ModuleTables.imported_empty : empty.Imported #[] :=
  ⟨rfl, nofun, nofun⟩

/-- An import is declared together with its closure variable. -/
theorem ModuleTables.Imported.push {m : ModuleTables} {vars} (h : m.Imported vars) {v : ClosureVar}
    (hi : i.varIdx = vars.size) (hlocal : v.isLocal = false) (hv : v.varIdx = m.imports.size % 0x10000) :
    { m with imports := m.imports.push i }.Imported (vars.push v) where
  size := by simp [h.size]
  varIdx := by
    intro k j hj
    rw [Array.getElem?_push] at hj
    split at hj
    · cases hj
      exact hi.trans (h.size.trans ‹k = _›.symm)
    · exact h.varIdx k j hj
  closureVar := by
    intro k w hw
    rw [Array.getElem?_push] at hw
    split at hw
    · cases hw
      exact ⟨hlocal, by rw [hv, ‹k = _›, h.size]⟩
    · exact h.closureVar k w hw

/-- While a module is emitted, its tables list what was exported so far. -/
structure ModuleAt (items : List ExportItem) (m : ModuleTables) (s : EmitState) : Prop where
  tables : s.tables = some m
  sound : s.atoms.Sound
  lists : m.Lists s.atoms items
  imported : m.Imported s.draft.frame.closureVars

namespace ModuleAt

variable {items items' : List ExportItem} {m : ModuleTables} {s s' : EmitState}

variable (h : ModuleAt items m s)
include h

theorem intern {name a} (hrun : (Emit.intern name).run s = .ok (a, s')) : ModuleAt items m s' := by
  cases hrun
  exact { h with sound := h.sound.intern name, lists := h.lists.extend (h.sound.extends_intern name) }

/-- The body of a module exports, but it has no imports of its own. -/
theorem exported (hexported : Exported items' s s') (hsound : s'.atoms.Sound) :
    ∃ m', ModuleAt (items ++ items') m' s' := by
  obtain ⟨m', htables, himports, hlists⟩ := hexported.tables m h.tables items h.lists
  refine ⟨m', htables, hsound, hlists, ?_⟩
  rw [hexported.closureVars]
  exact ⟨himports ▸ h.imported.size, himports ▸ h.imported.varIdx, h.imported.closureVar⟩

/-- The texts of some attributes, whose keys are interned. -/
theorem attributeList {attributes : List ImportAttribute} {props}
    (hrun : (attributes.mapM fun (a : ImportAttribute) => do
      return (⟨← Emit.intern a.key, .string a.value⟩ : Property)).run s = .ok (props, s')) :
    ModuleAt items m s' ∧ ∃ texts : List (Atom × String), texts.length = attributes.length ∧
      props = texts.map fun (key, text) => ⟨key, .string text⟩ := by
  induction attributes generalizing s props with
  | nil =>
    cases hrun
    exact ⟨h, [], rfl, rfl⟩
  | cons a attributes ih =>
    rw [List.mapM_cons] at hrun
    obtain ⟨p, s₁, hfirst, hothers⟩ := run_bind_eq_ok.mp hrun
    obtain ⟨key, s₂, hkey, hp⟩ := run_bind_eq_ok.mp hfirst
    obtain ⟨rest, s₃, hrest, hresult⟩ := run_bind_eq_ok.mp hothers
    cases hp
    cases hresult
    obtain ⟨hs', texts, hlength, rfl⟩ := ih (h.intern hkey) hrest
    exact ⟨hs', (key, a.value) :: texts, congrArg (· + 1) hlength, rfl⟩

theorem attributesValue {attributes v} (hrun : (Emit.attributesValue attributes).run s = .ok (v, s')) :
    ModuleAt items m s' ∧ ∃ id texts, v = .ofAttributes id texts := by
  unfold Emit.attributesValue at hrun
  cases attributes with
  | nil =>
    cases hrun
    exact ⟨h, 0, [], rfl⟩
  | cons a attributes =>
    obtain ⟨props, s₁, hprops, hrun⟩ := run_bind_eq_ok.mp hrun
    obtain ⟨hs₁, texts, hlength, rfl⟩ := h.attributeList hprops
    cases hrun
    refine ⟨{ hs₁ with }, s₁.nextId, texts, ?_⟩
    cases texts with
    | nil => cases hlength
    | cons => rfl

theorem require {source v} (hv : ∃ id texts, v = .ofAttributes id texts) {idx}
    (hrun : (Emit.require source v).run s = .ok (idx, s')) : ∃ m', ModuleAt items m' s' ∧ idx < m'.requires.size := by
  unfold Emit.require at hrun
  rw [StateT.run_modifyGet, h.tables] at hrun
  cases hrun
  have himports := m.imports_require source v
  refine ⟨_, ⟨rfl, h.sound, h.lists.require source hv, ?_⟩, m.require_lt source v⟩
  exact ⟨himports ▸ h.imported.size, himports ▸ h.imported.varIdx, h.imported.closureVar⟩

theorem declareImport {reqModule} (hreq : reqModule < m.requires.size) {spec}
    (hrun : (Emit.declareImport reqModule spec).run s = .ok ((), s')) :
    ∃ m', ModuleAt items m' s' ∧ m'.requires = m.requires := by
  obtain ⟨binding, s₁, hbinding, hspec⟩ := run_bind_eq_ok.mp hrun
  have hs₁ := h.intern hbinding
  extract_lets rest at hspec
  have hdeclare : ∀ s₂ name isStar, ModuleAt items m s₂ → (rest (name, isStar)).run s₂ = .ok ((), s') →
      ∃ m', ModuleAt items m' s' ∧ m'.requires = m.requires := by
    intro s₂ name isStar hs₂ hrest
    obtain ⟨_, _, hframe, hcheck⟩ := run_bind_eq_ok.mp hrest
    cases hframe
    split at hcheck
    · obtain ⟨_, _, hmisuse, -⟩ := run_bind_eq_ok.mp hcheck
      cases hmisuse
    · obtain ⟨_, _, hget, hchange⟩ := run_bind_eq_ok.mp hcheck
      obtain ⟨_, _, hvar, htables⟩ := run_bind_eq_ok.mp hchange
      cases hget
      cases hvar
      cases htables
      refine ⟨_, ⟨congrArg (Option.map _) hs₂.tables, hs₂.sound, { hs₂.lists with imports := fun i hi => ?_ },
        hs₂.imported.push rfl rfl ?_⟩, rfl⟩
      · rcases Array.mem_push.mp hi with hi | rfl
        · exact hs₂.lists.imports i hi
        · exact hreq
      · rw [hs₂.tables]
        rfl
  clear_value rest
  cases spec with
  | named imported b =>
    obtain ⟨name, s₂, hname, hrest⟩ := run_bind_eq_ok.mp hspec
    rw [pure_bind] at hrest
    exact hdeclare s₂ name false (hs₁.intern hname) hrest
  | byDefault b =>
    rw [pure_bind] at hspec
    exact hdeclare s₁ _ _ hs₁ hspec
  | whole b =>
    rw [pure_bind] at hspec
    exact hdeclare s₁ _ _ hs₁ hspec

theorem declareSpecifiers {reqModule} (hreq : reqModule < m.requires.size)
    {specs : List ImportSpecifier} (hrun : (specs.forM (Emit.declareImport reqModule)).run s = .ok ((), s')) :
    ∃ m', ModuleAt items m' s' := by
  induction specs generalizing s m with
  | nil =>
    cases hrun
    exact ⟨m, h⟩
  | cons spec specs ih =>
    obtain ⟨⟨⟩, s₁, hfirst, hrest⟩ := run_bind_eq_ok.mp hrun
    obtain ⟨m₁, hs₁, hrequires⟩ := h.declareImport hreq hfirst
    exact ih hs₁ (hrequires ▸ hreq) hrest

theorem declareImports {d} (hrun : (Emit.declareImports d).run s = .ok ((), s')) : ∃ m', ModuleAt items m' s' := by
  obtain ⟨source, s₁, hsource, hrest₁⟩ := run_bind_eq_ok.mp hrun
  obtain ⟨v, s₂, hv, hrest₂⟩ := run_bind_eq_ok.mp hrest₁
  obtain ⟨idx, s₃, hrequire, hspecs⟩ := run_bind_eq_ok.mp hrest₂
  obtain ⟨hs₂, hattributes⟩ := (h.intern hsource).attributesValue hv
  obtain ⟨m₃, hs₃, hlt⟩ := hs₂.require hattributes hrequire
  exact hs₃.declareSpecifiers hlt hspecs

/-- All imports are declared before the body of a module. -/
theorem imports {stmts : List Stmt} (hrun : (stmts.forM fun
    | .importDecl d => Emit.declareImports d
    | _ => pure ()).run s = .ok ((), s')) : ∃ m', ModuleAt items m' s' := by
  induction stmts generalizing s m with
  | nil =>
    cases hrun
    exact ⟨m, h⟩
  | cons stmt stmts ih =>
    obtain ⟨⟨⟩, s₁, hfirst, hrest⟩ := run_bind_eq_ok.mp hrun
    have hs₁ : ∃ m₁, ModuleAt items m₁ s₁ := by
      dsimp only at hfirst
      split at hfirst
      · exact h.declareImports hfirst
      · cases hfirst
        exact ⟨m, h⟩
    obtain ⟨m₁, hs₁⟩ := hs₁
    exact ih hs₁ hrest

end ModuleAt

/-- When a module is emitted, its own variables stand behind its imports. -/
theorem exists_tables_of_moduleBody {r : Parts} (hr : r.Drafting) (ht : t.Sound)
    (hpredefined : AtomTable.initial.Extends t) {name line strict source stmts s}
    (hrun : (Emit.moduleBody r stmts).run ⟨t, 0, none,
      .initial { Frame.initial name .module line 0 strict with source } []⟩ = .ok ((), s)) :
    ∃ m vars own, s.tables = some m ∧ m.Lists s.atoms (stmtsExports stmts) ∧ m.Imported vars ∧
      s.draft.frame.closureVars = vars ++ own ∧ ∀ v ∈ own, v.isLocal := by
  obtain ⟨⟨⟩, s₀, htables, hrest₀⟩ := run_bind_eq_ok.mp hrun
  obtain ⟨⟨⟩, s₁, himports, hrest₁⟩ := run_bind_eq_ok.mp hrest₀
  obtain ⟨⟨⟩, s₂, hbody, hrest₂⟩ := run_bind_eq_ok.mp hrest₁
  obtain ⟨⟨⟩, s₃, hreturn, hvars⟩ := run_bind_eq_ok.mp hrest₂
  cases htables
  have hstart : ModuleAt [] .empty
      ⟨t, 0, some .empty, .initial { Frame.initial name .module line 0 strict with source } []⟩ :=
    ⟨rfl, ht, ModuleTables.lists_empty t, ModuleTables.imported_empty⟩
  obtain ⟨m₁, hs₁⟩ := hstart.imports himports
  have himported := Drafts.imports (d := 0) rfl rfl stmts _ _ _ (Supply.ready_module false ht hpredefined) himports
  have hready := himported.ready (Supply.ready_module false ht hpredefined)
  have hquiet : ({ Supply.start [] none true false with importing := false } : Supply).Ready s₁ := { hready with }
  obtain ⟨hdrafted, -, hexported, -⟩ := Drafts.body rfl (by nofun) (.pure _) _ _ _ hquiet hbody
  obtain ⟨m, hs₂⟩ := hs₁.exported (hexported rfl) (hdrafted.kept.sound hs₁.sound)
  cases hreturn
  cases hvars
  refine ⟨m, s₂.draft.frame.closureVars, _, hs₂.tables, hs₂.lists, hs₂.imported, rfl, fun v hv => ?_⟩
  obtain ⟨i, hi, rfl⟩ := Array.mem_mapIdx.mp hv
  rfl

/-! ## Records -/

/-- The entry that an export has in the record of a module. -/
inductive ModuleRecord.Provides (m : ModuleRecord) (t : AtomTable) : ExportItem → Export → Prop
  /-- A variable of the module, or another module that is imported as a whole. -/
  | ofVar {name exported : String} {b a : Atom} {k : Nat} (binding : t.atom? name = some b)
      (exported_eq : t.atom? exported = some a) (var : m.body.closureVars.findIdx? (·.name == b) = some k)
      (whole : ∀ i ∈ m.imports, i.varIdx = k → i.isStar = true) :
      Provides m t (.binding name exported) (.ofLocal k a)
  /-- What was imported is an export of the other module. -/
  | ofImport {name exported : String} {b a : Atom} {i : Import} (mem : i ∈ m.imports)
      (binding : t.atom? name = some b) (exported_eq : t.atom? exported = some a)
      (var : m.body.closureVars.findIdx? (·.name == b) = some i.varIdx) (single : i.isStar = false) :
      Provides m t (.binding name exported) (.ofModule i.reqModule i.name a)
  | ofModule {item : ExportItem} {e : Export} (enters : e.Enters t m.requires item) : Provides m t item e

/-- The record of a module that exports `items` is consistent. -/
structure ModuleRecord.Links (m : ModuleRecord) (t : AtomTable) (items : List ExportItem) : Prop where
  imports_lt : ∀ i ∈ m.imports, i.reqModule < m.requires.length
  exports_lt : ∀ idx name exported, .ofModule idx name exported ∈ m.exports → idx < m.requires.length
  starExports_lt : ∀ idx ∈ m.starExports, idx < m.requires.length
  /-- No module is required twice under the same attributes. -/
  requires_nodup : (m.requires.map fun r => (r.key, r.value.attributes)).Nodup
  /-- Imports and the closure variables that are not the module's own refer to each other. -/
  closureVar : ∀ (k : Nat) (i : Import), m.imports[k]? = some i →
    ∃ v, m.body.closureVars[i.varIdx]? = some v ∧ v.isLocal = false ∧ v.varIdx = k
  imported : ∀ (k : Nat) (v : ClosureVar), m.body.closureVars[k]? = some v → v.isLocal = false →
    ∃ i, m.imports[v.varIdx]? = some i ∧ i.varIdx = k
  exports : List.Forall₂ (m.Provides t) (items.filter (·.isBinding) ++ items.filter (·.isReexport)) m.exports
  starExports : List.Forall₂ (EntersAll t m.requires) (items.filter (·.isAll)) m.starExports

theorem RequiredAt.lt {requires source idx} (h : RequiredAt t requires source idx) : idx < requires.length := by
  obtain ⟨a, -, hidx⟩ := h
  exact (List.getElem?_eq_some_iff.mp hidx).1

namespace ModuleTables.Imported

variable {m : ModuleTables} {vars own : Array ClosureVar}

variable (h : m.Imported vars)
include h

theorem closureVar_of_import (own : Array ClosureVar) {k} (hi : m.imports[k]? = some i) :
    ∃ v, (vars ++ own)[k]? = some v ∧ v.isLocal = false ∧ v.varIdx = k % 0x10000 := by
  have hlt : k < vars.size := h.size ▸ (Array.getElem?_eq_some_iff.mp hi).1
  exact ⟨vars[k], (Array.getElem?_append_left hlt).trans (Array.getElem?_eq_getElem hlt),
    h.closureVar k _ (Array.getElem?_eq_getElem hlt)⟩

theorem import_of_closureVar (hown : ∀ v ∈ own, v.isLocal) {k v} (hv : (vars ++ own)[k]? = some v)
    (hlocal : v.isLocal = false) : ∃ i, m.imports[k]? = some i ∧ v.varIdx = k % 0x10000 := by
  by_cases hlt : k < vars.size
  · rw [Array.getElem?_append_left hlt] at hv
    have hlt' : k < m.imports.size := h.size ▸ hlt
    exact ⟨m.imports[k], Array.getElem?_eq_getElem hlt', (h.closureVar k v hv).2⟩
  · rw [Array.getElem?_append_right (not_lt.mp hlt)] at hv
    cases (hown v (Array.mem_of_getElem? hv)).symm.trans hlocal

/-- An import is known by its closure variable. -/
theorem import_unique {j} (hi : i ∈ m.imports) (hj : j ∈ m.imports) (heq : i.varIdx = j.varIdx) : i = j := by
  obtain ⟨k, hk⟩ := Array.mem_iff_getElem?.mp hi
  obtain ⟨l, hl⟩ := Array.mem_iff_getElem?.mp hj
  rw [h.varIdx k i hk, h.varIdx l j hl] at heq
  subst heq
  exact Option.some.inj (hk.symm.trans hl)

/-- The export of a binding becomes an entry of the record. -/
theorem resolveExport {r : ModuleRecord} (himports : r.imports = m.imports.toList)
    (hvars : r.body.closureVars = (vars ++ own).toList) {item} {e : LocalExport} {x} (he : e.Enters t item)
    (hx : m.resolveExport (vars ++ own) e = .ok x) : r.Provides t item x := by
  obtain ⟨binding, exported_eq⟩ := he
  unfold ModuleTables.resolveExport at hx
  split at hx
  · cases hx
  · rename_i k hk
    have hvar : r.body.closureVars.findIdx? (·.name == e.binding) = some k := by
      rw [hvars]
      exact (List.findIdx?_toArray _ _).symm.trans hk
    have hmem : ∀ i ∈ r.imports, i ∈ m.imports := fun i hi => Array.mem_toList_iff.mp (himports ▸ hi)
    split at hx
    · rename_i hlocal
      cases hx
      refine .ofVar binding exported_eq hvar fun i hi heq => ?_
      obtain ⟨l, hl⟩ := Array.mem_iff_getElem?.mp (hmem i hi)
      obtain ⟨v, hv, himported, -⟩ := h.closureVar_of_import own hl
      rw [← heq, h.varIdx l i hl, hv] at hlocal
      cases himported.symm.trans hlocal
    · split at hx
      · rename_i i hfind
        have hi := Array.mem_of_find?_eq_some hfind
        have hvarIdx : i.varIdx = k := by simpa using Array.find?_some hfind
        split at hx
        · rename_i hstar
          cases hx
          exact .ofVar binding exported_eq hvar fun j hj heq =>
            h.import_unique hi (hmem j hj) (hvarIdx.trans heq.symm) ▸ hstar
        · rename_i hstar
          cases hx
          exact .ofImport (himports ▸ Array.mem_toList_iff.mpr hi) binding exported_eq (hvarIdx ▸ hvar)
            (by simpa using hstar)
      · rename_i hnone
        cases hx
        refine .ofVar binding exported_eq hvar fun i hi heq => ?_
        exact absurd (beq_iff_eq.mpr heq) (Array.find?_eq_none.mp hnone i (hmem i hi))

end ModuleTables.Imported

/-- The tables of a module become a consistent record. -/
theorem ModuleTables.Lists.links {items} {m : ModuleTables} {vars own} (h : m.Lists t items)
    (himported : m.Imported vars) (hown : ∀ v ∈ own, v.isLocal) {name} {body : FunctionRecord} {r}
    (hbody : body.closureVars = (vars ++ own).toList) (hlimit : (vars ++ own).size < 0x10000)
    (hr : m.record name (vars ++ own) body = .ok r) : r.Links t items := by
  obtain ⟨exports, hexports, hr⟩ := bind_eq_ok.mp hr
  have hprovides :
      List.Forall₂ (r.Provides t) (items.filter (·.isBinding) ++ items.filter (·.isReexport)) r.exports := by
    cases hr
    refine List.rel_append (forall₂_comp ?_ h.localExports (mapM_eq_ok.mp hexports)) ?_
    · exact fun he hx => himported.resolveExport rfl hbody he hx
    · exact h.indirectExports.imp fun _ _ he => .ofModule he
  cases hr
  have himports : ∀ i ∈ m.imports.toList, i.reqModule < m.requires.toList.length := by
    intro i hi
    rw [Array.length_toList]
    exact h.imports i (Array.mem_toList_iff.mp hi)
  exact {
    imports_lt := himports
    exports_lt := by
      intro idx name exported he
      obtain ⟨item, -, hitem⟩ := exists_left_of_forall₂ hprovides he
      cases hitem with
      | ofImport mem => exact himports _ mem
      | ofModule enters =>
        cases enters with
        | mk required => exact required.lt
    starExports_lt := by
      intro idx hidx
      obtain ⟨item, -, hitem⟩ := exists_left_of_forall₂ h.starExports hidx
      cases hitem with
      | mk required => exact required.lt
    requires_nodup := h.distinct
    closureVar := by
      intro k i hi
      rw [Array.getElem?_toList] at hi
      obtain ⟨v, hv, hlocal, hvarIdx⟩ := himported.closureVar_of_import own hi
      have hlt := (Array.getElem?_eq_some_iff.mp hv).1
      rw [himported.varIdx k i hi, hbody, Array.getElem?_toList]
      exact ⟨v, hv, hlocal, hvarIdx.trans (Nat.mod_eq_of_lt (hlt.trans hlimit))⟩
    imported := by
      intro k v hv hlocal
      rw [hbody, Array.getElem?_toList] at hv
      have hlt := (Array.getElem?_eq_some_iff.mp hv).1
      obtain ⟨i, hi, hvarIdx⟩ := himported.import_of_closureVar hown hv hlocal
      rw [hvarIdx, Nat.mod_eq_of_lt (hlt.trans hlimit), Array.getElem?_toList]
      exact ⟨i, hi, himported.varIdx k i hi⟩
    exports := hprovides
    starExports := h.starExports }

/-! ## Programs -/

theorem exists_tables_of_emitProgram {options : CompileOptions} {p : Program} {tree filename s}
    (hmodule : options.asModule ∨ p.sourceType = .module) (h : emitProgram options p = .ok (tree, filename, s)) :
    ∃ m vars own, s.tables = some m ∧ m.Lists s.atoms (stmtsExports p.body) ∧ m.Imported vars ∧
      tree.frame.closureVars = vars ++ own ∧ ∀ v ∈ own, v.isLocal := by
  have hisModule : (options.asModule || p.sourceType = .module) := by simpa using hmodule
  unfold emitProgram at h
  obtain ⟨⟨⟨⟩, s'⟩, hrun, hok⟩ := bind_eq_ok.mp h
  cases hok
  simp only [hisModule, if_true] at hrun
  exact exists_tables_of_moduleBody (Parts.drafting_ofDepth _) (AtomTable.sound_initial.intern options.filename)
    (AtomTable.sound_initial.extends_intern options.filename) hrun

/-- What is not nested in another function captures nothing. -/
theorem Stack.closureVars_eq {e f} (h : Stack [e] [f]) : f.closureVars = e.closureVars := by
  cases h with
  | outermost _ _ closureVars => exact closureVars

/-- A module that is compiled has a consistent record, which lists what its syntax tree exports. -/
theorem Program.links_of_compile {p : Program} {options : CompileOptions} {c : Compiled}
    (hmodule : options.asModule = true ∨ p.sourceType = .module) (h : p.compile options = .ok c) :
    ∃ id m, c.value = .module id m ∧ m.Links c.atoms (stmtsExports p.body) := by
  obtain ⟨⟨tree, filename, s⟩, hemit, h⟩ := bind_eq_ok.mp h
  obtain ⟨⟨tree', naming⟩, hresolve, h⟩ := bind_eq_ok.mp h
  obtain ⟨value, hbuild, h⟩ := bind_eq_ok.mp h
  cases h
  have hprogram := emittedProgram_emitProgram hemit
  obtain ⟨hadvances, -, hthroughout⟩ :=
    Naming.resolvedFunctions_resolveTree hprogram.tree.scoped (fun h => absurd rfl h) .nil hresolve
  rw [hadvances.stack.eq_nil] at hthroughout
  obtain ⟨m, vars, own, htables, hlists, himported, hvars, hown⟩ := exists_tables_of_emitProgram hmodule hemit
  have hclosureVars : tree'.frame.closureVars = vars ++ own := hthroughout.root.stack.closureVars_eq.trans hvars
  obtain ⟨⟨f, nextId⟩, hfunction, hvalue⟩ := bind_eq_ok.mp hbuild
  have hbuilt := Build.built_of_function hfunction
  rw [htables, hclosureVars] at hvalue
  obtain ⟨r, hr, hvalue⟩ := bind_eq_ok.mp hvalue
  cases hvalue
  have hbody : f.closureVars = (vars ++ own).toList := hclosureVars ▸ hbuilt.closureVars
  have hlimit : (vars ++ own).size < 0x10000 := by
    rw [← Array.length_toList, ← hbody]
    exact hbuilt.closureLimit
  exact ⟨nextId, r, rfl, (hlists.extend (hadvances.names hprogram.sound)).links himported hown hbody hlimit hr⟩

/-- The module `import d, { x as y } from "m"; import * as ns from "n" with { type: "json" }; export { y as z, ns };
export { w } from "m"; export * from "m"; export * as q from "n"; export let a, b; export default function () {}`, which
requires `n` with and without attributes. -/
def Program.linkedModule : Program where
  body :=
    let ident (name : String) : Ident := ⟨name, .unknown⟩
    let spec (binding exported : String) : ExportSpecifier := ⟨binding, exported, .unknown⟩
    let declare (name : String) : Declarator := ⟨.ident (ident name), none, .unknown⟩
    [.importDecl ⟨[.byDefault (ident "d"), .named "x" (ident "y")], "m", [], .unknown⟩,
      .importDecl ⟨[.whole (ident "ns")], "n", [⟨"type", "json"⟩], .unknown⟩,
      .exportDecl (.named [spec "y" "z", spec "ns" "ns"] none) .unknown,
      .exportDecl (.named [spec "w" "w"] (some "m")) .unknown,
      .exportDecl (.all "m") .unknown,
      .exportDecl (.allAs "q" "n") .unknown,
      .exportDecl (.decl (.varDecl ⟨.let_, [declare "a", declare "b"], .unknown⟩)) .unknown,
      .exportDecl (.defaultDecl (.functionDecl ⟨none, [], .block [], false, false, false, none, .unknown⟩)) .unknown]
  sourceType := .module
  strict := false
  source := none
  span := .unknown

def Value.module? : Value → Option ModuleRecord
  | .module _ m => some m
  | _ => none

theorem Program.links_linkedModule : ∃ c id m, Program.linkedModule.compile .standard = .ok c ∧
    c.value = .module id m ∧ m.requires.length = 3 ∧ m.imports.length = 3 ∧ m.exports.length = 7 ∧
      m.starExports = [0] ∧ m.Links c.atoms (stmtsExports Program.linkedModule.body) := by
  have hok : (do
      let c ← Program.linkedModule.compile .standard
      return c.value.module?.map fun m : ModuleRecord =>
        (m.requires.length, m.imports.length, m.exports.length, m.starExports)) =
        .ok (some (3, 3, 7, [0])) := by decide +kernel
  obtain ⟨c, hc, hok⟩ := bind_eq_ok.mp hok
  obtain ⟨id, m, hvalue, hlinks⟩ := links_of_compile (.inr rfl) hc
  rw [hvalue] at hok
  simp only [Value.module?, Option.map_some, pure, Except.pure, Except.ok.injEq, Option.some.injEq,
    Prod.mk.injEq] at hok
  obtain ⟨hrequires, himports, hexports, hstars⟩ := hok
  exact ⟨c, id, m, hc, hvalue, hrequires, himports, hexports, hstars, hlinks⟩

end ScriptBytecode
