import ScriptBytecode.Compiler
import ScriptBytecode.Proofs.Drafting.Classes
import ScriptBytecode.Proofs.Drafting.Statements

/-!
# Drafts of programs

All emitters keep to the rules, by induction on the depth of trees. So every function of an emitted program comes
from a draft that was begun empty, and its code cannot be left at its end.
-/

namespace ScriptBytecode

variable {s s' : EmitState} {t : AtomTable}

theorem Parts.drafting_ofDepth (depth : Nat) : (Parts.ofDepth depth).Drafting := by
  induction depth with
  | zero =>
    exact {
      expr := fun _ _ _ => .fault _
      spine := fun _ _ _ => .fault _
      stmt := fun _ _ _ => .fault _
      bind := fun _ _ _ _ => .fault _
      function := fun _ _ _ => .fault _
      classDef := fun _ _ _ => .fault _ }
  | succ depth ih =>
    exact {
      expr := fun hd he hname => .expr hd hname he
      spine := fun hd hchain he => .spine hd hchain (Supply.knows_none _) he
      stmt := fun names _ hs => .stmt names hs
      bind := fun kind _ hd hp => .bindPattern hd kind hp
      function := fun hf hname hrole => Drafts.function hf hname hrole
      classDef := fun hd hc hname => .classDef hd hc hname }

/-! ## Functions that were emitted -/

/-- A draft before anything is emitted. -/
inductive Draft.Begins (t : AtomTable) : Draft → Prop
  | function {name : Atom} {role : Role} (known : t.Covers name) (isNested : role.isTopLevel = false)
      (line scope : Nat) (strict : Bool) (outer : List Frame) :
      Begins t (.initial (.initial name role line scope strict) outer)
  /-- The first variable of a script holds its completion value. -/
  | script (line : Nat) (strict : Bool) (source : Option String) :
      Begins t { Draft.initial { Frame.initial .evalCode .script line 0 strict with
        source, scopes := ScopeTree.initial.addVar .completion } [] with completion := some 0 }
  | module {name : Atom} (known : t.Covers name) (line : Nat) (strict : Bool) (source : Option String) :
      Begins t (.initial { Frame.initial name .module line 0 strict with source } [])

theorem Draft.Begins.children_eq {d : Draft} (h : d.Begins t) : d.children = #[] := by
  cases h <;> rfl

/-- A tree of functions that were emitted; `t` has at least their atoms. -/
inductive FunctionTree.Emitted (t : AtomTable) (measured : Bool := false) : FunctionTree → Prop
  | mk {s s' : EmitState} {e : Nat} (sound : s.atoms.Sound) (begins : s.draft.Begins s.atoms)
      (drafted : Drafted measured [] [] 0 e s s') (closed : s'.draft.IsClosed)
      (covers : ∀ a, s'.atoms.Covers a → t.Covers a)
      (nested : ∀ c ∈ s'.draft.children, c.frame.role.isTopLevel = false)
      (children : ∀ c ∈ s'.draft.children, Emitted t measured c) : Emitted t measured s'.draft.tree

theorem FunctionTree.Emitted.child {atoms} {t : FunctionTree} {c} (h : t.Emitted atoms) (hc : c ∈ t.children) :
    c.frame.role.isTopLevel = false ∧ c.Emitted atoms := by
  cases h with
  | mk sound begins drafted closed covers nested children =>
    have hc' := Array.mem_toList_iff.mp hc
    exact ⟨nested c hc', children c hc'⟩

theorem FunctionTree.Emitted.mono {atoms} {atoms' : AtomTable} {t : FunctionTree} (h : t.Emitted atoms)
    (hatoms : ∀ a, atoms.Covers a → atoms'.Covers a) : t.Emitted atoms' := by
  induction h with
  | mk sound begins drafted closed covers nested _ ih =>
    exact .mk sound begins drafted closed (fun a ha => hatoms a (covers a ha)) nested ih

/-- Functions are nested by emitting them. -/
theorem Drafted.children {measured labels marks d e} (h : Drafted measured labels marks d e s s') (hs : s.atoms.Sound)
    (ht : ∀ a, s'.atoms.Covers a → t.Covers a) :
    ∀ c ∈ s'.draft.children, c ∈ s.draft.children ∨ (c.frame.role.isTopLevel = false ∧ c.Emitted t measured) := by
  induction h with
  | refl | put => exact fun _ hc => .inl hc
  | step step => cases step <;> exact fun _ hc => .inl hc
  | trans first second ih₁ ih₂ =>
    intro c hc
    have hs₁ := first.kept.sound hs
    rcases ih₂ hs₁ ht c hc with hc | hc
    · exact ih₁ hs (fun a ha => ht a (second.kept.covers hs₁ a ha)) c hc
    · exact .inr hc
  | unmeasured _ _ _ _ ih | reorder _ _ ih | label _ _ ih | spareLabel _ ih | within _ _ ih | chained _ _ ih
  | uncompleted _ ih => exact ih hs ht
  | @nested _ _ _ _ _ _ s' _ _ _ known isNested line scope strict inner closed rest _ ih₁ ih₂ =>
    intro c hc
    have hs' := inner.kept.sound hs
    have ht' : ∀ a, s'.atoms.Covers a → t.Covers a := fun a ha => ht a (rest.kept.covers hs' a ha)
    rcases ih₂ hs' ht c hc with hc | hc
    · rcases Array.mem_push.mp hc with hc | rfl
      · exact .inl hc
      · have hchildren : ∀ c ∈ s'.draft.children, c.frame.role.isTopLevel = false ∧ c.Emitted t measured := fun c hc =>
          (ih₁ hs ht' c hc).resolve_left (by simp [EmitState.enter, Draft.initial])
        refine .inr ⟨?_, .mk ?_ ?_ inner closed ht' (fun c hc => (hchildren c hc).1) fun c hc => (hchildren c hc).2⟩
        · exact (congrArg Role.isTopLevel inner.kept.role).trans isNested
        · exact hs
        · exact .function known isNested _ _ _ _
    · exact .inr hc

theorem ModuleTables.Covered.mono {t' : AtomTable} {m : ModuleTables} (h : m.Covered t)
    (ht : ∀ a, t.Covers a → t'.Covers a) : m.Covered t' where
  requires := by
    intro r hr
    obtain ⟨hkey, hvalue⟩ := h.requires r hr
    refine ⟨ht _ hkey, hvalue.imp_right ?_⟩
    rintro ⟨id, props, heq, hprops⟩
    exact ⟨id, props, heq, fun p hp => ⟨ht _ (hprops p hp).1, (hprops p hp).2⟩⟩
  imports := fun i hi => ht _ (h.imports i hi)
  localExports := fun e he => ht _ (h.localExports e he)
  indirectExports := by
    intro e he
    have hcovered := h.indirectExports e he
    cases e with
    | ofLocal _ name => exact ht _ hcovered
    | ofModule _ localName name => exact ⟨ht _ hcovered.1, ht _ hcovered.2⟩

/-- The tables of a module have only atoms with names. -/
theorem Drafted.tables {measured labels marks d e} (h : Drafted measured labels marks d e s s') (hs : s.atoms.Sound)
    (htables : ∀ m ∈ s.tables, m.Covered s.atoms) : ∀ m ∈ s'.tables, m.Covered s'.atoms := by
  induction h with
  | refl | put => exact htables
  | step step =>
    cases step with
    | intern name => exact fun m hm => (htables m hm).mono fun a ha => ha.intern hs name
    | tables covered => exact covered htables
    | _ => exact htables
  | trans first _ ih₁ ih₂ => exact ih₂ (first.kept.sound hs) (ih₁ hs htables)
  | unmeasured _ _ _ _ ih | reorder _ _ ih | label _ _ ih | spareLabel _ ih | within _ _ ih | chained _ _ ih
  | uncompleted _ ih => exact ih hs htables
  | nested _ _ _ _ _ inner _ _ _ ih₁ ih₂ => exact ih₂ (inner.kept.sound hs) (ih₁ hs htables)

/-! ## Imports -/

/-- The keys of an object of attributes. -/
def attributeNames : Value → List Atom
  | .object _ props => props.map (·.key)
  | _ => []

namespace Drafts

variable {C : Supply} {d : Nat} {r : Parts} [hr : r.Drafting]

theorem attributesValue (attributes : List ImportAttribute) :
    Drafts C d (Emit.attributesValue attributes) (fun _ => d) [] attributeNames := by
  refine .ite (fun _ => result _ rfl nofun) fun _ => ?_
  refine .bind (mapM (fun p => [p.key]) fun _ a _ => ?_) fun props => ?_
  · exact intern _ fun _ => result _ rfl fun _ ha => Supply.knows_of_mem ha
  · refine .seq freshId fun id => result _ rfl fun a ha => Supply.knows_of_mem ?_
    obtain ⟨p, hp, rfl⟩ := List.mem_map.mp ha
    exact List.mem_flatMap.mpr ⟨p, hp, List.mem_cons_self⟩

/-- Attributes are texts. -/
theorem returns_attributesValue (attributes : List ImportAttribute) :
    Returns (Emit.attributesValue attributes) fun v =>
      v = .undefined ∨ ∃ id props, v = .object id props ∧ ∀ p ∈ props, p.value.isText := by
  unfold Emit.attributesValue
  split
  · exact .pure (.inl rfl)
  · have htexts := Returns.mapM (P := fun p : Property => p.value.isText = true)
      (f := fun a => do return ⟨← Emit.intern a.key, .string a.value⟩) fun a (_ : a ∈ attributes) =>
      .bind (.any _) fun key _ => .pure rfl
    refine .bind htexts fun props hprops => ?_
    exact .bind (.any _) fun id _ => .pure (.inr ⟨id, props, rfl, hprops⟩)

theorem declareImport (hmodule : C.inModule) (himporting : C.importing) (reqModule : Nat) (s : ImportSpecifier) :
    Drafts C d (Emit.declareImport reqModule s) (fun _ => d) := by
  refine intern _ fun binding => ?_
  extract_lets rest
  have hrest : ∀ C' name isStar, C'.inModule = true → C'.importing = true → Supply.Knows C' binding →
      Supply.Knows C' name → Drafts C' d (rest (name, isStar)) (fun _ => d) := by
    intro C' name isStar hmodule' himporting' hbinding hname
    refine .read (.of_state _) fun f => ?_
    extract_lets rest'
    have hrest' : ∀ u, Drafts C' d (rest' u) (fun _ => d) := by
      intro u
      have hnot : C'.importing ≠ false := by simp [himporting']
      refine .read (.of_state id) fun _ =>
        .seq (of_exported (fun s hs => .step (.frame ?_)) (fun _ => rfl) fun h => absurd h hnot) fun _ =>
        modifyTables hmodule' (fun s hs m hm => { hm with imports := fun i hi => ?_ }) fun h => absurd h hnot
      · exact .imported (hs.role hmodule') (hs.covers hbinding) _
      · rcases Array.mem_push.mp hi with hi | rfl
        · exact hm.imports i hi
        · exact hs.covers hname
    exact .ite (fun _ => .seq (misuse _ _) hrest') fun _ => hrest' ()
  clear_value rest
  have hbinding := C.knows_self binding
  cases s with
  | named imported b =>
    refine intern _ fun name => ?_
    rw [pure_bind]
    exact hrest _ name false hmodule himporting (hbinding.know _) (Supply.knows_self _ name)
  | byDefault b =>
    rw [pure_bind]
    exact hrest _ _ _ hmodule himporting hbinding (.inl rfl)
  | whole b =>
    rw [pure_bind]
    exact hrest _ _ _ hmodule himporting hbinding (.inl rfl)

theorem require {source} (hsource : C.Knows source) {attributes : Value}
    (hattributes : ∀ s, C.Ready s → attributes.IsAttributes s.atoms) (himporting : C.importing) :
    Drafts C d (Emit.require source attributes) (fun _ => d) := by
  intro s a s' hs hrun
  have hnot : C.importing ≠ false := by simp [himporting]
  unfold Emit.require at hrun
  rw [StateT.run_modifyGet] at hrun
  split at hrun
  · rename_i m hm
    cases hrun
    refine ⟨.step (.tables fun hold m' hm' => ?_), nofun, fun h => absurd h hnot, fun _ => rfl⟩
    cases hm'
    exact (hold m hm).require (hs.covers hsource) (hattributes s hs)
  · cases hrun
    exact ⟨.refl _ _ _, nofun, fun h => absurd h hnot, fun _ => rfl⟩

theorem declareImports (hmodule : C.inModule) (himporting : C.importing) (v : ImportDecl) :
    Drafts C d (Emit.declareImports v) (fun _ => d) := by
  refine intern _ fun source => .bind_of (attributesValue _) (returns_attributesValue _)
    fun attributes hattributes => ?_
  refine .seq (require ((C.knows_self source).know _) (fun s hs => ?_) himporting) fun _ => forM fun _ _ =>
    declareImport (C := (C.know [source]).know (attributeNames attributes)) hmodule himporting _ _
  refine hattributes.imp_right ?_
  rintro ⟨id, props, rfl, hprops⟩
  refine ⟨id, props, rfl, fun p hp => ⟨hs.covers (Supply.knows_of_mem ?_), hprops p hp⟩⟩
  exact List.mem_map_of_mem hp

/-- The imports of a module are declared before its body is emitted. -/
theorem imports (hmodule : C.inModule) (himporting : C.importing) (stmts : List Stmt) :
    Drafts C d (stmts.forM fun
      | .importDecl v => Emit.declareImports v
      | _ => pure ()) (fun _ => d) := by
  refine forM fun s _ => ?_
  split
  · exact declareImports hmodule himporting _
  · exact .pure _

/-! ## Programs -/

/-- A script, once its completion value has a variable. -/
theorem scriptBody (hC : C.enclosed = false) (hcompletion : C.completion = some 0) {stmts : List Stmt}
    (hstmts : ∀ s ∈ stmts, C.Allows (s.isRegular false)) :
    Drafts C C.base (do
      Emit.body r stmts (pure ())
      Emit.opCount .getLoc 0
      Emit.op .returnValue) (fun _ => 0) [] noNames (stmtsExports stmts) :=
  .exporting_all (body hC hstmts (.pure _)) fun _ =>
  .seq (put (fun _ hs => .completion (.inl rfl) (hs.completion.trans hcompletion))
    fun _ _ => adds_plain 0 1 _ rfl) fun _ =>
  opLast 1 rfl 0

/-- A module, once it has tables. -/
theorem moduleBody (hC : C.enclosed = false) (hmodule : C.inModule) (himporting : C.importing) {stmts : List Stmt}
    (hstmts : ∀ s ∈ stmts, C.Allows (s.isRegular false)) :
    Drafts C C.base (do
      stmts.forM fun
        | .importDecl v => Emit.declareImports v
        | _ => pure ()
      Emit.body r stmts (pure ())
      Emit.op .returnUndef
      Emit.addModuleVars) (fun _ => 0) [] noNames (stmtsExports stmts) := by
  have hnot : C.importing ≠ false := by simp [himporting]
  exact .seq (imports hmodule himporting stmts) fun _ => .exporting_all (body hC hstmts (.pure _)) fun _ =>
    .seq (opLast 0 rfl 0) fun _ =>
    of_exported (fun _ hs => .step (.frame (.moduleVars (hs.role hmodule)))) (fun _ => rfl) fun h => absurd h hnot

end Drafts

theorem Closes.scriptBody (r : Parts) (stmts : List Stmt) : Closes (do
    Emit.body r stmts (pure ())
    Emit.opCount .getLoc 0
    Emit.op .returnValue) :=
  .bind fun _ => .bind fun _ => .op rfl

theorem Closes.moduleBody (r : Parts) (stmts : List Stmt) : Closes (do
    stmts.forM fun
      | .importDecl d => Emit.declareImports d
      | _ => pure ()
    Emit.body r stmts (pure ())
    Emit.op .returnUndef
    Emit.addModuleVars) := by
  refine .bind fun _ => .bind fun _ => ?_
  intro s a s' hrun
  cases hrun
  exact ⟨.returnUndef, .none, Array.back?_push, rfl⟩

/-- What is there after a program was emitted. -/
structure EmittedProgram (tree : FunctionTree) (filename : Atom) (s : EmitState) (measured : Bool := false) : Prop where
  sound : s.atoms.Sound
  dense : s.atoms.Dense
  filename : s.atoms.Covers filename
  tree : tree.Emitted s.atoms measured
  tables : ∀ m ∈ s.tables, m.Covered s.atoms

theorem emittedProgram_of_drafted {filename measured e} (hsound : s.atoms.Sound) (hdense : s.atoms.Dense)
    (hfilename : s.atoms.Covers filename) (hbegins : s.draft.Begins s.atoms)
    (htables : ∀ m ∈ s.tables, m.Covered s.atoms) (hdrafted : Drafted measured [] [] 0 e s s')
    (hclosed : s'.draft.IsClosed) : EmittedProgram s'.draft.tree filename s' measured where
  sound := hdrafted.kept.sound hsound
  dense := hdrafted.kept.dense hsound hdense
  filename := hdrafted.kept.covers hsound _ hfilename
  tree := by
    have hchildren : ∀ c ∈ s'.draft.children, c.frame.role.isTopLevel = false ∧ c.Emitted s'.atoms measured :=
      fun c hc => (hdrafted.children hsound (fun _ ha => ha) c hc).resolve_left (by simp [hbegins.children_eq])
    exact .mk hsound hbegins hdrafted hclosed (fun _ ha => ha) (fun c hc => (hchildren c hc).1)
      fun c hc => (hchildren c hc).2
  tables := hdrafted.tables hsound htables

section

variable {r : Parts} [r.Drafting] {t : AtomTable} {filename name : Atom} {line : Nat} {measured strict : Bool}
  {source : Option String} {stmts : List Stmt} {s : EmitState}

/-- A module that has its tables is ready for its imports. -/
theorem Supply.ready_module (measured : Bool) (ht : t.Sound) (hpredefined : AtomTable.initial.Extends t) :
    (Supply.start [] none true measured).Ready
      ⟨t, 0, some .empty, .initial { Frame.initial name .module line 0 strict with source } []⟩ :=
  ⟨ht, nofun, hpredefined, nofun, rfl, rfl, Nat.zero_le _, nofun, rfl, fun _ => rfl, Nat.one_pos, nofun⟩

theorem emittedProgram_module (ht : t.Sound) (hdense : t.Dense)
    (hpredefined : AtomTable.initial.Extends t) (hfilename : t.Covers filename) (hname : t.Covers name)
    (hstmts : ∀ s ∈ stmts, measured = true → s.isRegular false = true) (hrun : (Emit.moduleBody r stmts).run
      ⟨t, 0, none, .initial { Frame.initial name .module line 0 strict with source } []⟩ = .ok ((), s)) :
    EmittedProgram s.draft.tree filename s measured := by
  obtain ⟨⟨⟩, s₀, htables, hrest⟩ := run_bind_eq_ok.mp hrun
  cases htables
  refine emittedProgram_of_drafted ht hdense hfilename (.module hname _ _ _) (fun m hm => ?_)
    (Drafts.moduleBody rfl rfl rfl hstmts _ _ s (Supply.ready_module measured ht hpredefined) hrest).drafted
    (Closes.moduleBody r stmts _ _ _ hrest)
  cases hm
  exact ⟨by simp [ModuleTables.empty], by simp [ModuleTables.empty], by simp [ModuleTables.empty],
    by simp [ModuleTables.empty]⟩

theorem emittedProgram_script (ht : t.Sound) (hdense : t.Dense)
    (hpredefined : AtomTable.initial.Extends t) (hfilename : t.Covers filename)
    (hstmts : ∀ s ∈ stmts, measured = true → s.isRegular false = true) (hrun : (Emit.script r stmts).run
      ⟨t, 0, none, .initial { Frame.initial .evalCode .script line 0 strict with source } []⟩ = .ok ((), s)) :
    EmittedProgram s.draft.tree filename s measured := by
  obtain ⟨⟨⟩, s₀, hvar, hrest₀⟩ := run_bind_eq_ok.mp hrun
  obtain ⟨⟨⟩, s₁, hcompletion, hrest⟩ := run_bind_eq_ok.mp hrest₀
  cases hvar
  cases hcompletion
  have hready : (Supply.start [] (some 0) false measured).Ready
      ⟨t, 0, none, { Draft.initial { Frame.initial .evalCode .script line 0 strict with
        source, scopes := ScopeTree.initial.addVar .completion } [] with completion := some 0 }⟩ :=
    ⟨ht, nofun, hpredefined, nofun, rfl, rfl, Nat.zero_le _, nofun, rfl, nofun, Nat.one_pos, nofun⟩
  refine emittedProgram_of_drafted ht hdense hfilename (.script _ _ _) (fun m hm => ?_)
    (Drafts.scriptBody rfl rfl hstmts _ _ s hready hrest).drafted (Closes.scriptBody r stmts _ _ _ hrest)
  cases hm

end

/-- Programs are emitted by the rules, and regular ones with measured depths. -/
theorem emittedProgram_of_regular {options p tree filename measured}
    (hp : measured = true → Program.isRegular false p = true) (h : emitProgram options p = .ok (tree, filename, s)) :
    EmittedProgram tree filename s measured := by
  have hr := Parts.drafting_ofDepth (p.steps + defaultConstructorDepth)
  have hsound := AtomTable.sound_initial.intern options.filename
  have hdense := AtomTable.dense_initial.intern AtomTable.sound_initial options.filename
  have hpredefined := AtomTable.sound_initial.extends_intern options.filename
  have hfilename := AtomTable.sound_initial.covers_intern options.filename
  have hstmts : ∀ s ∈ p.body, measured = true → s.isRegular false = true := by
    intro s hs hmeasured
    have hall := hp hmeasured
    rw [Program.isRegular, stmtsRegular_eq, List.all_eq_true] at hall
    exact hall s hs
  unfold emitProgram at h
  obtain ⟨⟨⟨⟩, s'⟩, hrun, hok⟩ := bind_eq_ok.mp h
  cases hok
  by_cases hmodule : (options.asModule || p.sourceType = .module) = true
  · simp only [hmodule, if_true] at hrun
    exact emittedProgram_module hsound hdense hpredefined hfilename hfilename hstmts hrun
  · simp only [hmodule] at hrun
    exact emittedProgram_script hsound hdense hpredefined hfilename hstmts hrun

theorem emittedProgram_emitProgram {options p tree filename} (h : emitProgram options p = .ok (tree, filename, s)) :
    EmittedProgram tree filename s :=
  emittedProgram_of_regular nofun h

end ScriptBytecode
