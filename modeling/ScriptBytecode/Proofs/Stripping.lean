import ScriptBytecode.Proofs.CompiledRecords

/-!
# Stripping

Debug information can be left out when records are built, or later when they are written. A record that is built
without it is the full record with the debug information taken out (`Program.compile_strip`), and to write that is to
write the full record and leave the debug information out (`Object.encode_strip`).

Main statement: to strip early is to strip late.
-/

namespace ScriptBytecode

variable {t : AtomTable}

namespace Object

/-- Leaves out what either of the options leaves out. -/
def WriteOptions.also (w o : WriteOptions) : WriteOptions :=
  ⟨w.allowReference, o.stripDebug || w.stripDebug, o.stripSource || w.stripSource⟩

/-! ## Writing what is left -/

namespace Write

variable {α β : Type} {o w : WriteOptions} {t : AtomTable}

/-- The first writer does with options `w` what the second does if it leaves out what `o` says as well. -/
def Matches (o : WriteOptions) (t : AtomTable) (w : WriteOptions) (m m' : Write α) : Prop :=
  m ⟨t, w⟩ = m' ⟨t, w.also o⟩

namespace Matches

theorem result (a : α) : Matches o t w (pure a) (pure a) :=
  rfl

theorem fail (why : WriteFault) : Matches o t w (Write.fail why : Write α) (Write.fail why) :=
  rfl

/-- Nothing is done behind a failure. -/
theorem fail_bind (why : WriteFault) (f f' : α → Write β) :
    Matches o t w (Write.fail why >>= f) (Write.fail why >>= f') :=
  rfl

theorem bind {m m'} {f f' : α → Write β} (h : Matches o t w m m') (hf : ∀ a, Matches o t w (f a) (f' a)) :
    Matches o t w (m >>= f) (m' >>= f') := by
  have hf' : (fun a => f a ⟨t, w⟩) = fun a => f' a ⟨t, w.also o⟩ := funext hf
  show (m ⟨t, w⟩ >>= fun a => f a ⟨t, w⟩) = (m' ⟨t, w.also o⟩ >>= fun a => f' a ⟨t, w.also o⟩)
  rw [show m ⟨t, w⟩ = m' ⟨t, w.also o⟩ from h, hf']

/-- The options are looked up. -/
theorem read {f f' : WriteEnv → Write β} (h : Matches o t w (f ⟨t, w⟩) (f' ⟨t, w.also o⟩)) :
    Matches o t w (MonadReader.read >>= f) (MonadReader.read >>= f') :=
  h

theorem mapM {f : α → Write β} (h : ∀ a, Matches o t w (f a) (f a)) (xs : List α) :
    Matches o t w (xs.mapM f) (xs.mapM f) := by
  induction xs with
  | nil => exact result _
  | cons x xs ih =>
    rw [List.mapM_cons]
    exact bind (h x) fun _ => bind ih fun _ => result _

theorem count (n : Nat) : Matches o t w (Write.count n) (Write.count n) := by
  unfold Write.count
  split
  · exact result _
  · exact fail _

theorem atomIndex (a : Atom) : Matches o t w (Write.atomIndex a) (Write.atomIndex a) := by
  unfold Write.atomIndex
  split
  · exact result _
  · refine bind rfl fun s => ?_
    split
    · exact result _
    · refine read ?_
      dsimp only
      split
      · exact bind rfl fun _ => result _
      · exact fail _

theorem register (id : Nat) : Matches o t w (Write.register id) (Write.register id) := by
  refine bind rfl fun s => read ?_
  dsimp only [WriteOptions.also]
  cases if w.allowReference then s.objects.lookup id else none with
  | some index => exact result _
  | none => exact bind rfl fun _ => result _

theorem atom (a : Atom) : Matches o t w (Write.atom a) (Write.atom a) := by
  unfold Write.atom
  split
  · exact result _
  · exact bind (atomIndex a) fun _ => result _

theorem shared (id : Nat) {m m'} (h : Matches o t w m m') : Matches o t w (Write.shared id m) (Write.shared id m') := by
  refine bind (register id) fun index => ?_
  cases index with
  | some index => exact result _
  | none => exact h

theorem code (bytes : Bytes) : Matches o t w (Write.code bytes) (Write.code bytes) := by
  refine bind rfl fun instrs => bind (mapM (fun site => ?_) _) fun _ => result _
  exact bind (atomIndex site.2) fun _ => result _

theorem slotVars (slots : Nat) (vars : List Variable) :
    Matches o t w (Write.slotVars slots vars) (Write.slotVars slots vars) := by
  unfold Write.slotVars
  split
  · exact result _
  · refine bind (count slots) fun _ => bind (mapM (fun v => ?_) vars) fun _ => result _
    exact bind (atom v.name) fun _ => result _

theorem closureVar (v : ClosureVar) : Matches o t w (Write.closureVar v) (Write.closureVar v) :=
  bind (atom v.name) fun _ => result _

/-- Without its source a debug block is written as with a source that is left out. -/
theorem debug (d : DebugInfo) : Matches o t w (Write.debug (d.strip o)) (Write.debug d) := by
  have hsource : (if w.stripSource then [] else (d.strip o).source.elim [] Text.utf8) =
      if (w.also o).stripSource then [] else d.source.elim [] Text.utf8 := by
    unfold DebugInfo.strip WriteOptions.also
    cases o.stripSource <;> cases w.stripSource <;> rfl
  refine bind (atom _) fun file => bind (count _) fun lines => read ?_
  dsimp only
  rw [hsource]
  exact bind (count _) fun _ => result _

theorem functionHead (f : FunctionRecord) (constants : Nat) :
    Matches o t w (Write.functionHead (f.strip o) constants) (Write.functionHead f constants) := by
  obtain ⟨name, flags, kind, mode, args, vars, defined, stack, slots, closure, code, debug, values, cache⟩ := f
  have hinfo : (if w.stripDebug then none else o.debug debug) =
      (if (w.also o).stripDebug then none else debug).map (·.strip o) := by
    unfold WriteOptions.debug WriteOptions.also
    cases o.stripDebug <;> cases w.stripDebug <;> rfl
  have hrest : ∀ info : Option DebugInfo, Matches o t w (debug? (info.map (·.strip o))) (debug? info) := by
    rintro (_ | d)
    · exact result _
    · exact Matches.debug d
  unfold Write.functionHead FunctionRecord.strip
  dsimp only
  split
  · exact fail_bind _ _ _
  · refine read ?_
    dsimp only
    rw [hinfo, Option.isSome_map]
    exact bind (atom _) fun _ => bind (count _) fun _ => bind (count _) fun _ => bind (count _) fun _ =>
      bind (slotVars _ _) fun _ => bind (mapM closureVar _) fun _ => bind (Matches.code _) fun _ =>
      bind (hrest _) fun _ => result _

theorem exportEntry (e : Export) : Matches o t w (Write.exportEntry e) (Write.exportEntry e) := by
  cases e with
  | ofLocal varIdx name => exact bind (atom _) fun _ => result _
  | ofModule reqModule localName name => exact bind (atom _) fun _ => bind (atom _) fun _ => result _

theorem importEntry (i : Import) : Matches o t w (Write.importEntry i) (Write.importEntry i) :=
  bind (atom _) fun _ => result _

end Matches

theorem length_stripAll (o : WriteOptions) (vs : List Value) : (stripAll o vs).length = vs.length := by
  induction vs with
  | nil => rfl
  | cons v vs ih => exact congrArg Nat.succ ih

theorem length_stripProps (o : WriteOptions) (ps : List Property) : (stripProps o ps).length = ps.length := by
  induction ps with
  | nil => rfl
  | cons p ps ih =>
    obtain ⟨key, v⟩ := p
    exact congrArg Nat.succ ih

mutual

theorem matches_value : ∀ v : Value, Matches o t w (value (v.strip o)) (value v)
  | .null | .undefined | .bool false | .bool true | .int _ | .float _ | .string _ => .result _
  | .bigint _ => .bind (.count _) fun _ => .result _
  | .array id items => by
    refine .shared id ?_
    rw [length_stripAll]
    exact .bind (.count _) fun _ => .bind (matches_values items) fun _ => .result _
  | .object id props => by
    refine .shared id ?_
    rw [length_stripProps]
    exact .bind (.count _) fun _ => .bind (matches_properties props) fun _ => .result _
  | .template id cooked raw => by
    refine .shared id ?_
    rw [length_stripAll, length_stripAll]
    exact .bind (.count _) fun _ => .bind (matches_values cooked) fun _ => .bind rfl fun _ =>
      .bind (.count _) fun _ => .bind (matches_values raw) fun _ => .result _
  | .function _ f => matches_function f
  | .module _ m => matches_module m

theorem matches_values : ∀ vs : List Value, Matches o t w (values (stripAll o vs)) (values vs)
  | [] => .result _
  | v :: rest => .bind (matches_value v) fun _ => .bind (matches_values rest) fun _ => .result _

theorem matches_properties : ∀ ps : List Property, Matches o t w (properties (stripProps o ps)) (properties ps)
  | [] => .result _
  | ⟨key, v⟩ :: rest =>
    .bind (.atom key) fun _ => .bind (matches_value v) fun _ => .bind (matches_properties rest) fun _ => .result _

theorem matches_function : ∀ f : FunctionRecord, Matches o t w (function (f.strip o)) (function f)
  | ⟨name, flags, kind, mode, args, vars, defined, stack, slots, closure, code, debug, constants, cache⟩ => by
    have hhead := Matches.functionHead (o := o) (t := t) (w := w)
      ⟨name, flags, kind, mode, args, vars, defined, stack, slots, closure, code, debug, [], cache⟩ constants.length
    unfold function FunctionRecord.strip
    dsimp only
    rw [length_stripAll]
    exact .bind hhead fun _ => .bind (matches_values constants) fun _ => .result _

theorem matches_module : ∀ m : ModuleRecord, Matches o t w (module (m.strip o)) (module m)
  | ⟨name, requires, exports, stars, imports, body⟩ => by
    unfold module ModuleRecord.strip
    dsimp only
    rw [length_stripProps]
    exact .bind (.atom name) fun _ => .bind (.count _) fun _ => .bind (matches_properties requires) fun _ =>
      .bind (.count _) fun _ => .bind (.mapM .exportEntry _) fun _ => .bind (.count _) fun _ =>
      .bind (.count _) fun _ => .bind (.mapM .importEntry _) fun _ => .bind (matches_function body) fun _ => .result _

end

end Write

/-- To write what is left of a value is to write the value and leave the rest out. -/
theorem encode_strip (v : Value) (t : AtomTable) (o w : WriteOptions) :
    encode (v.strip o) t w = encode v t (w.also o) := by
  have hvalue : (Write.value (v.strip o)).run ⟨t, w⟩ = (Write.value v).run ⟨t, w.also o⟩ := Write.matches_value v
  unfold encode
  rw [hvalue]

end Object

/-! ## Building without debug information -/

/-- What is left out when records are built. -/
def CompileOptions.strips (options : CompileOptions) : Object.WriteOptions :=
  ⟨false, options.stripDebug, options.stripSource⟩

/-- Keeps all debug information. -/
def CompileOptions.full (options : CompileOptions) : CompileOptions :=
  { options with stripDebug := false, stripSource := false }

theorem stripAll_eq_map (o : Object.WriteOptions) (vs : List Value) : stripAll o vs = vs.map (·.strip o) := by
  induction vs with
  | nil => rfl
  | cons v vs ih => exact congrArg (v.strip o :: ·) ih

namespace Value

variable {v : Value} (o : Object.WriteOptions)

theorem strip_of_isText (h : v.isText) : v.strip o = v := by
  cases v <;> first | rfl | cases h

theorem stripAll_of_isText {vs : List Value} (h : vs.all isText) : stripAll o vs = vs := by
  rw [stripAll_eq_map]
  exact (List.map_congr_left fun v hv => strip_of_isText o (List.all_eq_true.mp h v hv)).trans (List.map_id vs)

theorem strip_of_isLiteral (h : v.isLiteral) : v.strip o = v := by
  cases v with
  | float | string | bigint => rfl
  | template id cooked raw =>
    rw [isLiteral, Bool.and_eq_true] at h
    rw [strip, stripAll_of_isText o h.1, stripAll_of_isText o h.2]
  | _ => cases h

theorem strip_of_isAttributes (h : v.IsAttributes t) : v.strip o = v := by
  rcases h with rfl | ⟨id, props, rfl, hprops⟩
  · rfl
  · have hsame : stripProps o props = props := by
      induction props with
      | nil => rfl
      | cons p props ih =>
        obtain ⟨key, w⟩ := p
        rw [List.forall_mem_cons] at hprops
        rw [stripProps, strip_of_isText o hprops.1.2, ih hprops.2]
    rw [strip, hsame]

end Value

/-- The constants of all functions of a tree are literals and functions. -/
inductive FunctionTree.HasLiterals : FunctionTree → Prop
  | mk {t : FunctionTree} (literals : t.pool.IsLiteral) (children : ∀ c ∈ t.children, HasLiterals c) : HasLiterals t

/-- Resolving names does not touch constants. -/
theorem FunctionTree.Emitted.hasLiterals {atoms outer outer'} {t : FunctionTree} {t'} (ht : t.Emitted atoms)
    (h : t.Throughout Naming.ResolvedFunction outer outer' t') : t'.HasLiterals := by
  induction h with
  | mk here length_eq _ ih =>
    obtain ⟨s, hs, hfinished⟩ := ht.finished
    refine .mk ?_ fun c' hc' => ?_
    · rw [here.pool_eq, hs]
      exact hfinished.literals
    · obtain ⟨c, hzip⟩ := exists_mem_zip length_eq hc'
      exact ih c c' hzip (ht.child (List.of_mem_zip hzip).1).2

namespace Build

variable (options : CompileOptions) (filename : Atom)

theorem debugInfo_strip (f : Frame) (lines : LineTable) :
    debugInfo ⟨options, filename⟩ f lines = options.strips.debug (debugInfo ⟨options.full, filename⟩ f lines) := by
  unfold debugInfo Object.WriteOptions.debug CompileOptions.strips CompileOptions.full DebugInfo.strip
  cases options.stripDebug <;> rfl

theorem record_strip (f owner : Frame) (code : Assembled) (constants : List Value) :
    record ⟨options, filename⟩ f owner code (stripAll options.strips constants) =
      (·.strip options.strips) <$> record ⟨options.full, filename⟩ f owner code constants := by
  unfold record
  rw [map_bind]
  refine bind_congr fun size => ?_
  rw [map_bind]
  refine bind_congr fun cache => ?_
  rw [map_pure, FunctionRecord.strip, debugInfo_strip options]
  unfold Frame.flags Object.WriteOptions.debug CompileOptions.strips
  cases options.stripDebug <;> rfl

theorem constant_strip (o : Object.WriteOptions) (children : List Value) {c} (hc : ∀ v, c = .value v → v.isLiteral) :
    constant (stripAll o children).toArray c = (·.strip o) <$> constant children.toArray c := by
  cases c with
  | value v =>
    show pure v = _
    rw [constant, map_pure, Value.strip_of_isLiteral o (hc v rfl)]
  | function k =>
    unfold constant
    simp only [stripAll_eq_map, List.getElem?_toArray, List.getElem?_map]
    cases children[k]? <;> rfl

theorem constants_strip (o : Object.WriteOptions) (children : List Value) {cs : List Constant}
    (hcs : ∀ v, .value v ∈ cs → v.isLiteral) :
    cs.mapM (constant (stripAll o children).toArray) = stripAll o <$> cs.mapM (constant children.toArray) := by
  induction cs with
  | nil => rfl
  | cons c cs ih =>
    have hc := constant_strip o children (c := c) fun v hv => hcs v (by simp [hv])
    have hrest := ih fun v hv => hcs v (List.mem_cons_of_mem _ hv)
    rw [List.mapM_cons, List.mapM_cons, hc, hrest]
    simp only [bind_map_left, map_bind, map_pure, stripAll]

theorem functions_strip {ts owner} (h : ∀ t ∈ ts, function ⟨options, filename⟩ owner t =
      (·.strip options.strips) <$> function ⟨options.full, filename⟩ owner t) :
    functions ⟨options, filename⟩ owner ts =
      stripAll options.strips <$> functions ⟨options.full, filename⟩ owner ts := by
  induction ts with
  | nil => rfl
  | cons t rest ih =>
    rw [List.forall_mem_cons] at h
    unfold functions
    rw [h.1, ih h.2]
    simp only [bind_map_left, map_bind, map_pure, stripAll, Value.strip]

/-- By induction on the tree: a function that is built without debug information is the one that is built with it, and
stripped. -/
theorem function_strip {t : FunctionTree} (ht : t.HasLiterals) (outer : Frame) :
    function ⟨options, filename⟩ outer t =
      (·.strip options.strips) <$> function ⟨options.full, filename⟩ outer t := by
  induction ht generalizing outer with
  | @mk t literals _ ih =>
    obtain ⟨f, code, pool, children⟩ := t
    have hconstants : ∀ v, Constant.value v ∈ pool.entries.toList → v.isLiteral := fun v hv =>
      literals v (Array.mem_toList_iff.mp hv)
    unfold function
    simp only [functions_strip options filename fun c hc => ih c hc _, bind_map_left, map_bind]
    refine bind_congr fun values => bind_congr fun _ => bind_congr fun assembled => ?_
    rw [constants_strip _ _ hconstants, bind_map_left]
    refine bind_congr fun constants => ?_
    rw [record_strip]
    cases record _ f _ assembled constants <;> rfl

end Build

theorem ModuleTables.record_strip {m : ModuleTables} (hm : m.Covered t) (o : Object.WriteOptions) (name : Atom)
    (closureVars : Array ClosureVar) (body : FunctionRecord) :
    m.record name closureVars (body.strip o) = (·.strip o) <$> m.record name closureVars body := by
  have hrequires : ∀ {ps : List Property}, (∀ p ∈ ps, p.value.IsAttributes t) → stripProps o ps = ps := by
    intro ps hps
    induction ps with
    | nil => rfl
    | cons p ps ih =>
      obtain ⟨key, v⟩ := p
      rw [List.forall_mem_cons] at hps
      rw [stripProps, Value.strip_of_isAttributes o hps.1, ih hps.2]
  unfold ModuleTables.record
  rw [map_bind]
  refine bind_congr fun exports => ?_
  rw [map_pure, ModuleRecord.strip, hrequires fun p hp => (hm.requires p (Array.mem_toList_iff.mp hp)).2]

theorem buildProgram_strip (options : CompileOptions) (filename : Atom) {tables} (htables : ∀ m ∈ tables, m.Covered t)
    (nextId : Nat) {tree : FunctionTree} (htree : tree.HasLiterals) :
    buildProgram options filename tables nextId tree =
      (·.strip options.strips) <$> buildProgram options.full filename tables nextId tree := by
  unfold buildProgram
  rw [Build.function_strip options filename htree, StateT.run_map, bind_map_left, map_bind]
  refine bind_congr fun r => ?_
  cases tables with
  | none => rfl
  | some m =>
    have hname : (r.1.strip options.strips).name = r.1.name := by
      cases r.1
      rfl
    dsimp only
    rw [hname, ModuleTables.record_strip (htables m rfl), bind_map_left, map_bind]
    rfl

/-- A program that is compiled without debug information is the one that is compiled with it, and stripped. -/
theorem Program.compile_strip (p : Program) (options : CompileOptions) :
    p.compile options =
      (fun c => { c with value := c.value.strip options.strips }) <$> p.compile options.full := by
  have hemits : emitProgram options.full p = emitProgram options p := rfl
  unfold Program.compile
  rw [map_bind, hemits]
  cases hemit : emitProgram options p with
  | error e => rfl
  | ok r =>
    obtain ⟨tree, filename, s⟩ := r
    have hprogram := emittedProgram_emitProgram hemit
    show ((Naming.resolveTree tree).run ⟨s.atoms, []⟩ >>= _) =
      _ <$> ((Naming.resolveTree tree).run ⟨s.atoms, []⟩ >>= _)
    rw [map_bind]
    cases hresolve : (Naming.resolveTree tree).run ⟨s.atoms, []⟩ with
    | error e => rfl
    | ok r =>
      obtain ⟨tree', naming⟩ := r
      obtain ⟨-, -, hthroughout⟩ :=
        Naming.resolvedFunctions_resolveTree hprogram.tree.scoped (fun h => absurd rfl h) .nil hresolve
      have hliterals := hprogram.tree.hasLiterals hthroughout
      show (buildProgram options filename s.tables s.nextId tree' >>= _) =
        _ <$> (buildProgram options.full filename s.tables s.nextId tree' >>= _)
      rw [buildProgram_strip options filename hprogram.tables s.nextId hliterals, bind_map_left, map_bind]
      rfl

/-- To leave debug information out when a program is compiled is to leave it out when the program is written. -/
theorem Program.strip_early_eq_strip_late (p : Program) (options : CompileOptions) (w : Object.WriteOptions)
    (stripDebug stripSource : Bool) :
    (p.compile { options with stripDebug, stripSource } >>= (·.toBytes w)) =
      (p.compile { options with stripDebug := false, stripSource := false } >>=
        (·.toBytes { w with
          stripDebug := stripDebug || w.stripDebug
          stripSource := stripSource || w.stripSource })) := by
  rw [compile_strip, bind_map_left]
  exact bind_congr fun c => Object.encode_strip c.value c.atoms _ w

end ScriptBytecode
