import ScriptBytecode.Proofs.ObjectWriting
import ScriptBytecode.Proofs.RecordValidity

/-!
# Records of compiled programs

Main statement: every function of a compiled program has a valid record, and the program can be written whatever the
options are. The object format limits programs in one way: counts have 32 bits.
-/

namespace ScriptBytecode

open Object (atomSites bigIntBytes)

/-! ## Counts -/

/-- Counts of the object format have 32 bits. -/
def isCount (n : Nat) : Bool :=
  n < 0x100000000

def DebugInfo.isShort (d : DebugInfo) : Bool :=
  isCount d.lines.length && d.source.all fun s => isCount (Text.utf8 s).length

mutual

/-- Is every count in a value one that can be written? -/
def Value.isShort : Value → Bool
  | .null | .undefined | .bool _ | .int _ | .float _ | .string _ => true
  | .bigint n => isCount (bigIntBytes n).length
  | .array _ items => isCount items.length && allShort items
  | .object _ props => isCount props.length && allShortProps props
  | .template _ cooked raw => isCount cooked.length && allShort cooked && isCount raw.length && allShort raw
  | .function _ f => f.isShort
  | .module _ m => m.isShort

def allShort : List Value → Bool
  | [] => true
  | v :: rest => v.isShort && allShort rest

def allShortProps : List Property → Bool
  | [] => true
  | ⟨_, v⟩ :: rest => v.isShort && allShortProps rest

def FunctionRecord.isShort : FunctionRecord → Bool
  | ⟨_, _, _, _, _, _, _, _, _, _, code, debug, constants, _⟩ =>
    isCount code.length && debug.all DebugInfo.isShort && isCount constants.length && allShort constants

def ModuleRecord.isShort : ModuleRecord → Bool
  | ⟨_, requires, exports, stars, imports, body⟩ =>
    isCount requires.length && allShortProps requires && isCount exports.length && isCount stars.length
      && isCount imports.length && body.isShort

end

theorem lt_of_isCount {n} (h : isCount n) : n < 0x100000000 :=
  of_decide_eq_true h

theorem allShort_iff {vs} : allShort vs ↔ ∀ v ∈ vs, v.isShort := by
  induction vs with
  | nil => simp [allShort]
  | cons v vs ih => simp [allShort, ih]

theorem allShortProps_iff {ps} : allShortProps ps ↔ ∀ p ∈ ps, p.value.isShort := by
  induction ps with
  | nil => simp [allShortProps]
  | cons p ps ih =>
    cases p
    simp [allShortProps, ih]

theorem FunctionRecord.isShort_iff {f : FunctionRecord} : f.isShort ↔ isCount f.code.length ∧
    (∀ d ∈ f.debug, d.isShort) ∧ isCount f.constants.length ∧ ∀ v ∈ f.constants, v.isShort := by
  obtain ⟨name, flags, kind, mode, args, vars, defined, stack, slotVars, closure, code, debug, constants, cache⟩ := f
  cases debug <;> simp [FunctionRecord.isShort, allShort_iff, and_assoc]

/-! ## Writable values -/

variable {t : AtomTable}

theorem AtomTable.Covers.named {a} (h : t.Covers a) : a.Named t := by
  cases hpredefined : a.isPredefined with
  | true => exact .inl hpredefined
  | false => exact .inr (h.has hpredefined)

theorem writableAll_iff {vs} : writableAll t vs ↔ ∀ v ∈ vs, v.Writable t := by
  induction vs with
  | nil => simp [writableAll]
  | cons v vs ih => simp [writableAll, ih]

theorem writableProps_iff {ps} : writableProps t ps ↔ ∀ p ∈ ps, p.key.Named t ∧ p.value.Writable t := by
  induction ps with
  | nil => simp [writableProps]
  | cons p ps ih =>
    cases p
    simp [writableProps, ih, and_assoc]

theorem FunctionRecord.writable_iff {f : FunctionRecord} :
    f.Writable t ↔ f.HeadWritable t ∧ ∀ v ∈ f.constants, v.Writable t := by
  rw [← writableAll_iff]
  cases f
  rfl

namespace Value

variable {v : Value}

theorem writable_of_isText (h : v.isText) : v.Writable t := by
  cases v <;> first | exact trivial | cases h

theorem writable_of_isLiteral (h : v.isLiteral) (hshort : v.isShort) : v.Writable t := by
  cases v with
  | float | string => exact trivial
  | bigint n => exact lt_of_isCount hshort
  | template id cooked raw =>
    simp only [isLiteral, Bool.and_eq_true, List.all_eq_true] at h
    simp only [isShort, Bool.and_eq_true] at hshort
    exact ⟨lt_of_isCount hshort.1.1.1, writableAll_iff.mpr fun v hv => writable_of_isText (h.1 v hv),
      lt_of_isCount hshort.1.2, writableAll_iff.mpr fun v hv => writable_of_isText (h.2 v hv)⟩
  | _ => cases h

theorem IsAttributes.writable (h : v.IsAttributes t) (hshort : v.isShort) : v.Writable t := by
  rcases h with rfl | ⟨id, props, rfl, hprops⟩
  · exact trivial
  · simp only [isShort, Bool.and_eq_true] at hshort
    exact ⟨lt_of_isCount hshort.1, writableProps_iff.mpr fun p hp =>
      ⟨(hprops p hp).1.named, writable_of_isText (hprops p hp).2⟩⟩

end Value

/-- Atoms in code that refers to atoms with names. -/
theorem named_of_atomSites {R bytes code} (hread : decodeFinal bytes = .ok code) (h : WellFormed R code)
    (hatoms : ∀ a, R.atom a → a.Named t) : ∀ site ∈ atomSites code, site.2.Named t := by
  intro site hsite
  have hlt := Object.id_lt_of_mem_atomSites (Decode.decode_eq_ok_iff.mp hread) site hsite
  obtain ⟨here, hhere, hsome⟩ := List.mem_filterMap.mp hsite
  split at hsome
  · rename_i hatom
    obtain ⟨a, ha, rfl⟩ := Option.map_eq_some_iff.mp hsome
    have hopcode := (finished_of_decode hread).opcode? here hhere
    have hrefers := h.refers here hhere
    rw [← Operand.handle_of_lt here.instr.arg ha hlt]
    obtain ⟨pos, op, arg⟩ := here
    cases op with
    | final o => exact hatoms _ (hrefers.atom rfl hatom)
    | pseudo op => cases hopcode
  · cases hsome

/-! ## Functions -/

theorem Build.Built.headWritable {ctx tree r} (h : Built ctx tree r)
    (hcode : ∃ code, decodeFinal r.code = .ok code ∧ WellFormed (r.referents t) code) (hframe : tree.frame.Covered t)
    (hfilename : t.Covers ctx.filename) (hshort : r.isShort) : r.HeadWritable t := by
  obtain ⟨hcodeSize, hdebug, hconstants, -⟩ := FunctionRecord.isShort_iff.mp hshort
  obtain ⟨code, hread, hformed⟩ := hcode
  have hargs := h.argLimit
  have hvars := h.varLimit
  have hclosure := h.closureLimit
  refine ⟨h.name ▸ hframe.name.named, ?_, by omega, ?_, by omega, ?_, lt_of_isCount hcodeSize,
    ⟨code, hread, named_of_atomSites hread hformed fun _ => AtomTable.Covers.named⟩, ?_, lt_of_isCount hconstants⟩
  · rw [h.slotVars, h.argCount, h.varCount, List.length_append, Array.length_toList, Array.length_toList]
  · intro v hv
    rw [h.slotVars, List.mem_append, Array.mem_toList_iff, Array.mem_toList_iff] at hv
    exact hv.elim (fun hv => (hframe.args v hv).named) fun hv => (hframe.vars v hv).named
  · intro v hv
    rw [h.closureVars, Array.mem_toList_iff] at hv
    exact (hframe.closureVars v hv).named
  · intro d hd
    have hinfo := hdebug d hd
    simp only [DebugInfo.isShort, Bool.and_eq_true, Option.all_eq_true] at hinfo
    exact ⟨(h.filename d hd).symm ▸ hfilename.named, lt_of_isCount hinfo.1, fun s hs => lt_of_isCount (hinfo.2 s hs)⟩

/-- A nested function refers to nothing outside the function but what was captured for it. -/
theorem Stack.captured {e e' f E S} (h : Stack (e :: e' :: E) (f :: S)) :
    ∀ c ∈ f.closureVars, Captured (e' :: E) S e.parentScope c := by
  cases h with
  | nested _ _ _ captured => exact captured

theorem FunctionTree.Throughout.root {R outer outer'} {tree : FunctionTree} {tree'}
    (h : tree.Throughout R outer outer' tree') : R outer outer' tree tree' := by
  cases h with
  | mk here => exact here

theorem exists_mem_zip {α β : Type} {xs : List α} {ys : List β} (h : xs.length = ys.length) {y} (hy : y ∈ ys) :
    ∃ x, (x, y) ∈ xs.zip ys := by
  obtain ⟨i, hi, rfl⟩ := List.mem_iff_getElem.mp hy
  have hlt : i < (xs.zip ys).length := by simp [h, hi]
  exact ⟨xs[i], List.mem_iff_getElem.mpr ⟨i, hlt, List.getElem_zip⟩⟩

/-- What is promised of a record that was built. -/
structure FunctionRecord.Delivered (t : AtomTable) (r : FunctionRecord) : Prop where
  valid : ∀ f, r.Holds f → f.IsValid
  writable : r.isShort = true → r.Writable t

/-- By induction on the tree: functions whose names are resolved are built into records that keep the promise. -/
theorem Build.delivered_function {ctx : BuildContext} (ht : t.Dense) (hfilename : t.Covers ctx.filename) {outer outer'}
    {tree : FunctionTree} {tree'} (h : tree.Throughout Naming.ResolvedFunction outer outer' tree') :
    tree.Emitted t → (∀ e ∈ outer, e.Covered t) →
    ∀ {owner : Frame} {n n' : Nat} {r : FunctionRecord}, (function ctx owner tree').run n = .ok (r, n') →
      r.Delivered t := by
  induction h with
  | @mk outer outer' tree tree' here length_eq children ih =>
    intro htree houter owner n n' r hrun
    have hbuilt := built_of_function hrun
    have hcode := here.wellFormed htree ht hbuilt
    have hframes : ∀ e ∈ tree.frame :: outer, e.Covered t := List.forall_mem_cons.mpr ⟨htree.covered, houter⟩
    obtain ⟨σ, hσ, hfinished⟩ := htree.finished
    have hliteral : tree'.pool.IsLiteral := by
      rw [here.pool_eq, hσ]
      exact hfinished.literals
    have hnested : ∀ g ∈ r.children, g.Delivered t ∧ ∀ c ∈ g.closureVars, r.Provides c := by
      intro g hg
      obtain ⟨child, hchild, owner', m, m', hrun'⟩ := hbuilt.exists_tree hliteral hg
      obtain ⟨emitted, hzip⟩ := exists_mem_zip length_eq hchild
      refine ⟨ih emitted child hzip (htree.child (List.of_mem_zip hzip).1).2 hframes hrun', fun c hc => ?_⟩
      rw [(built_of_function hrun').closureVars, Array.mem_toList_iff] at hc
      exact hbuilt.provides ((children emitted child hzip).root.stack.captured c hc)
    constructor
    · intro f hf
      cases hf with
      | self =>
        obtain ⟨code, hread, hformed⟩ := hcode
        refine ⟨⟨code, hread, FunctionRecord.runs_of_wellFormed hformed⟩, ?_, fun g hg => (hnested g hg).2⟩
        rw [hbuilt.slotVars, hbuilt.argCount, hbuilt.varCount, List.length_append, Array.length_toList,
          Array.length_toList]
      | child hg hf => exact (hnested _ hg).1.valid f hf
    · intro hshort
      have hhead := hbuilt.headWritable hcode (here.stack.covered hframes) hfilename hshort
      have hvalues := (FunctionRecord.isShort_iff.mp hshort).2.2.2
      refine FunctionRecord.writable_iff.mpr ⟨hhead, fun v hv => ?_⟩
      rcases hbuilt.constant hv with hvalue | ⟨child, -, id, g, -, -, -, rfl, -⟩
      · exact Value.writable_of_isLiteral (hliteral v hvalue) (hvalues v hv)
      · exact (hnested g (FunctionRecord.mem_children.mpr ⟨id, hv⟩)).1.writable (hvalues _ hv)

/-! ## Modules -/

theorem ModuleTables.Covered.resolveExport {m : ModuleTables} {closureVars} {e : LocalExport} {x} (h : m.Covered t)
    (he : t.Covers e.exported) (hx : m.resolveExport closureVars e = .ok x) : x.Writable t := by
  unfold ModuleTables.resolveExport at hx
  split at hx
  · cases hx
  · split at hx
    · cases hx
      exact he.named
    · split at hx
      · rename_i i hfind
        have himport := h.imports i (Array.mem_of_find?_eq_some hfind)
        split at hx
        · cases hx
          exact he.named
        · cases hx
          exact ⟨himport.named, he.named⟩
      · cases hx
        exact he.named

theorem ModuleTables.Covered.writable {m : ModuleTables} {name closureVars} {body : FunctionRecord} {r}
    (h : m.Covered t) (hname : t.Covers name) (hbody : body.isShort → body.Writable t)
    (hr : m.record name closureVars body = .ok r) (hshort : r.isShort) : r.Writable t := by
  obtain ⟨exports, hexports, hr⟩ := bind_eq_ok.mp hr
  cases hr
  simp only [ModuleRecord.isShort, Bool.and_eq_true, allShortProps_iff] at hshort
  obtain ⟨⟨⟨⟨⟨hrequires, hattributes⟩, hexportCount⟩, hstars⟩, himports⟩, hbodyShort⟩ := hshort
  refine ⟨⟨hname.named, lt_of_isCount hrequires, lt_of_isCount hexportCount, fun e he => ?_, lt_of_isCount hstars,
    lt_of_isCount himports, fun i hi => ?_⟩, writableProps_iff.mpr fun p hp => ?_, hbody hbodyShort⟩
  · rcases List.mem_append.mp he with he | he
    · obtain ⟨source, hsource, hresolve⟩ := exists_left_of_forall₂ (mapM_eq_ok.mp hexports) he
      exact h.resolveExport (h.localExports source (Array.mem_toList_iff.mp hsource)) hresolve
    · have hcovered := h.indirectExports e (Array.mem_toList_iff.mp he)
      cases e with
      | ofLocal => exact hcovered.named
      | ofModule => exact ⟨hcovered.1.named, hcovered.2.named⟩
  · exact (h.imports i (Array.mem_toList_iff.mp hi)).named
  · have hrequire := h.requires p (Array.mem_toList_iff.mp hp)
    exact ⟨hrequire.1.named, hrequire.2.writable (hattributes p hp)⟩

/-! ## Programs -/

/-- Every function of a compiled program has a valid record. The program can be written, unless a count in it takes
more than 32 bits. -/
theorem Program.isValid_of_compile {p : Program} {options : CompileOptions} {c : Compiled}
    (h : p.compile options = .ok c) : ∃ body, c.function? = some body ∧ (∀ f, body.Holds f → f.IsValid) ∧
      (c.value.isShort = true → ∀ o, ∃ bytes, c.toBytes o = .ok bytes) := by
  obtain ⟨⟨tree, filename, s⟩, hemit, h⟩ := bind_eq_ok.mp h
  obtain ⟨⟨tree', naming⟩, hresolve, h⟩ := bind_eq_ok.mp h
  obtain ⟨value, hbuild, h⟩ := bind_eq_ok.mp h
  cases h
  have hprogram := emittedProgram_emitProgram hemit
  obtain ⟨hadvances, -, hthroughout⟩ :=
    Naming.resolvedFunctions_resolveTree hprogram.tree.scoped (fun h => absurd rfl h) .nil hresolve
  have hcovers := hadvances.covers hprogram.sound
  have hdense := hadvances.dense hprogram.sound hprogram.dense
  have htree := hprogram.tree.mono hcovers
  rw [hadvances.stack.eq_nil] at hthroughout
  obtain ⟨⟨f, nextId⟩, hfunction, hvalue⟩ := bind_eq_ok.mp hbuild
  have hdelivered := Build.delivered_function hdense (hcovers _ hprogram.filename) hthroughout htree
    (fun _ h => nomatch h) hfunction
  dsimp only at hvalue
  split at hvalue
  · cases hvalue
    refine ⟨f, rfl, hdelivered.valid, fun hshort => ?_⟩
    have hwritable : (Value.function nextId f).Writable naming.atoms := hdelivered.writable hshort
    exact Object.exists_encode hwritable
  · rename_i tables htables
    obtain ⟨m, hm, hvalue⟩ := bind_eq_ok.mp hvalue
    cases hvalue
    have hname : naming.atoms.Covers f.name := by
      rw [(Build.built_of_function hfunction).name]
      exact (hthroughout.root.stack.covered (by simpa using htree.covered)).name
    have hcovered := (hprogram.tables tables htables).mono hcovers
    refine ⟨f, ?_, hdelivered.valid, fun hshort => ?_⟩
    · obtain ⟨exports, -, hm⟩ := bind_eq_ok.mp hm
      cases hm
      rfl
    · have hwritable : (Value.module nextId m).Writable naming.atoms :=
        hcovered.writable hname hdelivered.writable hm hshort
      exact Object.exists_encode hwritable

/-- The module `import { a } from "m"; export function f(x) { const y = "s"; while (x) x = () => () => x + y + a; }`,
where functions capture arguments, variables and what others have captured. -/
def Program.nestedClosures : Program where
  body :=
    let ident (name : String) : Ident := ⟨name, .unknown⟩
    let sum (l r : Expr) : Expr := .binary .add l r .unknown
    let arrow (e : Expr) : Expr := .arrow ⟨none, [], .expr e, false, false, true, none, .unknown⟩
    let inner := sum (sum (.ident (ident "x")) (.ident (ident "y"))) (.ident (ident "a"))
    let body : List Stmt :=
      [.varDecl ⟨.const, [⟨.ident (ident "y"), some (.literal (.string "s") .unknown), .unknown⟩], .unknown⟩,
        .whileLoop (.ident (ident "x"))
          (.expr (.assign .assign (.ident (ident "x")) (arrow (arrow inner)) .unknown) .unknown) .unknown]
    [.importDecl ⟨[.named "a" (ident "a")], "m", [], .unknown⟩,
      .exportDecl (.decl (.functionDecl
        ⟨some (ident "f"), [.ident (ident "x")], .block body, false, false, false, none, .unknown⟩)) .unknown]
  sourceType := .module
  strict := false
  source := none
  span := .unknown

theorem Program.isValid_nestedClosures : ∃ c body, Program.nestedClosures.compile .standard = .ok c ∧
    c.value.isShort = true ∧ c.function? = some body ∧ body.children.length = 1 ∧ (∀ f, body.Holds f → f.IsValid) ∧
      ∀ o, ∃ bytes, c.toBytes o = .ok bytes := by
  have hok : (do
      let c ← Program.nestedClosures.compile .standard
      return (c.value.isShort, (c.function?.map (·.children.length))) : Result (Bool × Option Nat))
        = .ok (true, some 1) := by decide +kernel
  obtain ⟨c, hc, hok⟩ := bind_eq_ok.mp hok
  obtain ⟨hshort, hchildren⟩ := Prod.mk.inj (Except.ok.inj hok)
  obtain ⟨body, hbody, hvalid, hwritten⟩ := isValid_of_compile hc
  rw [hbody] at hchildren
  exact ⟨c, body, hc, hshort, hbody, Option.some.inj hchildren, hvalid, hwritten hshort⟩

end ScriptBytecode
