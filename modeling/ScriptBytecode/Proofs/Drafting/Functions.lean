import ScriptBytecode.Proofs.Drafting.Expressions

/-!
# Drafts of functions

What blocks declare, and what the parameters of a function are taken apart into. The functions that a block declares
are emitted before its statements, each from an empty stack. The code of a function ends where control cannot go on.
-/

namespace ScriptBytecode

variable {name : Atom}

/-! ## Declarations -/

section

variable {measured : Bool} {labels : List (Nat × Nat)} {d : Nat} {s : EmitState} {name : Atom}

theorem drafted_declareVar (h : s.atoms.Covers name) :
    Drafted measured labels [] d d s (s.withFrame (s.draft.frame.declareVar name)) := by
  unfold Frame.declareVar
  split
  · split
    · exact .refl _ _ _
    · rename_i hfresh
      exact .step (.frame (.global h (Option.not_isSome_iff_eq_none.mp hfresh) nofun))
  · split
    · exact .refl _ _ _
    · rename_i hfresh
      rw [Bool.or_eq_true, not_or] at hfresh
      exact .step (.frame (.functionVar h (Option.not_isSome_iff_eq_none.mp hfresh.1)))

theorem drafted_declareLexical (h : s.atoms.Covers name) (hinner : s.draft.frame.scopes.current ≠ 0)
    (isConst inBody : Bool) :
    Drafted measured labels [] d d s (s.withFrame (s.draft.frame.declareLexical name isConst inBody)) := by
  unfold Frame.declareLexical
  split
  · split
    · exact .step (.frame (.globalLexical _ _))
    · rename_i hfresh
      exact .step (.frame (.global h hfresh nofun))
  · exact .step (.frame (.scopeVar h hinner _ _ _))

/-- A function is declared, and then it gets its constant. -/
theorem drafted_declareFunction {init} (h : s.atoms.Covers name) (hinner : s.draft.frame.scopes.current ≠ 0)
    (hinit : s.draft.pool.HasFunction init) (inBody : Bool) :
    Drafted measured labels [] d d s (s.withFrame (s.draft.frame.declareFunction name init inBody)) := by
  unfold Frame.declareFunction
  split
  · split
    · exact .step (.frame (.globalInit hinit _))
    · rename_i hfresh
      refine .step (.frame (.global h hfresh fun c hc => ?_))
      cases hc
      exact hinit
  · split
    · cases hfind : s.draft.frame.scopes.findVar? name with
      | some idx => exact .trans (.step (.frame (.kind idx))) (.step (.frame (.init hinit idx)))
      | none =>
        exact .trans (.step (.frame (.functionVar h hfind)))
          (.trans (.step (.frame (.kind _))) (.step (.frame (.init hinit _))))
    · exact .trans (.step (.frame (.scopeVar h hinner _ _ _))) (.step (.frame (.init hinit _)))

end

namespace Frame

/-! Declarations are no closure variables and open no scopes. -/

theorem same_declareVar (f : Frame) (name : Atom) :
    (f.declareVar name).closureVars = f.closureVars ∧ (f.declareVar name).scopes.current = f.scopes.current := by
  unfold declareVar
  split <;> split <;> exact ⟨rfl, rfl⟩

theorem same_declareLexical (f : Frame) (name : Atom) (isConst inBody : Bool) :
    (f.declareLexical name isConst inBody).closureVars = f.closureVars ∧
      (f.declareLexical name isConst inBody).scopes.current = f.scopes.current := by
  unfold declareLexical
  split
  · split <;> exact ⟨rfl, rfl⟩
  · exact ⟨rfl, rfl⟩

theorem same_declareFunction (f : Frame) (name : Atom) (init : Nat) (inBody : Bool) :
    (f.declareFunction name init inBody).closureVars = f.closureVars ∧
      (f.declareFunction name init inBody).scopes.current = f.scopes.current := by
  unfold declareFunction
  split
  · split <;> exact ⟨rfl, rfl⟩
  · split
    · cases f.scopes.findVar? name <;> exact ⟨rfl, rfl⟩
    · exact ⟨rfl, rfl⟩

end Frame

/-! ## Code that ends -/

namespace Closes

variable {α β : Type}

theorem bind {m} {f : α → Emit β} (h : ∀ a, Closes (f a)) : Closes (m >>= f) := by
  intro s b s' hrun
  obtain ⟨a, s₁, -, hf⟩ := run_bind_eq_ok.mp hrun
  exact h a s₁ b s' hf

theorem ite {c : Prop} [Decidable c] {m m' : Emit α} (h : Closes m) (h' : Closes m') :
    Closes (if c then m else m') := by
  split
  · exact h
  · exact h'

protected theorem op {o : Opcode} (h : o.isTerminator) : Closes (Emit.op o) := by
  intro s a s' hrun
  cases hrun
  exact ⟨o, .none, Array.back?_push, h⟩

theorem returnWith (hasValue : Bool) : Closes (Emit.returnWith hasValue) := by
  refine bind fun f => ite (bind fun done => ?_) (ite ?_ ?_)
  · have hrest : Closes (do
        Emit.access .getThis .this
        Emit.mark done
        Emit.op .returnValue) := bind fun _ => bind fun _ => .op rfl
    cases hasValue with
    | true => exact bind fun _ => bind fun _ => bind fun _ => hrest
    | false => exact hrest
  · cases hasValue <;> exact .op rfl
  · cases hasValue with
    | true => exact .op rfl
    | false => exact bind fun _ => .op rfl

/-- Code that is not live ends. -/
theorem returnIfLive : Closes (do if ← Emit.isLive then Emit.returnWith false) := by
  intro s a s' hrun
  obtain ⟨live, s₁, hlive, hrest⟩ := run_bind_eq_ok.mp hrun
  cases hlive
  split at hrest
  · exact returnWith false _ _ _ hrest
  · rename_i hdead
    cases hrest
    rw [Bool.not_eq_true, Bool.not_eq_false'] at hdead
    cases hlast : s.draft.code.back? with
    | none =>
      rw [hlast] at hdead
      cases hdead
    | some i =>
      rw [hlast] at hdead
      obtain ⟨op, arg⟩ := i
      cases op with
      | pseudo p => cases hdead
      | final o => exact ⟨o, arg, hlast, hdead⟩

theorem functionBody (r : Parts) (role : Role) (b : FunctionBody) : Closes (Emit.functionBody r role b) := by
  cases b with
  | block stmts => exact bind fun _ => returnIfLive
  | expr e => exact bind fun _ => bind fun _ => returnWith true

end Closes

namespace Returns

variable {C : Supply}

/-- A function that is declared is one of the tree. -/
theorem hoistStmt (inBody isDefault : Bool) {s : Stmt} (hs : C.Allows (s.isRegular false)) :
    Returns (Emit.hoistStmt inBody isDefault s) fun f =>
      ∀ g name, f = some (g, name) → C.Allows (g.isRegular false) := by
  unfold Emit.hoistStmt
  split
  · split
    · exact .bind (any _) fun _ _ => .pure nofun
    · exact .pure nofun
  · exact .bind (any _) fun _ _ => .bind (any _) fun _ _ => .pure nofun
  · refine .bind (any _) fun name? _ => .pure ?_
    intro g name heq
    rw [Option.map_eq_some_iff] at heq
    obtain ⟨_, -, heq⟩ := heq
    cases heq
    exact hs
  · exact .pure nofun

theorem hoistExport (inBody : Bool) {kind : ExportKind} (hkind : C.Allows (kind.isRegular false)) :
    Returns (Emit.hoistExport inBody kind) fun f => ∀ g name, f = some (g, name) → C.Allows (g.isRegular false) := by
  unfold Emit.hoistExport
  split
  · exact hoistStmt _ _ hkind
  · exact hoistStmt _ _ hkind
  · exact .bind (any _) fun _ _ => .pure nofun
  · exact .pure nofun

end Returns

/-- What is emitted of a function before its body. -/
def Emit.functionHead (r : Parts) (role : Role) (f : FunctionNode) : Emit Unit := do
  modifyFrame ({ · with
    kind := .of f.isAsync f.isGenerator
    isArrow := f.isArrow
    source := f.source
    simpleParams := f.hasSimpleParams
    definedArgs := f.definedArgs % 0x10000 })
  if f.body.isStrict then modifyFrame ({ · with strict := true })
  if role.isDerived then declareThis
  f.params.forM fun p => do
    let name ← argName p
    modifyScopes (·.addArg name)
  params r f.params
  if (← frame).kind.isGenerator then op .initialYield

theorem Emit.function_eq (r : Parts) (name : Atom) (role : Role) (f : FunctionNode) :
    Emit.function r name role f = nested name role f.span (do
      functionHead r role f
      functionBody r role f.body) := by
  unfold Emit.function functionHead
  simp only [bind_assoc]
  congr 2
  funext _
  cases f.body.isStrict <;> cases role.isDerived <;> simp only [bind_assoc, if_true, Bool.false_eq_true, if_false] <;>
    grind

namespace Drafts

variable {C : Supply} {d : Nat} {r : Parts} [hr : r.Drafting]

theorem declareVars (names : List Ident) : Drafts C d (Emit.declareVars names) (fun _ => d) :=
  forM fun _ _ => intern _ fun name =>
    of_drafted (fun s => (s.draft.frame.same_declareVar name).imp_left fun h => ⟨rfl, h⟩) fun _ hs =>
      drafted_declareVar (hs.covers (C.knows_self name))

theorem declareBound {ids : List Ident} {kind isConst} (hC : C.enclosed = true) :
    Drafts C d (Emit.declareBound ids kind isConst) (fun _ => d) :=
  forM fun _ _ => intern _ fun name => declare hC (C.knows_self name)

theorem declareLexical {isConst inBody} (hC : C.enclosed = true) (hname : C.Knows name) :
    Drafts C d (Emit.modifyFrame (·.declareLexical name isConst inBody)) (fun _ => d) :=
  of_drafted (fun s => (s.draft.frame.same_declareLexical name isConst inBody).imp_left fun h => ⟨rfl, h⟩) fun _ hs =>
    drafted_declareLexical (hs.covers hname) (hs.enclosed hC) isConst inBody

theorem declaredName (id : Option Ident) (isDefault : Bool) :
    Drafts C d (Emit.declaredName? id isDefault) (fun _ => d) [] Option.toList := by
  cases id with
  | none =>
    refine result _ rfl fun a ha => ?_
    cases isDefault with
    | false => cases ha
    | true =>
      cases List.mem_singleton.mp ha
      exact .inl rfl
  | some id => exact intern _ fun _ => result _ rfl fun _ ha => Supply.knows_of_mem ha

/-- The names of functions that are still to be declared. -/
def hoistedNames (f : Option (FunctionNode × Atom)) : List Atom :=
  f.toList.map (·.2)

theorem hoistStmt {inBody isDefault} {s : Stmt} (hC : C.enclosed = true) :
    Drafts C d (Emit.hoistStmt inBody isDefault s) (fun _ => d) [] hoistedNames := by
  have hnone : ∀ C : Supply, Drafts C d (pure none) (fun _ => d) [] hoistedNames := fun _ =>
    result _ rfl nofun
  unfold Emit.hoistStmt
  split
  · refine .ite (fun _ => .seq (forM fun _ _ => ?_) fun _ => hnone C) fun _ => hnone C
    exact intern _ fun name => declareLexical hC (C.knows_self name)
  · refine .bind (declaredName _ _) fun name => .seq (optionForM fun a ha => ?_) fun _ => hnone _
    exact declareLexical hC (Supply.knows_of_mem (Option.mem_toList.mpr ha))
  · refine .bind (declaredName _ _) fun name => result _ rfl fun a ha => ?_
    cases name with
    | none => cases ha
    | some name => exact Supply.knows_of_mem ha
  · exact hnone C

theorem hoistExport {inBody} {kind : ExportKind} (hC : C.enclosed = true) :
    Drafts C d (Emit.hoistExport inBody kind) (fun _ => d) [] hoistedNames := by
  unfold Emit.hoistExport
  split
  · exact hoistStmt hC
  · exact hoistStmt hC
  · exact .seq (declareLexical hC (.inl rfl)) fun _ => result _ rfl nofun
  · exact result _ rfl nofun

theorem declareFunction {inBody} {f : FunctionNode} (hC : C.enclosed = true) (hf : C.Allows (f.isRegular false))
    (hname : C.Knows name) : Drafts C d (Emit.declareFunction r inBody f name) (fun _ => d) := by
  refine nesting (hr.function hf ?_ rfl) fun _ => .addFunction _ fun i =>
    of_drafted (fun s => (s.draft.frame.same_declareFunction name i inBody).imp_left fun h => ⟨rfl, h⟩) fun _ hs => ?_
  · split
    · exact .inl rfl
    · exact hname
  · exact drafted_declareFunction (hs.covers hname) (hs.enclosed hC) (hs.functions i List.mem_cons_self) inBody

theorem hoistBlock (hC : C.enclosed = true) (inBody : Bool) {body : List Stmt}
    (hbody : ∀ s ∈ body, C.Allows (s.isRegular false)) : Drafts C d (Emit.hoistBlock r inBody body) (fun _ => d) := by
  refine bind_of (mapM hoistedNames fun _ s _ => ?_) (.mapM (P := fun f => ∀ g name, f = some (g, name) →
    C.Allows (g.isRegular false)) fun s hs => ?_) fun functions hfunctions => ?_
  · split
    · exact hoistExport hC
    · exact hoistStmt hC
  · have hregular := hbody s hs
    split
    · exact .hoistExport _ hregular
    · exact .hoistStmt _ _ hregular
  · refine forM fun f hf => optionForM fun ⟨g, name⟩ hsome => ?_
    refine declareFunction hC (hfunctions f hf g name hsome) (Supply.knows_of_mem ?_)
    refine List.mem_flatMap.mpr ⟨f, hf, ?_⟩
    rw [hsome]
    exact List.mem_cons_self

theorem stmts {body : List Stmt} (hbody : ∀ s ∈ body, C.Allows (s.isRegular false)) :
    Drafts C C.base (r.stmts body) (fun _ => C.base) [] noNames (stmtsExports body) :=
  stmtsExports_eq_flatMap body ▸ forM_exporting fun s hs => hr.stmt [] (hbody s hs)

theorem block {body : List Stmt} (hbody : ∀ s ∈ body, C.Allows (s.isRegular false)) :
    Drafts C C.base (Emit.block r body) (fun _ => C.base) [] noNames (stmtsExports body) :=
  inScope (.seq (hoistBlock rfl false hbody) fun _ => stmts hbody)

theorem body (hC : C.enclosed = false) {ss : List Stmt} (hss : ∀ s ∈ ss, C.Allows (s.isRegular false)) {start}
    (hstart : Drafts C.enclose C.base start (fun _ => C.base)) :
    Drafts C C.base (Emit.body r ss start) (fun _ => C.base) [] noNames (stmtsExports ss) :=
  .seq (declareVars _) fun _ => openScope hC fun _ => .seq (hoistBlock rfl true hss) fun _ =>
    .seq hstart fun _ => stmts hss

/-! ## Functions -/

theorem argName (p : Pattern) : Drafts C d (Emit.argName p) (fun _ => d) [] (fun a => [a]) := by
  unfold Emit.argName
  split
  · exact interns _
  · refine result _ rfl fun a ha => ?_
    cases List.mem_singleton.mp ha
    exact .inl rfl

/-- Declares the arguments of a function. -/
theorem declareArgs (ps : List Pattern) :
    Drafts C d (ps.forM fun p => do
      let name ← Emit.argName p
      Emit.modifyScopes (·.addArg name)) (fun _ => d) :=
  forM fun p _ => .bind (argName p) fun name =>
    of_step (fun _ => ⟨⟨rfl, rfl⟩, rfl⟩) fun _ hs => .frame (.arg (hs.covers (C.knows_self name)))

theorem draft_argName {p s s' a} (hrun : (Emit.argName p).run s = .ok (a, s')) : s'.draft = s.draft := by
  unfold Emit.argName at hrun
  split at hrun
  · cases hrun
    rfl
  · cases hrun
    rfl

theorem size_declareArgs {ps : List Pattern} {s s'} {u : Unit} (hrun : (ps.forM fun p => do
      let name ← Emit.argName p
      Emit.modifyScopes (·.addArg name)).run s = .ok (u, s')) :
    s'.draft.frame.scopes.args.size = s.draft.frame.scopes.args.size + ps.length := by
  induction ps generalizing s with
  | nil =>
    cases hrun
    rfl
  | cons p ps ih =>
    obtain ⟨_, s₁, hfirst, hrest⟩ := run_bind_eq_ok.mp hrun
    obtain ⟨name, s₀, hname, hadd⟩ := run_bind_eq_ok.mp hfirst
    cases hadd
    rw [ih hrest, ← draft_argName hname]
    simp only [ScopeTree.addArg, Array.size_push, List.length_cons]
    omega

theorem storeParam (hd : C.base ≤ d) {target : Pattern} (htarget : C.Allows (target.isRegular false)) {idx}
    (hidx : idx < C.args) : Drafts C (d + 1) (Emit.storeParam r target idx) (fun _ => d) := by
  unfold Emit.storeParam
  split
  · exact put (fun _ hs => .arg (.inr rfl) (hidx.trans_le hs.args)) fun _ _ => adds_plain 1 0 _ rfl
  · exact hr.bind .var hd htarget

theorem param (hd : C.base ≤ d) {p : Pattern} (hp : C.Allows (p.isRegular false)) {idx} (hidx : idx < C.args) :
    Drafts C d (Emit.param r p idx) (fun _ => d) := by
  have hget : Drafts C d (Emit.opCount .getArg idx) (fun _ => d + 1) :=
    put (fun _ hs => .arg (.inl rfl) (hidx.trans_le hs.args)) fun _ _ => adds_plain 0 1 _ rfl
  unfold Emit.param
  split
  · exact .pure _
  · rename_i target span
    have htarget : C.Allows (target.isRegular false) := hp
    exact .seq (opIndex 0 1 _ rfl) fun _ => storeParam hd htarget hidx
  · rename_i target value span
    simp only [Pattern.isRegular, Supply.allows_and] at hp
    refine .seq hget fun _ => ?_
    have hrest : ∀ name, Drafts (C.know name.toList) (d + 1) (do
        Emit.orDefault r value name
        Emit.storeParam r target idx) (fun _ => d) := fun name =>
      .seq (orDefault hd hp.2 fun a ha => Supply.knows_of_mem (Option.mem_toList.mpr ha)) fun _ =>
        storeParam (C := C.know name.toList) hd hp.1 hidx
    split
    · exact .bind (intern _ fun name => result (some name) rfl fun _ ha => Supply.knows_of_mem ha) hrest
    · rw [pure_bind]
      exact hrest none
  · exact .seq hget fun _ => hr.bind .var hd hp

theorem params (hd : C.base ≤ d) {ps : List Pattern} (hps : ∀ p ∈ ps, C.Allows (p.isRegular false))
    (hargs : ps.length ≤ C.args) : Drafts C d (Emit.params r ps) (fun _ => d) := by
  refine .seq (forM fun p _ => .ite (fun _ => .pure _) fun _ => declareVars _) fun _ => forM ?_
  rintro ⟨p, idx⟩ hp
  exact param hd (hps p (List.fst_mem_of_mem_zipIdx hp)) ((List.snd_lt_of_mem_zipIdx hp).trans_le hargs)

/-- What the body of a function exports, which is nothing unless it is out of place. -/
def bodyExports : FunctionBody → List ExportItem
  | .block ss => stmtsExports ss
  | .expr _ => []

theorem functionBody (hC : C.enclosed = false) (role : Role) {b : FunctionBody} (hb : C.Allows (b.isRegular false)) :
    Drafts C C.base (Emit.functionBody r role b) (fun _ => C.base) [] noNames (bodyExports b) := by
  cases b with
  | block ss =>
    simp only [FunctionBody.isRegular, stmtsRegular_eq, Supply.allows_all] at hb
    refine .exporting_all (body hC hb (.ite (fun _ => initializeFields) fun _ => .pure _)) fun _ => ?_
    exact .read (.of_state _) fun _ => .ite (fun _ => returnWith false _ _) fun _ => .pure _
  | expr e =>
    exact openScope hC fun _ => .seq (hr.value le_rfl hb) fun _ => returnWith true _ _

/-- Once so many arguments are declared, they may be used. -/
theorem counted {m} {f : Unit → Emit Unit} {n e exports} (hm : Drafts C d m (fun _ => d))
    (hargs : ∀ s u s', m.run s = .ok (u, s') → n ≤ s'.draft.frame.scopes.args.size)
    (hf : ∀ u, Drafts (C.withArgs n) d (f u) (fun _ => e) [] noNames exports) :
    Drafts C d (m >>= f) (fun _ => e) [] noNames exports := by
  intro s b s' hs hrun
  obtain ⟨a, s₁, hm', hf'⟩ := run_bind_eq_ok.mp hrun
  have hfirst := hm s a s₁ hs hm'
  have hrest := hf a s₁ b s' { hfirst.ready hs with args := hargs s a s₁ hm' } hf'
  exact hfirst.trans { hrest with }

theorem setStrict (strict : Bool) : Drafts C d (Emit.modifyFrame ({ · with strict })) (fun _ => d) :=
  of_step (fun _ => ⟨⟨rfl, rfl⟩, rfl⟩) fun _ _ => .frame (.header _ _ _ _ _ _)

/-- The head of a function is emitted from an empty stack. -/
theorem functionHead (role : Role) {f : FunctionNode} (hps : ∀ p ∈ f.params, C.Allows (p.isRegular false)) :
    DraftsFirst C.nested (Emit.functionHead r role f) 0 [] := by
  refine .header (fun _ _ _ => .header _ _ _ _ _ _) (fun _ => ⟨rfl, rfl⟩) ?_
  extract_lets declared started
  have hdeclared : Drafts C.nested 0 (declared ()) (fun _ => 0) := by
    refine counted (declareArgs _) (fun _ _ _ hrun =>
      Nat.le.intro ((Nat.add_comm ..).trans (size_declareArgs hrun).symm)) fun _ => ?_
    refine .seq (params le_rfl hps le_rfl) fun _ => .read (.of_state _) fun _ => ?_
    exact .ite (fun _ => .op 0 0 rfl) fun _ => .pure _
  have hstarted : DraftsFirst C.nested (started ()) 0 [] :=
    .ite (fun _ => .this hdeclared) fun _ => .of_drafts hdeclared
  exact .ite (fun _ => .header (fun _ _ _ => .header _ _ _ _ _ _) (fun _ => ⟨rfl, rfl⟩) hstarted) fun _ => hstarted

theorem function {role : Role} {f : FunctionNode} (hf : C.Allows (f.isRegular false)) (hname : C.Knows name)
    (hrole : role.isTopLevel = false) : Nests C (Emit.function r name role f) := by
  obtain ⟨id, ps, fbody, isAsync, isGenerator, isArrow, source, span⟩ := f
  simp only [FunctionNode.isRegular, patternsRegular_eq, Supply.allows_and, Supply.allows_all] at hf
  rw [Emit.function_eq]
  exact nested hname hrole _ 0 (bodyExports fbody) (.seq (functionHead role hf.1) (functionBody rfl role hf.2))
    (.bind fun _ => .functionBody r role fbody)

end Drafts

end ScriptBytecode
