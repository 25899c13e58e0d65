import ScriptBytecode.Proofs.Naming.Frames

/-!
# Hoisting

A name that a `var` declaration binds belongs to the whole function, in whatever statements and patterns it stands.
Before the body of a program or function is emitted, every such name is bound once at function level, unless it is a
parameter, and nothing else is declared.
-/

namespace ScriptBytecode

/-! ## Names of patterns -/

/-- The pattern binds the identifier. -/
inductive Pattern.Binds (id : Ident) : Pattern → Prop
  | ident : Binds id (.ident id)
  | element {p : Pattern} {elements : List (Option Pattern)} (mem : some p ∈ elements) (binds : Binds id p)
      (span : Span) : Binds id (.array elements span)
  | property {key : PropertyKey} {value : Pattern} {isShorthand : Bool} {span : Span} {members : List PatternMember}
      (mem : .property key value isShorthand span ∈ members) (binds : Binds id value) (span' : Span) :
      Binds id (.object members span')
  | restOfMembers {target : Pattern} {span : Span} {members : List PatternMember} (mem : .rest target span ∈ members)
      (binds : Binds id target) (span' : Span) : Binds id (.object members span')
  | withDefault {target : Pattern} (binds : Binds id target) (value : Expr) (span : Span) :
      Binds id (.withDefault target value span)
  | rest {target : Pattern} (binds : Binds id target) (span : Span) : Binds id (.rest target span)

variable {id : Ident}

theorem mem_elementsBound {elements : List (Option Pattern)} :
    id ∈ elementsBound elements ↔ ∃ p, some p ∈ elements ∧ id ∈ p.bound := by
  induction elements with
  | nil => simp [elementsBound]
  | cons p elements ih => cases p <;> simp [elementsBound, elementBound, ih, or_and_right, exists_or]

theorem mem_patternMembersBound {members : List PatternMember} :
    id ∈ patternMembersBound members ↔ ∃ m ∈ members, id ∈ m.bound := by
  induction members with
  | nil => simp [patternMembersBound]
  | cons m members ih => simp [patternMembersBound, ih]

theorem Pattern.mem_bound_of_binds {p : Pattern} (h : p.Binds id) : id ∈ p.bound := by
  induction h with
  | ident => exact List.mem_singleton_self _
  | element mem _ _ ih => exact mem_elementsBound.mpr ⟨_, mem, ih⟩
  | property mem _ _ ih => exact mem_patternMembersBound.mpr ⟨_, mem, ih⟩
  | restOfMembers mem _ _ ih => exact mem_patternMembersBound.mpr ⟨_, mem, ih⟩
  | withDefault _ _ _ ih => exact ih
  | rest _ _ ih => exact ih

theorem Pattern.binds_of_mem_bound : ∀ p : Pattern, id ∈ p.bound → p.Binds id
  | .ident _, h => by
    cases List.mem_singleton.mp h
    exact .ident
  | .array elements span, h => by
    obtain ⟨p, hp, hid⟩ := mem_elementsBound.mp h
    have := List.sizeOf_lt_of_mem hp
    exact .element hp (binds_of_mem_bound p hid) span
  | .object members span, h => by
    obtain ⟨m, hm, hid⟩ := mem_patternMembersBound.mp h
    have := List.sizeOf_lt_of_mem hm
    cases m with
    | property key value isShorthand span' => exact .property hm (binds_of_mem_bound value hid) span
    | rest target span' => exact .restOfMembers hm (binds_of_mem_bound target hid) span
  | .withDefault target value span, h => .withDefault (binds_of_mem_bound target h) value span
  | .rest target span, h => .rest (binds_of_mem_bound target h) span
  | .member m, h => nomatch h
termination_by p => sizeOf p
decreasing_by
  all_goals simp only [Pattern.array.sizeOf_spec, Pattern.object.sizeOf_spec, Pattern.withDefault.sizeOf_spec,
    Pattern.rest.sizeOf_spec, Option.some.sizeOf_spec, PatternMember.property.sizeOf_spec,
    PatternMember.rest.sizeOf_spec] at *
  all_goals omega

theorem Pattern.mem_bound {p : Pattern} : id ∈ p.bound ↔ p.Binds id :=
  ⟨binds_of_mem_bound p, mem_bound_of_binds⟩

/-! ## Names of statements -/

namespace Stmt

/-- The statements that stand directly in a statement. What is exported by default is a function or a class. -/
def parts : Stmt → List Stmt
  | .block b => b.body
  | .ifElse _ yes no _ => yes :: no.toList
  | .whileLoop _ body _ | .doWhile body _ _ | .forLoop _ _ _ body _ | .forIn _ _ body _ | .forOf _ _ body _ _
  | .labeled _ body _ | .withObject _ body _ => [body]
  | .switch _ cases _ => cases.flatMap (·.body)
  | .tryCatch body handler finalizer _ =>
    body.body ++ handler.toList.flatMap (·.body.body) ++ finalizer.toList.flatMap (·.body)
  | .exportDecl (.decl s) _ => [s]
  | _ => []

/-- The declaration that a statement is or that a loop starts with. -/
def declaration? : Stmt → Option VarDecl
  | .varDecl d | .forLoop (some (.decl d)) _ _ _ _ | .forIn (.decl d) _ _ _ | .forOf (.decl d) _ _ _ _ => some d
  | _ => none

/-- A `var` declaration in the statement binds the identifier; functions and classes are left out. -/
inductive HasVar (id : Ident) : Stmt → Prop
  | here {s : Stmt} {d : VarDecl} {declarator : Declarator} (declares : s.declaration? = some d) (isVar : d.kind = .var)
      (mem : declarator ∈ d.declarators) (binds : declarator.target.Binds id) : HasVar id s
  | inside {s t : Stmt} (part : t ∈ s.parts) (hasVar : HasVar id t) : HasVar id s

end Stmt

theorem stmtsVarNames_eq_flatMap (ss : List Stmt) : stmtsVarNames ss = ss.flatMap Stmt.varNames := by
  induction ss with
  | nil => rfl
  | cons s ss ih => rw [stmtsVarNames, ih, List.flatMap_cons]

theorem switchCasesVarNames_eq_flatMap (cases : List SwitchCase) :
    switchCasesVarNames cases = (cases.flatMap (·.body)).flatMap Stmt.varNames := by
  induction cases with
  | nil => rfl
  | cons c cases ih =>
    obtain ⟨test, body, span⟩ := c
    rw [switchCasesVarNames, ih, List.flatMap_cons, List.flatMap_append, SwitchCase.varNames, stmtsVarNames_eq_flatMap]

/-- The names of a statement are those of its own declaration and of its parts, in order. -/
theorem Stmt.varNames_eq (s : Stmt) :
    s.varNames = s.declaration?.toList.flatMap VarDecl.varNames ++ s.parts.flatMap varNames := by
  have hblock : ∀ b : Block, b.varNames = b.body.flatMap varNames := fun ⟨body, _⟩ => stmtsVarNames_eq_flatMap body
  cases s with
  | block b => exact hblock b
  | ifElse test yes no span => cases no <;> simp [varNames, optStmtVarNames, declaration?, parts]
  | forLoop init => rcases init with - | ⟨d | e⟩ <;> simp [varNames, declaration?, parts]
  | forIn left | forOf left => cases left <;> simp [varNames, declaration?, parts]
  | switch discriminant cases span => exact switchCasesVarNames_eq_flatMap cases
  | tryCatch body handler finalizer span =>
    have hcatch : optCatchVarNames handler = (handler.toList.flatMap (·.body.body)).flatMap varNames := by
      cases handler with
      | none => rfl
      | some c =>
        obtain ⟨param, body, span⟩ := c
        simpa [optCatchVarNames, CatchClause.varNames] using hblock body
    have hfinally : optBlockVarNames finalizer = (finalizer.toList.flatMap (·.body)).flatMap varNames := by
      cases finalizer with
      | none => rfl
      | some b => simpa [optBlockVarNames] using hblock b
    simp only [varNames, hblock, hcatch, hfinally, declaration?, parts, Option.toList_none, List.flatMap_nil,
      List.flatMap_append, List.nil_append]
  | exportDecl kind span => cases kind <;> simp [varNames, declaration?, parts]
  | _ => simp [varNames, declaration?, parts]

theorem Block.sizeOf_lt_of_mem {b : Block} {t : Stmt} (h : t ∈ b.body) : sizeOf t < sizeOf b := by
  obtain ⟨body, span⟩ := b
  have : sizeOf t < sizeOf body := List.sizeOf_lt_of_mem h
  rw [Block.mk.sizeOf_spec]
  omega

theorem Stmt.sizeOf_lt_of_mem_parts {s t : Stmt} (h : t ∈ s.parts) : sizeOf t < sizeOf s := by
  cases s with
  | block b =>
    have := Block.sizeOf_lt_of_mem h
    rw [block.sizeOf_spec]
    omega
  | ifElse test yes no span =>
    rcases List.mem_cons.mp h with rfl | h
    · simp +arith
    · cases Option.mem_toList.mp h
      simp +arith
  | whileLoop | doWhile | forLoop | forIn | forOf | labeled | withObject =>
    cases List.mem_singleton.mp h
    simp +arith
  | switch discriminant cases span =>
    obtain ⟨⟨test, body, span'⟩, hc, ht⟩ := List.mem_flatMap.mp h
    have hcase := List.sizeOf_lt_of_mem hc
    have hbody : sizeOf t < sizeOf body := List.sizeOf_lt_of_mem ht
    rw [SwitchCase.mk.sizeOf_spec] at hcase
    rw [switch.sizeOf_spec]
    omega
  | tryCatch body handler finalizer span =>
    rw [tryCatch.sizeOf_spec]
    simp only [parts, List.mem_append, List.mem_flatMap, Option.mem_toList] at h
    rcases h with (h | ⟨⟨param, b, span'⟩, rfl, h⟩) | ⟨b, rfl, h⟩
    · have := Block.sizeOf_lt_of_mem h
      omega
    · have : sizeOf t < sizeOf b := Block.sizeOf_lt_of_mem h
      rw [Option.some.sizeOf_spec, CatchClause.mk.sizeOf_spec]
      omega
    · have := Block.sizeOf_lt_of_mem h
      rw [Option.some.sizeOf_spec]
      omega
  | exportDecl kind span =>
    cases kind with
    | decl s =>
      cases List.mem_singleton.mp h
      simp +arith
    | _ => cases h
  | _ => cases h

theorem VarDecl.mem_varNames {d : VarDecl} :
    id ∈ d.varNames ↔ d.kind = .var ∧ ∃ declarator ∈ d.declarators, declarator.target.Binds id := by
  unfold varNames
  split <;> simp [VarDecl.bound, Pattern.mem_bound, *]

theorem Stmt.mem_varNames_of_hasVar {s : Stmt} (h : s.HasVar id) : id ∈ s.varNames := by
  induction h with
  | @here s d declarator declares isVar mem binds =>
    rw [varNames_eq, declares, Option.toList_some, List.flatMap_singleton]
    exact List.mem_append_left _ (VarDecl.mem_varNames.mpr ⟨isVar, declarator, mem, binds⟩)
  | @inside s t part _ ih =>
    rw [varNames_eq]
    exact List.mem_append_right _ (List.mem_flatMap.mpr ⟨t, part, ih⟩)

theorem Stmt.hasVar_of_mem_varNames (s : Stmt) (h : id ∈ s.varNames) : s.HasVar id := by
  rw [varNames_eq, List.mem_append] at h
  rcases h with h | h
  · obtain ⟨d, hd, hid⟩ := List.mem_flatMap.mp h
    obtain ⟨hvar, declarator, hmem, hbinds⟩ := VarDecl.mem_varNames.mp hid
    exact .here (Option.mem_toList.mp hd) hvar hmem hbinds
  · obtain ⟨t, ht, hid⟩ := List.mem_flatMap.mp h
    exact .inside ht (hasVar_of_mem_varNames t hid)
termination_by sizeOf s
decreasing_by exact sizeOf_lt_of_mem_parts ht

theorem mem_stmtsVarNames {ss : List Stmt} : id ∈ stmtsVarNames ss ↔ ∃ s ∈ ss, s.HasVar id := by
  rw [stmtsVarNames_eq_flatMap, List.mem_flatMap]
  exact exists_congr fun s => and_congr_right fun _ => ⟨s.hasVar_of_mem_varNames, Stmt.mem_varNames_of_hasVar⟩

/-! ## Bindings of a function -/

namespace Frame

/-- How often a name is bound at function level: by variables of the function's own scope or, at top level, by global
entries. -/
def bindings (f : Frame) (name : Atom) : Nat :=
  if f.role.isTopLevel then f.globals.countP (·.name == name)
  else f.scopes.vars.countP fun v => v.name == name && v.scopeLevel == 0

/-- Is it the name of a parameter? Code at top level has none. -/
def hasParam (f : Frame) (name : Atom) : Bool :=
  !f.role.isTopLevel && f.scopes.args.any (·.name == name)

/-- The frame with more names bound at function level, and no other change. -/
def withVars (f : Frame) (names : List Atom) : Frame :=
  if f.role.isTopLevel then
    { f with globals := f.globals ++ (names.map fun name => (⟨name, false, false, none⟩ : GlobalVar)).toArray }
  else
    { f with scopes := { f.scopes with
        vars := f.scopes.vars ++ (names.map Variable.plain).toArray
        inits := f.scopes.inits ++ (names.map fun _ => (none : Option Nat)).toArray } }

variable {f : Frame} {name : Atom}

@[simp] theorem role_withVars (f : Frame) (names : List Atom) : (f.withVars names).role = f.role := by
  unfold withVars
  split <;> rfl

@[simp] theorem hasParam_withVars (f : Frame) (names : List Atom) (name : Atom) :
    (f.withVars names).hasParam name = f.hasParam name := by
  unfold hasParam
  rw [role_withVars]
  unfold withVars
  split <;> rfl

theorem withVars_nil (f : Frame) : f.withVars [] = f := by
  simp [withVars]

theorem withVars_append (f : Frame) (names more : List Atom) :
    (f.withVars names).withVars more = f.withVars (names ++ more) := by
  rw [withVars, role_withVars, withVars, withVars]
  split <;> simp [Array.append_assoc]

theorem bindings_withVars (f : Frame) (names : List Atom) (name : Atom) :
    (f.withVars names).bindings name = f.bindings name + names.count name := by
  have hcount : ∀ {α : Type} (p : α → Bool) (g : Atom → α), (∀ a, p (g a) = (a == name)) →
      (names.map g).toArray.countP p = names.count name := by
    intro α p g hg
    rw [← Array.countP_toList, List.countP_map, List.count]
    exact List.countP_congr fun a _ => by simp [hg a]
  unfold bindings
  rw [role_withVars]
  unfold withVars
  split
  · rw [Array.countP_append, hcount _ _ fun _ => rfl]
  · rw [Array.countP_append, hcount _ _ fun a => by simp [Variable.plain]]

theorem global?_eq_none_iff : f.global? name = none ↔ f.globals.countP (·.name == name) = 0 := by
  simp [global?, Array.countP_eq_zero]

theorem findVar?_eq_none_iff {t : ScopeTree} :
    t.findVar? name = none ↔ (t.vars.countP fun v => v.name == name && v.scopeLevel == 0) = 0 := by
  rw [ScopeTree.findVar?, ScopeTree.findLast?_eq_none, Array.countP_eq_zero]
  simp

theorem declareVar_eq (f : Frame) (name : Atom) :
    f.declareVar name = f.withVars (if f.hasParam name || 0 < f.bindings name then [] else [name]) := by
  have harg : (f.scopes.findArg? name).isSome = f.scopes.args.any (·.name == name) := by
    rw [Bool.eq_iff_iff, Option.isSome_iff_ne_none, ScopeTree.findArg?, ne_eq, ScopeTree.findLast?_eq_none,
      Array.any_eq_true']
    simp
  cases htop : f.role.isTopLevel with
  | true =>
    simp only [declareVar, hasParam, bindings, htop]
    cases hfind : f.global? name with
    | none => simp [withVars, htop, global?_eq_none_iff.mp hfind]
    | some i =>
      have hpos : 0 < f.globals.countP (·.name == name) := Nat.pos_of_ne_zero fun h0 =>
        Option.some_ne_none i (hfind.symm.trans (global?_eq_none_iff.mpr h0))
      simp [hpos, withVars_nil]
  | false =>
    simp only [declareVar, hasParam, bindings, htop, harg]
    cases hfind : f.scopes.findVar? name with
    | none =>
      rw [findVar?_eq_none_iff.mp hfind]
      cases f.scopes.args.any (·.name == name) <;> simp [withVars, htop, ScopeTree.addVar]
    | some i =>
      have hpos : 0 < f.scopes.vars.countP fun v => v.name == name && v.scopeLevel == 0 := Nat.pos_of_ne_zero fun h0 =>
        Option.some_ne_none i (hfind.symm.trans (findVar?_eq_none_iff.mpr h0))
      simp [hpos, withVars_nil]

/-! ## No name is bound twice -/

/-- No name is bound twice at function level. -/
structure Distinct (f : Frame) : Prop where
  vars : ∀ name, (f.scopes.vars.countP fun v => v.name == name && v.scopeLevel == 0) ≤ 1
  globals : ∀ name, f.globals.countP (·.name == name) ≤ 1

theorem Distinct.bindings_le (h : f.Distinct) (name : Atom) : f.bindings name ≤ 1 := by
  unfold bindings
  split
  · exact h.globals name
  · exact h.vars name

end Frame

theorem countP_push_le {α : Type} {p : α → Bool} {xs : Array α} {x : α} (h : xs.countP p ≤ 1)
    (hx : p x = true → xs.countP p = 0) : (xs.push x).countP p ≤ 1 := by
  rw [Array.countP_push]
  split
  · rw [hx ‹_›]
  · exact h

theorem countP_modify {α : Type} {p : α → Bool} (xs : Array α) (i : Nat) {f : α → α} (h : ∀ x, p (f x) = p x) :
    (xs.modify i f).countP p = xs.countP p := by
  have hmap : (xs.modify i f).map p = xs.map p := by
    apply Array.ext_getElem?
    intro j
    rw [Array.getElem?_map, Array.getElem?_modify, Array.getElem?_map]
    split <;> simp [Function.comp_def, h]
  simpa [Array.countP_map, Function.comp_def] using congrArg (Array.countP id) hmap

namespace Frame.Distinct

theorem invariant : FrameInvariant fun _ _ f => f.Distinct where
  step := by
    intro t pool f f' hstep h
    cases hstep with
    | openScope | arg | init | header | imported | moduleVars => exact ⟨h.vars, h.globals⟩
    | closeScope =>
      refine ⟨fun name => ?_, h.globals⟩
      rw [ScopeTree.vars_pop]
      exact h.vars name
    | scopeVar known inner =>
      -- it is not at function level
      exact ⟨fun name => countP_push_le (h.vars name) fun hv => by simp [inner] at hv, h.globals⟩
    | functionVar known fresh =>
      refine ⟨fun name => countP_push_le (h.vars name) fun hv => ?_, h.globals⟩
      simp only [Variable.plain, beq_self_eq_true, Bool.and_true, beq_iff_eq] at hv
      exact hv ▸ findVar?_eq_none_iff.mp fresh
    | this first =>
      refine ⟨fun name => ?_, h.globals⟩
      refine Array.countP_le_size.trans ?_
      simp [Frame.withThis, ScopeTree.modifyVar, ScopeTree.addVar, first]
    | kind idx => exact ⟨fun name => by rw [ScopeTree.modifyVar, countP_modify]; exacts [h.vars name, fun _ => rfl], h.globals⟩
    | global known fresh =>
      refine ⟨h.vars, fun name => countP_push_le (h.globals name) fun hg => ?_⟩
      exact beq_iff_eq.mp hg ▸ global?_eq_none_iff.mp fresh
    | globalLexical | globalInit =>
      refine ⟨h.vars, fun name => ?_⟩
      rw [countP_modify]
      exacts [h.globals name, fun _ => rfl]
  mono := fun _ _ h => h
  label := fun _ h => ⟨h.vars, h.globals⟩

end Frame.Distinct

/-! ## Hoisting -/

/-- What is emitted of a script before its body. -/
def Emit.scriptHead : Emit Unit := do
  modifyScopes (·.addVar .completion)
  modifyDraft ({ · with completion := some 0 })

/-- What is emitted of a module before its body. -/
def Emit.moduleHead (stmts : List Stmt) : Emit Unit := do
  modify ({ · with tables := some .empty })
  stmts.forM fun
    | .importDecl d => declareImports d
    | _ => pure ()

theorem Emit.script_eq (r : Parts) (stmts : List Stmt) : Emit.script r stmts = (do
    scriptHead
    body r stmts (pure ())
    opCount .getLoc 0
    op .returnValue) := rfl

theorem Emit.moduleBody_eq (r : Parts) (stmts : List Stmt) : Emit.moduleBody r stmts = (do
    moduleHead stmts
    body r stmts (pure ())
    op .returnUndef
    addModuleVars) := rfl

namespace EmitState

/-- Names were declared at function level; `new` are the ones that were not bound there before. -/
structure Declares (names : List Ident) (new : List Atom) (s s' : EmitState) : Prop where
  sound : s'.atoms.Sound
  atoms : s.atoms.Extends s'.atoms
  frame : s'.draft.frame = s.draft.frame.withVars new
  added : ∀ a ∈ new, s.draft.frame.hasParam a = false ∧ ∃ id ∈ names, s'.atoms.atom? id.name = some a
  bound : ∀ id ∈ names, ∃ a, s'.atoms.atom? id.name = some a ∧
    (s'.draft.frame.hasParam a = true ∨ 0 < s'.draft.frame.bindings a)

namespace Declares

variable {s s₁ s' : EmitState}

theorem nil (hs : s.atoms.Sound) : Declares [] [] s s :=
  ⟨hs, .refl _, (Frame.withVars_nil _).symm, nofun, nofun⟩

theorem one (hs : s.atoms.Sound) (id : Ident) : ∃ new, Declares [id] new s
    ({ s with atoms := (s.atoms.intern id.name).2 }.withFrame
      (s.draft.frame.declareVar (s.atoms.intern id.name).1)) := by
  have hatom := hs.atom?_intern id.name
  generalize (s.atoms.intern id.name).1 = a at hatom ⊢
  refine ⟨_, hs.intern _, hs.extends_intern _, Frame.declareVar_eq _ _, fun b hb => ?_, fun id' hid' => ?_⟩
  · split at hb
    · cases hb
    · rename_i hnew
      cases List.mem_singleton.mp hb
      rw [Bool.not_eq_true, Bool.or_eq_false_iff] at hnew
      exact ⟨hnew.1, id, List.mem_singleton_self _, hatom⟩
  · cases List.mem_singleton.mp hid'
    refine ⟨a, hatom, ?_⟩
    rw [withFrame, Frame.declareVar_eq, Frame.hasParam_withVars, Frame.bindings_withVars]
    split
    · rename_i hold
      simpa using hold
    · exact .inr (by simp)

theorem append {names more new new'} (h : Declares names new s s₁) (h' : Declares more new' s₁ s') :
    Declares (names ++ more) (new ++ new') s s' where
  sound := h'.sound
  atoms := h.atoms.trans h'.atoms
  frame := by rw [h'.frame, h.frame, Frame.withVars_append]
  added := by
    intro a ha
    rcases List.mem_append.mp ha with ha | ha
    · obtain ⟨hparam, id, hid, hatom⟩ := h.added a ha
      exact ⟨hparam, id, List.mem_append_left _ hid, h'.atoms _ _ hatom⟩
    · obtain ⟨hparam, id, hid, hatom⟩ := h'.added a ha
      rw [h.frame, Frame.hasParam_withVars] at hparam
      exact ⟨hparam, id, List.mem_append_right _ hid, hatom⟩
  bound := by
    intro id hid
    rcases List.mem_append.mp hid with hid | hid
    · obtain ⟨a, hatom, hbound⟩ := h.bound id hid
      refine ⟨a, h'.atoms _ _ hatom, ?_⟩
      rw [h'.frame, Frame.hasParam_withVars, Frame.bindings_withVars]
      exact hbound.imp_right fun hpos => hpos.trans_le (Nat.le_add_right _ _)
    · exact h'.bound id hid

end Declares

/-- Declaring names never fails. -/
theorem exists_declares (names : List Ident) {s : EmitState} (hs : s.atoms.Sound) :
    ∃ s' new, (Emit.declareVars names).run s = .ok ((), s') ∧ Declares names new s s' := by
  induction names generalizing s with
  | nil => exact ⟨s, [], rfl, .nil hs⟩
  | cons id names ih =>
    obtain ⟨new, hone⟩ := Declares.one hs id
    obtain ⟨s', new', hrun, hrest⟩ := ih hone.sound
    exact ⟨s', new ++ new', hrun, hone.append hrest⟩

/-- States in which the body of a program or function comes next: nothing was emitted before but the head of the
program or function. -/
inductive BeforeBody (stmts : List Stmt) : EmitState → Prop
  | script {t : AtomTable} {s : EmitState} (sound : t.Sound) (predefined : AtomTable.initial.Extends t) (line : Nat)
      (strict : Bool) (source : Option String) (run : Emit.scriptHead.run
        ⟨t, 0, none, .initial { Frame.initial .evalCode .script line 0 strict with source } []⟩ = .ok ((), s)) :
      BeforeBody stmts s
  | module {t : AtomTable} {s : EmitState} (sound : t.Sound) (predefined : AtomTable.initial.Extends t) (name : Atom)
      (line : Nat) (strict : Bool) (source : Option String) (run : (Emit.moduleHead stmts).run
        ⟨t, 0, none, .initial { Frame.initial name .module line 0 strict with source } []⟩ = .ok ((), s)) :
      BeforeBody stmts s
  | function {s₀ s : EmitState} {f : FunctionNode} (sound : s₀.atoms.Sound)
      (predefined : AtomTable.initial.Extends s₀.atoms) (hasBody : f.body = .block stmts) (depth : Nat) (name : Atom)
      (role : Role) (line scope : Nat) (strict : Bool) (run : (Emit.functionHead (.ofDepth depth) role f).run
        (s₀.enter (.initial name role line scope strict)) = .ok ((), s)) : BeforeBody stmts s

variable {stmts : List Stmt} {s : EmitState}

theorem BeforeBody.distinct (h : s.BeforeBody stmts) :
    (∃ C : Supply, C.Ready s) ∧ s.draft.frame.Distinct := by
  have hinitial : ∀ name role line scope strict, (Frame.initial name role line scope strict).Distinct :=
    fun _ _ _ _ _ => ⟨fun _ => Nat.zero_le _, fun _ => Nat.zero_le _⟩
  cases h with
  | script sound predefined line strict source run =>
    cases run
    refine ⟨⟨.start [] (some 0) false false, sound, nofun, predefined, nofun, rfl, rfl, Nat.zero_le _, nofun, rfl, nofun,
      Nat.one_pos, nofun⟩, fun _ => Array.countP_le_size, fun _ => Nat.zero_le _⟩
  | module sound predefined name line strict source run =>
    obtain ⟨⟨⟩, s₁, htables, himports⟩ := run_bind_eq_ok.mp run
    cases htables
    have hhead := Drafts.imports (d := 0) rfl rfl stmts _ _ s (Supply.ready_module false sound predefined) himports
    exact ⟨⟨_, hhead.ready (Supply.ready_module false sound predefined)⟩, hhead.drafted.keeps_frame Frame.Distinct.invariant sound
      ⟨fun _ => Nat.zero_le _, fun _ => Nat.zero_le _⟩⟩
  | @function s₀ _ f sound predefined hasBody depth name role line scope strict run =>
    have hr := Parts.drafting_ofDepth depth
    have hready : (Supply.start [] none false false).Ready (s₀.enter (.initial name role line scope strict)) :=
      ⟨sound, nofun, predefined, nofun, rfl, rfl, Nat.zero_le _, nofun, rfl, nofun, Nat.one_pos, nofun⟩
    have hhead := Drafts.functionHead (C := Supply.start [] none false false) role (by nofun) _ s hready rfl run
    exact ⟨⟨_, hhead.ready hready⟩, hhead.drafted.keeps_frame Frame.Distinct.invariant sound (hinitial _ _ _ _ _)⟩

/-- Before a body is emitted, its names are declared. Every name that a `var` declaration in it binds is then that of a
parameter, or exactly one variable at function level has it, at top level exactly one global entry. No other name is
declared. -/
theorem hoists_vars (h : s.BeforeBody stmts) :
    ∃ s' new, (Emit.declareVars (stmtsVarNames stmts)).run s = .ok ((), s') ∧
      s'.draft.frame = s.draft.frame.withVars new ∧
      (∀ a ∈ new, s.draft.frame.hasParam a = false ∧
        ∃ stmt ∈ stmts, ∃ id, stmt.HasVar id ∧ s'.atoms.atom? id.name = some a) ∧
      ∀ stmt ∈ stmts, ∀ id, stmt.HasVar id → ∃ a, s'.atoms.atom? id.name = some a ∧
        (s'.draft.frame.hasParam a = true ∨ s'.draft.frame.bindings a = 1) := by
  obtain ⟨⟨C, hready⟩, hdistinct⟩ := h.distinct
  obtain ⟨s', new, hrun, hdeclares⟩ := exists_declares (stmtsVarNames stmts) hready.sound
  have hdrafted := (Drafts.declareVars (d := 0) _ s () s' hready hrun).drafted
  have hdistinct' := hdrafted.keeps_frame Frame.Distinct.invariant hready.sound hdistinct
  refine ⟨s', new, hrun, hdeclares.frame, fun a ha => ?_, fun stmt hstmt id hid => ?_⟩
  · obtain ⟨hparam, id, hid, hatom⟩ := hdeclares.added a ha
    obtain ⟨stmt, hstmt, hvar⟩ := mem_stmtsVarNames.mp hid
    exact ⟨hparam, stmt, hstmt, id, hvar, hatom⟩
  · obtain ⟨a, hatom, hbound⟩ := hdeclares.bound id (mem_stmtsVarNames.mpr ⟨stmt, hstmt, hid⟩)
    exact ⟨a, hatom, hbound.imp_right fun hpos => Nat.le_antisymm (hdistinct'.bindings_le a) hpos⟩

/-- The function `function (p) { while (p) for (var [p, q] of p); l: { switch (p) { case p: var {...q} = p; } } }`, where
patterns bind a parameter and twice the same name. -/
def nestedVars : FunctionNode :=
  let p : Ident := ⟨"p", .unknown⟩
  let q : Ident := ⟨"q", .unknown⟩
  let elements : Declarator := ⟨.array [some (.ident p), some (.ident q)] .unknown, none, .unknown⟩
  let members : Declarator := ⟨.object [.rest (.ident q) .unknown] .unknown, some (.ident p), .unknown⟩
  let loop : Stmt := .forOf (.decl ⟨.var, [elements], .unknown⟩) (.ident p) (.empty .unknown) false .unknown
  let choice : Stmt := .switch (.ident p) [⟨some (.ident p), [.varDecl ⟨.var, [members], .unknown⟩], .unknown⟩] .unknown
  ⟨none, [.ident p], .block [.whileLoop (.ident p) loop .unknown,
    .labeled ⟨"l", .unknown⟩ (.block ⟨[choice], .unknown⟩) .unknown], false, false, false, none, .unknown⟩

theorem hoists_vars_nestedVars : ∃ (s : EmitState) (stmts : List Stmt), nestedVars.body = .block stmts ∧
    s.BeforeBody stmts ∧ ∃ s', (Emit.declareVars (stmtsVarNames stmts)).run s = .ok ((), s') ∧
      ∃ a, s'.atoms.atom? "q" = some a ∧
        (s'.draft.frame.hasParam a = true ∨ s'.draft.frame.bindings a = 1) := by
  let s₀ := (⟨.initial, 0, none, default⟩ : EmitState).enter (.initial .emptyString (.function false) 1 0 false)
  have hok : ((Emit.functionHead (.ofDepth 0) (.function false) nestedVars).run s₀).isOk = true := by decide +kernel
  cases hrun : (Emit.functionHead (.ofDepth 0) (.function false) nestedVars).run s₀ with
  | error e =>
    rw [hrun] at hok
    cases hok
  | ok result =>
    have hbefore := BeforeBody.function AtomTable.sound_initial (.refl _) rfl 0 _ _ _ _ _ hrun
    obtain ⟨s', new, hhoist, -, -, hbound⟩ := hoists_vars hbefore
    exact ⟨_, _, rfl, hbefore, s', hhoist,
      hbound _ List.mem_cons_self ⟨"q", .unknown⟩ (Stmt.hasVar_of_mem_varNames _ (by decide))⟩

end EmitState

end ScriptBytecode
