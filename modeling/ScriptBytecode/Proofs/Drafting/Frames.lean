import ScriptBytecode.Proofs.Drafting.Programs

/-!
# Frames of emitted functions

What the steps of emission keep of the frame of a function holds of all frames behind it. In particular every
chain of variables descends, so that walks along it end, and everything that a frame mentions is there.
-/

namespace ScriptBytecode

/-! ## Invariants of frames -/

/-- What steps of the frame keep, and more atoms, constants and labels too. -/
structure FrameInvariant (I : AtomTable → ConstantPool → Frame → Prop) : Prop where
  step : ∀ {t pool f f'}, FrameStep t pool f f' → I t pool f → I t pool f'
  mono : ∀ {t t' pool pool' f}, (∀ a, t.Covers a → t'.Covers a) →
    (∀ i c, pool.get? i = some c → pool'.get? i = some c) → I t pool f → I t' pool' f
  label : ∀ {t pool f} n, I t pool f → I t pool { f with nextLabel := n }

theorem EmitStep.keeps_frame {I} (hI : FrameInvariant I) {s s'} (h : EmitStep s s') (hs : s.atoms.Sound)
    (hf : I s.atoms s.draft.pool s.draft.frame) : I s'.atoms s'.draft.pool s'.draft.frame := by
  have hkept := h.kept
  cases h with
  | intern | constant | function => exact hI.mono (hkept.covers hs) hkept.pool hf
  | frame step => exact hI.step step hf
  | freshId | tables | lastLine => exact hf

theorem Drafted.keeps_frame {I} (hI : FrameInvariant I) {measured labels marks d e s s'}
    (h : Drafted measured labels marks d e s s') (hs : s.atoms.Sound) (hf : I s.atoms s.draft.pool s.draft.frame) :
    I s'.atoms s'.draft.pool s'.draft.frame := by
  induction h with
  | refl | put => exact hf
  | step step => exact step.keeps_frame hI hs hf
  | trans first _ ih₁ ih₂ => exact ih₂ (first.kept.sound hs) (ih₁ hs hf)
  | unmeasured _ _ _ _ ih | reorder _ _ ih | within _ _ ih | chained _ _ ih | uncompleted _ ih => exact ih hs hf
  | label _ _ ih | spareLabel _ ih => exact ih hs (hI.label _ hf)
  | nested _ _ _ _ _ inner _ _ _ _ ih =>
    exact ih (inner.kept.sound hs) (hI.mono (inner.kept.covers hs) (fun _ _ h => h) hf)

/-! ## Chains -/

theorem ScopeTree.vars_pop (t : ScopeTree) : t.pop.vars = t.vars := by
  unfold pop
  split <;> rfl

theorem ScopeTree.inits_pop (t : ScopeTree) : t.pop.inits = t.inits := by
  unfold pop
  split <;> rfl

/-- Chains start at variables, and every variable is followed by an older one. -/
structure ScopeTree.Chained (t : ScopeTree) : Prop where
  first : ∀ scope i, t.first? scope = some i → i < t.vars.size
  next : ∀ (i : Nat) (v : Variable) (j : Nat), t.vars[i]? = some v → v.scopeNext = some j → j < i

namespace ScopeTree.Chained

variable {t : ScopeTree}

theorem initial : ScopeTree.initial.Chained where
  first := by
    intro scope i h
    obtain ⟨s, hs, hfirst⟩ := Option.bind_eq_some_iff.mp h
    cases scope with
    | zero =>
      cases hs
      cases hfirst
    | succ scope => cases hs
  next := nofun

variable (h : t.Chained)
include h

theorem push : t.push.Chained where
  first := by
    intro scope i hi
    obtain ⟨s, hs, hfirst⟩ := Option.bind_eq_some_iff.mp hi
    rw [ScopeTree.push, Array.getElem?_push] at hs
    split at hs
    · cases hs
      exact h.first _ _ hfirst
    · exact h.first scope i (Option.bind_eq_some_iff.mpr ⟨s, hs, hfirst⟩)
  next := h.next

theorem pop : t.pop.Chained := by
  unfold ScopeTree.pop
  split
  · exact ⟨h.first, h.next⟩
  · exact h

/-- A variable that is followed by an older one. -/
theorem next_push {v : Variable} (hv : ∀ j, v.scopeNext = some j → j < t.vars.size) :
    ∀ (i : Nat) (w : Variable) (j : Nat), (t.vars.push v)[i]? = some w → w.scopeNext = some j → j < i := by
  intro i w j hw hj
  rw [Array.getElem?_push] at hw
  split at hw
  · rename_i heq
    cases hw
    exact heq ▸ hv j hj
  · exact h.next i w j hw hj

theorem addVar (name : Atom) : (t.addVar name).Chained where
  first := fun scope i hi => by
    have := h.first scope i hi
    simp only [ScopeTree.addVar, Array.size_push]
    omega
  next := next_push h nofun

theorem addScopeVar (name : Atom) (kind : VarKind) (isLexical isConst : Bool) :
    (t.addScopeVar name kind isLexical isConst).Chained where
  first := by
    intro scope i hi
    obtain ⟨s, hs, hfirst⟩ := Option.bind_eq_some_iff.mp hi
    simp only [ScopeTree.addScopeVar, Array.getElem?_modify, Array.size_push] at hs ⊢
    split at hs
    · obtain ⟨_, -, rfl⟩ := Option.map_eq_some_iff.mp hs
      cases hfirst
      exact Nat.lt_succ_self _
    · have := h.first scope i (Option.bind_eq_some_iff.mpr ⟨s, hs, hfirst⟩)
      omega
  next := next_push h fun j hj => h.first _ j hj

theorem modifyVar (idx : Nat) {f} (hf : ∀ v, (f v).scopeNext = v.scopeNext) : (t.modifyVar idx f).Chained where
  first := fun scope i hi => by
    simpa only [ScopeTree.modifyVar, Array.size_modify] using h.first scope i hi
  next := by
    intro i w j hw hj
    rw [ScopeTree.modifyVar, Array.getElem?_modify] at hw
    split at hw
    · obtain ⟨v, hv, rfl⟩ := Option.map_eq_some_iff.mp hw
      exact h.next i v j hv ((hf v).symm.trans hj)
    · exact h.next i w j hw hj

end ScopeTree.Chained

/-! ## Variables -/

theorem Specials.get?_set (s : Specials) (w w' : Special) (idx : Nat) :
    (s.set w idx).get? w' = if w' = w then some idx else s.get? w' := by
  cases w <;> cases w' <;> rfl

/-- Variables of a frame before names are resolved. The only special binding there can be is that of `this`. -/
structure Frame.Made (f : Frame) : Prop where
  chained : f.scopes.Chained
  args : ∀ v ∈ f.scopes.args, v = .plain v.name
  specials : ∀ w i, f.specials.get? w = some i →
    w = .this ∧ ∃ v : Variable, f.scopes.vars[i]? = some v ∧ v.name = .this ∧ v.scopeLevel = 0
  closureVars : f.role ≠ .module → f.closureVars = #[]

namespace Frame.Made

variable {f g : Frame}

/-- Other scopes with the same variables, and perhaps more. -/
theorem withScopes {scopes : ScopeTree} (h : f.Made) (hchained : scopes.Chained)
    (hargs : ∀ v ∈ scopes.args, v = .plain v.name)
    (hvars : ∀ (i : Nat) (v : Variable), f.scopes.vars[i]? = some v →
      ∃ w : Variable, scopes.vars[i]? = some w ∧ w.name = v.name ∧ w.scopeLevel = v.scopeLevel) :
    Made { f with scopes } where
  chained := hchained
  args := hargs
  specials := by
    intro w i hi
    obtain ⟨rfl, v, hv, hname, hlevel⟩ := h.specials w i hi
    obtain ⟨v', hv', hname', hlevel'⟩ := hvars i v hv
    exact ⟨rfl, v', hv', hname'.trans hname, hlevel'.trans hlevel⟩
  closureVars := h.closureVars

theorem vars_push (v : Variable) (vars : Array Variable) : ∀ (i : Nat) (w : Variable), vars[i]? = some w →
    ∃ w' : Variable, (vars.push v)[i]? = some w' ∧ w'.name = w.name ∧ w'.scopeLevel = w.scopeLevel := by
  intro i w hw
  have hlt := (Array.getElem?_eq_some_iff.mp hw).1
  exact ⟨w, by rw [Array.getElem?_push, if_neg (by omega), hw], rfl, rfl⟩

theorem vars_modify (vars : Array Variable) (idx : Nat) {f}
    (hf : ∀ v, (f v).name = v.name ∧ (f v).scopeLevel = v.scopeLevel) :
    ∀ (i : Nat) (w : Variable), vars[i]? = some w →
    ∃ w' : Variable, (vars.modify idx f)[i]? = some w' ∧ w'.name = w.name ∧ w'.scopeLevel = w.scopeLevel := by
  intro i w hw
  rw [Array.getElem?_modify, hw]
  split
  · exact ⟨f w, rfl, hf w⟩
  · exact ⟨w, rfl, rfl, rfl⟩

/-- A frame without arguments and special bindings. -/
theorem of_bare (hchained : f.scopes.Chained) (hargs : f.scopes.args = #[]) (hspecials : f.specials = .none)
    (hclosure : f.closureVars = #[]) : f.Made where
  chained := hchained
  args := by simp [hargs]
  specials := fun w i hi => by cases w <;> simp [hspecials, Specials.none, Specials.get?] at hi
  closureVars := fun _ => hclosure

theorem withThis (h : f.Made) : f.withThis.Made where
  chained := (h.chained.addVar .this).modifyVar _ fun _ => rfl
  args := h.args
  specials := by
    intro w i hi
    have hthis : f.withThis.scopes.vars[f.scopes.vars.size]? =
        some { Variable.plain .this with isLexical := true } := by
      rw [Frame.withThis, ScopeTree.modifyVar, Array.getElem?_modify, if_pos rfl, ScopeTree.addVar,
        Array.getElem?_push_size]
      rfl
    rw [Frame.withThis, Specials.get?_set] at hi
    split at hi
    · rename_i hw
      cases hi
      exact ⟨hw, _, hthis, rfl, rfl⟩
    · obtain ⟨rfl, -⟩ := h.specials w i hi
      contradiction
  closureVars := h.closureVars

theorem step {t pool} (hstep : FrameStep t pool f g) (h : f.Made) : g.Made := by
  cases hstep with
  | openScope => exact h.withScopes h.chained.push h.args fun _ v hv => ⟨v, hv, rfl, rfl⟩
  | closeScope =>
    refine h.withScopes h.chained.pop ?_ fun _ v hv => ⟨v, ?_, rfl, rfl⟩
    · rw [ScopeTree.args_pop]
      exact h.args
    · rwa [ScopeTree.vars_pop]
  | scopeVar => exact h.withScopes (h.chained.addScopeVar _ _ _ _) h.args (vars_push _ _)
  | functionVar => exact h.withScopes (h.chained.addVar _) h.args (vars_push _ _)
  | arg =>
    refine h.withScopes ⟨h.chained.first, h.chained.next⟩ (fun v hv => ?_) fun _ v hv => ⟨v, hv, rfl, rfl⟩
    rcases Array.mem_push.mp hv with hv | rfl
    · exact h.args v hv
    · rfl
  | this => exact h.withThis
  | kind idx =>
    exact h.withScopes (h.chained.modifyVar idx fun _ => rfl) h.args (vars_modify _ _ fun _ => ⟨rfl, rfl⟩)
  | init => exact h.withScopes ⟨h.chained.first, h.chained.next⟩ h.args fun _ v hv => ⟨v, hv, rfl, rfl⟩
  | global | globalLexical | globalInit | header => exact ⟨h.chained, h.args, h.specials, h.closureVars⟩
  | imported module | moduleVars module =>
    exact ⟨h.chained, h.args, h.specials, fun hrole => absurd module hrole⟩

theorem invariant : FrameInvariant fun _ _ f => f.Made where
  step := step
  mono := fun _ _ h => h
  label := fun _ h => ⟨h.chained, h.args, h.specials, h.closureVars⟩

end Frame.Made

/-- Variables stay. -/
theorem Frame.hasVars_invariant (n : Nat) : FrameInvariant fun _ _ f => n ≤ f.scopes.vars.size where
  step := by
    intro t pool f f' hstep h
    cases hstep with
    | closeScope => rwa [ScopeTree.vars_pop]
    | scopeVar | functionVar => simp only [ScopeTree.addScopeVar, ScopeTree.addVar, Array.size_push]; omega
    | this =>
      simp only [Frame.withThis, ScopeTree.modifyVar, ScopeTree.addVar, Array.size_modify, Array.size_push]
      omega
    | kind => rwa [ScopeTree.modifyVar, Array.size_modify]
    | _ => exact h
  mono := fun _ _ h => h
  label := fun _ h => h

theorem Draft.Begins.made {t} {d : Draft} (h : d.Begins t) : d.frame.Made := by
  cases h with
  | function | module => exact .of_bare .initial rfl rfl rfl
  | script => exact .of_bare (.addVar .initial .completion) rfl rfl rfl

/-! ## What frames mention -/

/-- Atoms of a frame have names, and variables start with functions of the pool. -/
structure Frame.Backed (t : AtomTable) (pool : ConstantPool) (f : Frame) : Prop where
  name : t.Covers f.name
  vars : ∀ v ∈ f.scopes.vars, t.Covers v.name
  args : ∀ v ∈ f.scopes.args, t.Covers v.name
  closureVars : ∀ v ∈ f.closureVars, t.Covers v.name
  inits : ∀ i c, f.scopes.init? i = some c → pool.HasFunction c
  globals : ∀ g ∈ f.globals, t.Covers g.name ∧ ∀ c ∈ g.init, pool.HasFunction c

namespace Frame.Backed

variable {t : AtomTable} {pool : ConstantPool} {f g : Frame}

theorem mem_modify {α : Type} {xs : Array α} {i f y} (h : y ∈ xs.modify i f) : ∃ x ∈ xs, y = x ∨ y = f x := by
  obtain ⟨j, hj⟩ := Array.mem_iff_getElem?.mp h
  rw [Array.getElem?_modify] at hj
  split at hj
  · obtain ⟨x, hx, rfl⟩ := Option.map_eq_some_iff.mp hj
    exact ⟨x, Array.mem_of_getElem? hx, .inr rfl⟩
  · exact ⟨y, Array.mem_of_getElem? hj, .inl rfl⟩

theorem init?_push_none (scopes : ScopeTree) (i : Nat) : ((scopes.inits.push none)[i]?).join = scopes.init? i := by
  rw [Array.getElem?_push]
  split
  · rename_i h
    rw [ScopeTree.init?, Array.getElem?_eq_none (by omega)]
    rfl
  · rfl

/-- One more variable. -/
theorem vars_push {vars : Array Variable} (h : ∀ v ∈ vars, t.Covers v.name) {v : Variable} (hv : t.Covers v.name) :
    ∀ w ∈ vars.push v, t.Covers w.name := by
  intro w hw
  rcases Array.mem_push.mp hw with hw | rfl
  · exact h w hw
  · exact hv

theorem vars_modify {vars : Array Variable} (h : ∀ v ∈ vars, t.Covers v.name) (idx : Nat) {f : Variable → Variable}
    (hf : ∀ v, (f v).name = v.name) : ∀ w ∈ vars.modify idx f, t.Covers w.name := by
  intro w hw
  obtain ⟨v, hv, hw⟩ := mem_modify hw
  have hname : w.name = v.name := by
    rcases hw with rfl | rfl
    · rfl
    · exact hf v
  exact hname ▸ h v hv

theorem globals_modify (h : f.Backed t pool) (i : Nat) {change} (hchange : ∀ g : GlobalVar, (change g).name = g.name ∧
      ∀ c ∈ (change g).init, c ∈ g.init ∨ pool.HasFunction c) :
    ∀ g ∈ f.globals.modify i change, t.Covers g.name ∧ ∀ c ∈ g.init, pool.HasFunction c := by
  intro g hg
  obtain ⟨g', hg', rfl | rfl⟩ := mem_modify hg
  · exact h.globals _ hg'
  · obtain ⟨hname, hinit⟩ := hchange g'
    refine ⟨hname ▸ (h.globals g' hg').1, fun c hc => ?_⟩
    exact (hinit c hc).elim ((h.globals g' hg').2 c) id

theorem step (hstep : FrameStep t pool f g) (h : f.Backed t pool) : g.Backed t pool := by
  cases hstep with
  | openScope | header => exact ⟨h.name, h.vars, h.args, h.closureVars, h.inits, h.globals⟩
  | closeScope =>
    refine ⟨h.name, ?_, ?_, h.closureVars, ?_, h.globals⟩
    · rw [ScopeTree.vars_pop]
      exact h.vars
    · rw [ScopeTree.args_pop]
      exact h.args
    · unfold ScopeTree.init?
      rw [ScopeTree.inits_pop]
      exact h.inits
  | scopeVar known =>
    refine ⟨h.name, vars_push h.vars known, h.args, h.closureVars, fun i c hc => h.inits i c ?_, h.globals⟩
    rwa [← init?_push_none]
  | functionVar known =>
    refine ⟨h.name, vars_push h.vars known, h.args, h.closureVars, fun i c hc => h.inits i c ?_, h.globals⟩
    rwa [← init?_push_none]
  | arg known => exact ⟨h.name, h.vars, vars_push h.args known, h.closureVars, h.inits, h.globals⟩
  | this =>
    have hvars : ∀ v ∈ (f.scopes.vars.push (.plain .this)).modify f.scopes.vars.size ({ · with isLexical := true }),
        t.Covers v.name := vars_modify (vars_push h.vars (.inl rfl)) _ fun _ => rfl
    refine ⟨h.name, hvars, h.args, h.closureVars, fun i c hc => h.inits i c ?_, h.globals⟩
    rwa [← init?_push_none]
  | kind idx =>
    have hvars : ∀ v ∈ f.scopes.vars.modify idx ({ · with kind := .functionDecl }), t.Covers v.name :=
      vars_modify h.vars idx fun _ => rfl
    exact ⟨h.name, hvars, h.args, h.closureVars, h.inits, h.globals⟩
  | init isFunction idx =>
    refine ⟨h.name, h.vars, h.args, h.closureVars, fun i c hc => ?_, h.globals⟩
    rw [ScopeTree.init?, ScopeTree.setInit, Array.getElem?_setIfInBounds] at hc
    split at hc
    · split at hc
      · cases hc
        exact isFunction
      · cases hc
    · exact h.inits i c hc
  | global known _ isFunction =>
    refine ⟨h.name, h.vars, h.args, h.closureVars, h.inits, fun g hg => ?_⟩
    rcases Array.mem_push.mp hg with hg | rfl
    · exact h.globals g hg
    · exact ⟨known, isFunction⟩
  | globalLexical i isConst =>
    have hglobals : ∀ g ∈ f.globals.modify i ({ · with isLexical := true, isConst }),
        t.Covers g.name ∧ ∀ c ∈ g.init, pool.HasFunction c :=
      h.globals_modify i fun g => ⟨rfl, fun c hc => .inl hc⟩
    exact ⟨h.name, h.vars, h.args, h.closureVars, h.inits, hglobals⟩
  | @globalInit constant isFunction i =>
    have hglobals : ∀ g ∈ f.globals.modify i ({ · with init := some constant }),
        t.Covers g.name ∧ ∀ c ∈ g.init, pool.HasFunction c := by
      refine h.globals_modify i fun g => ⟨rfl, fun c hc => ?_⟩
      cases hc
      exact .inr isFunction
    exact ⟨h.name, h.vars, h.args, h.closureVars, h.inits, hglobals⟩
  | imported module known =>
    refine ⟨h.name, h.vars, h.args, fun v hv => ?_, h.inits, h.globals⟩
    rcases Array.mem_push.mp hv with hv | rfl
    · exact h.closureVars v hv
    · exact known
  | moduleVars =>
    refine ⟨h.name, h.vars, h.args, fun v hv => ?_, h.inits, h.globals⟩
    rcases Array.mem_append.mp hv with hv | hv
    · exact h.closureVars v hv
    · obtain ⟨i, hi, rfl⟩ := Array.mem_mapIdx.mp hv
      exact (h.globals _ (Array.getElem_mem hi)).1

theorem invariant : FrameInvariant Frame.Backed where
  step := step
  mono := by
    intro t t' pool pool' f hatoms hpool h
    have hfunction : ∀ c, pool.HasFunction c → pool'.HasFunction c := fun c ⟨child, hc⟩ => ⟨child, hpool c _ hc⟩
    exact {
      name := hatoms _ h.name
      vars := fun v hv => hatoms _ (h.vars v hv)
      args := fun v hv => hatoms _ (h.args v hv)
      closureVars := fun v hv => hatoms _ (h.closureVars v hv)
      inits := fun i c hc => hfunction c (h.inits i c hc)
      globals := fun g hg => ⟨hatoms _ (h.globals g hg).1, fun c hc => hfunction c ((h.globals g hg).2 c hc)⟩ }
  label := fun _ h => ⟨h.name, h.vars, h.args, h.closureVars, h.inits, h.globals⟩

/-- A frame that has declared nothing. -/
theorem of_empty (hname : t.Covers f.name) (hvars : ∀ v ∈ f.scopes.vars, t.Covers v.name)
    (hargs : f.scopes.args = #[]) (hclosure : f.closureVars = #[])
    (hinits : ∀ i, f.scopes.init? i = none) (hglobals : f.globals = #[]) : f.Backed t pool where
  name := hname
  vars := hvars
  args := by simp [hargs]
  closureVars := by simp [hclosure]
  inits := fun i c hc => by simp [hinits] at hc
  globals := by simp [hglobals]

end Frame.Backed

theorem Draft.Begins.backed {t} {d : Draft} (h : d.Begins t) : d.frame.Backed t d.pool := by
  cases h with
  | function known => exact .of_empty known (fun _ h => by cases h with | mk h => cases h) rfl rfl (fun _ => rfl) rfl
  | module known => exact .of_empty known (fun _ h => by cases h with | mk h => cases h) rfl rfl (fun _ => rfl) rfl
  | script =>
    refine .of_empty (.inl rfl) (fun v hv => ?_) rfl rfl (fun i => ?_) rfl
    · rcases Array.mem_push.mp hv with hv | rfl
      · cases hv with | mk h => cases h
      · exact .inl rfl
    · exact (Frame.Backed.init?_push_none ScopeTree.initial i).trans rfl

end ScriptBytecode
