import ScriptBytecode.Proofs.Naming.Runs

/-!
# Names in resolved functions

Resolving names adds variables for special bindings and closure variables to a frame. All of them are called by names
that are bound in the function or around it, so their atoms have names if those of the emitted frames have.
-/

namespace ScriptBytecode

variable {t : AtomTable} {e f : Frame} {E S : List Frame} {name : Atom} {scope : Nat}

/-- The atoms of a frame have names. -/
structure Frame.Covered (t : AtomTable) (f : Frame) : Prop where
  name : t.Covers f.name
  vars : ∀ v ∈ f.scopes.vars, t.Covers v.name
  args : ∀ v ∈ f.scopes.args, t.Covers v.name
  closureVars : ∀ v ∈ f.closureVars, t.Covers v.name

theorem Frame.Backed.covered {pool} (h : f.Backed t pool) : f.Covered t :=
  ⟨h.name, h.vars, h.args, h.closureVars⟩

theorem FunctionTree.Emitted.covered {tree : FunctionTree} (h : tree.Emitted t) : tree.frame.Covered t := by
  obtain ⟨s, rfl, hs⟩ := h.finished
  exact hs.backed.covered

/-! ## Bound names -/

namespace Frame.Covered

/-- Special bindings are called by predefined atoms, or by the name of the function. -/
theorem special (h : f.Covered t) {which} (hspecial : f.special? name = some which) : t.Covers name := by
  have hname := Frame.name_of_special? hspecial
  cases which with
  | ownName =>
    rw [← hname]
    exact h.name
  | _ =>
    rw [← hname]
    exact .inl rfl

theorem bound (h : f.Covered t) {place} (hbound : f.bound? name scope = some place) : t.Covers name := by
  unfold Frame.bound? at hbound
  split at hbound
  · rename_i idx hvar
    obtain ⟨v, hv, hname⟩ : ∃ v, f.scopes.vars[idx]? = some v ∧ (v.name == name) = true := by
      cases hlookup : f.scopes.lookup? name scope with
      | some i =>
        rw [hlookup] at hvar
        cases hvar
        exact ScopeTree.exists_of_walk hlookup
      | none =>
        rw [hlookup] at hvar
        obtain ⟨⟨v, hv, hp⟩, -⟩ := ScopeTree.findLast?_eq_some (show f.scopes.findVar? name = some idx from hvar)
        simp only [Bool.and_eq_true] at hp
        exact ⟨v, hv, hp.1⟩
    exact eq_of_beq hname ▸ h.vars v (Array.mem_of_getElem? hv)
  · split at hbound
    · rename_i idx hfind
      obtain ⟨⟨v, hv, hname⟩, -⟩ := ScopeTree.findLast?_eq_some hfind
      exact eq_of_beq hname ▸ h.args v (Array.mem_of_getElem? hv)
    · split at hbound
      · rename_i which hspecial
        exact h.special hspecial
      · split at hbound
        · obtain ⟨k, hk, -⟩ := Option.map_eq_some_iff.mp hbound
          obtain ⟨hlt, hname, -⟩ := Array.findIdx?_eq_some_iff_getElem.mp hk
          exact eq_of_beq hname ▸ h.closureVars _ (Array.getElem_mem hlt)
        · cases hbound

/-- A name that plain search finds. -/
theorem search {p} (h : ∀ e ∈ E, e.Covered t) (hsearch : plainSearch name scope E = some p) : t.Covers name := by
  induction E generalizing scope p with
  | nil => cases hsearch
  | cons e E ih =>
    rw [List.forall_mem_cons] at h
    cases hbound : e.bound? name scope with
    | some place => exact h.1.bound hbound
    | none =>
      rw [Stack.plainSearch_of_unbound hbound] at hsearch
      obtain ⟨p', hp', -⟩ := Option.map_eq_some_iff.mp hsearch
      exact ih h.2 hp'

end Frame.Covered

/-! ## Frames that have grown -/

theorem Frame.Grows.covers_vars (h : e.Grows f) (he : e.Covered t) : ∀ v ∈ f.scopes.vars, t.Covers v.name := by
  intro v hv
  obtain ⟨i, hi⟩ := Array.mem_iff_getElem?.mp hv
  by_cases hold : i < e.scopes.vars.size
  · obtain ⟨isCaptured, hsame⟩ := h.var i _ (Array.getElem?_eq_getElem hold)
    cases hi.symm.trans hsame
    exact he.vars e.scopes.vars[i] (Array.getElem_mem hold)
  · obtain ⟨which, hmade, -⟩ := h.newVar i v hi (not_lt.mp hold)
    exact he.special hmade.special

theorem Captured.covers {c} (h : Captured E S scope c) (hE : ∀ e ∈ E, e.Covered t) : t.Covers c.name := by
  obtain ⟨slot, -, -, hjustified⟩ := h
  rcases hjustified with ⟨hwith, -⟩ | ⟨p, hp, -⟩
  · rw [hwith]
    exact .inl rfl
  · exact Frame.Covered.search hE hp

/-- While names are resolved, the atoms of frames have names. -/
theorem Stack.covered (h : Stack (e :: E) (f :: S)) (hE : ∀ e' ∈ e :: E, e'.Covered t) : f.Covered t := by
  rw [List.forall_mem_cons] at hE
  have hgrows := h.grows
  have hname : f.name = e.name := by rw [hgrows.header]
  refine ⟨hname ▸ hE.1.name, hgrows.covers_vars hE.1, hgrows.args_eq ▸ hE.1.args, ?_⟩
  cases h with
  | outermost _ _ closureVars => exact closureVars ▸ hE.1.closureVars
  | nested _ _ _ captured => exact fun c hc => (captured c hc).covers hE.2

end ScriptBytecode
