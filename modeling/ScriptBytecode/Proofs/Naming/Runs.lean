import ScriptBytecode.Proofs.Drafting.Code
import ScriptBytecode.Proofs.Naming.Stacks
import ScriptBytecode.Proofs.Naming.Steps

/-!
# Runs of name resolution

Resolving names keeps the invariant of the frames. So for every function of a tree it is known in which states its
code was resolved: `ResolvedFunction` says so, and holds throughout the tree.
-/

namespace ScriptBytecode

variable {code : List Instr}

/-- Every function of a tree and what it has become, together with the functions around them. -/
inductive FunctionTree.Throughout (R : List Frame → List Frame → FunctionTree → FunctionTree → Prop) :
    List Frame → List Frame → FunctionTree → FunctionTree → Prop
  | mk {outer outer' : List Frame} {t t' : FunctionTree} (here : R outer outer' t t')
      (length_eq : t.children.length = t'.children.length)
      (children : ∀ c c', (c, c') ∈ t.children.zip t'.children →
        Throughout R (t.frame :: outer) (t'.frame :: outer') c c') : Throughout R outer outer' t t'

variable {t t' : FunctionTree}

/-- The functions inside an emitted function were emitted. -/
theorem FunctionTree.Throughout.emitted {R outer outer' atoms} (h : Throughout R outer outer' t t')
    (ht : t.Emitted atoms) :
    Throughout (fun outer outer' t t' => t.Emitted atoms ∧ R outer outer' t t') outer outer' t t' := by
  induction h with
  | mk here length_eq _ ih =>
    exact .mk ⟨ht, here⟩ length_eq fun c c' hc => ih c c' hc (ht.child (List.of_mem_zip hc).1).2

theorem FunctionTree.Throughout.mono {R R' outer outer'} (h : Throughout R outer outer' t t')
    (hR : ∀ {outer outer' t t'}, R outer outer' t t' → R' outer outer' t t') : Throughout R' outer outer' t t' := by
  induction h with
  | mk here length_eq _ ih => exact .mk (hR here) length_eq ih

/-- Trees whose names can be resolved: scopes and special bindings are as emission leaves them, and scripts and modules
are not nested. -/
inductive FunctionTree.Scoped : FunctionTree → Prop
  | mk {frame : Frame} {code : List Instr} {pool : ConstantPool} {children : List FunctionTree} (made : frame.Made)
      (named : ∀ i ∈ code, Naming.Named i) (nested : ∀ c ∈ children, c.frame.role.isTopLevel = false)
      (children_scoped : ∀ c ∈ children, Scoped c) : Scoped ⟨frame, code, pool, children⟩

theorem named_of_emittable {s i} (h : Emittable s i) : Naming.Named i := by
  rintro op name scope rfl
  cases h with
  | permitted h =>
    cases h with
    | access isAccess =>
      revert isAccess
      cases op <;> decide

theorem FunctionTree.Emitted.scoped {atoms} (h : t.Emitted atoms) : t.Scoped := by
  induction h with
  | mk sound begins drafted closed covers nested _ ih =>
    have hfinished := drafted.finished sound begins covers
    exact .mk hfinished.made
      (fun i hi => named_of_emittable (hfinished.emittable i (Array.mem_toList_iff.mp hi)))
      (fun c hc => nested c (Array.mem_toList_iff.mp hc)) fun c hc => ih c (Array.mem_toList_iff.mp hc)

namespace Naming

variable {E : List Frame} {s s₁ s₂ s' : State}

/-! ## States -/

/-- Nothing is taken from the state, and labels are made for the innermost function only. -/
structure Advances (E : List Frame) (s s' : State) : Prop where
  stack : Stack E s'.frames
  grow : Grow s.frames s'.frames
  outerLabels : s'.labels.tail = s.labels.tail
  sound : s.atoms.Sound → s'.atoms.Sound
  covers : s.atoms.Sound → ∀ a, s.atoms.Covers a → s'.atoms.Covers a
  dense : s.atoms.Sound → s.atoms.Dense → s'.atoms.Dense
  names : s.atoms.Sound → s.atoms.Extends s'.atoms

namespace Advances

theorem refl (h : Stack E s.frames) : Advances E s s :=
  ⟨h, Grow.refl _, rfl, id, fun _ _ h => h, fun _ h => h, fun _ => .refl _⟩

theorem trans (h : Advances E s s₁) (h' : Advances E s₁ s₂) : Advances E s s₂ where
  stack := h'.stack
  grow := h.grow.trans h'.grow
  outerLabels := h'.outerLabels.trans h.outerLabels
  sound := fun hs => h'.sound (h.sound hs)
  covers := fun hs a ha => h'.covers (h.sound hs) a (h.covers hs a ha)
  dense := fun hs hd => h'.dense (h.sound hs) (h.dense hs hd)
  names := fun hs => (h.names hs).trans (h'.names (h.sound hs))

theorem looked (h : Stack E s.frames) (name : Atom) (scope : Nat) : Advances E s (s.looked name scope) where
  stack := (h.lookup name scope).stack
  grow := (h.lookup name scope).grow
  outerLabels := congrArg List.tail (s.labels_looked name scope)
  sound := id
  covers := fun _ _ h => h
  dense := fun _ h => h
  names := fun _ => .refl _

theorem withLabel (h : Stack E s.frames) : Advances E s s.withLabel := by
  obtain ⟨atoms, frames⟩ := s
  cases frames with
  | nil => exact refl h
  | cons f outer =>
    have hgrows := Frame.Grows.addLabel f
    exact ⟨h.head hgrows rfl, .cons hgrows (Grow.refl outer), rfl, id, fun _ _ h => h, fun _ h => h, fun _ => .refl _⟩

theorem interned (h : Stack E s.frames) (text : String) : Advances E s (s.interned text) where
  stack := h
  grow := Grow.refl _
  outerLabels := rfl
  sound := fun hs => hs.intern text
  covers := fun hs _ ha => ha.intern hs text
  dense := fun hs hd => hd.intern hs text
  names := fun hs => hs.extends_intern text

end Advances

theorem Access.advances {op name scope label} (h : Access s op name scope label code s') (hs : Stack E s.frames) :
    Advances E s s' := by
  have hlooked := Advances.looked hs name scope
  cases h with
  | given => exact hlooked
  | labelled => exact hlooked.trans (.withLabel hlooked.stack)

theorem PrivateAccess.advances {op name scope} (h : PrivateAccess s name scope op code s') (hs : Stack E s.frames) :
    Advances E s s' := by
  have hlooked := Advances.looked hs name scope
  cases h with
  | member => exact hlooked
  | brand => exact hlooked.trans (.looked hlooked.stack .brand scope)
  | setter interned =>
    subst interned
    have hinterned := hlooked.trans (.interned hlooked.stack (setterName s.atoms name))
    exact hinterned.trans (.looked hinterned.stack _ scope)

theorem Resolved.advances {i} (h : Resolved s i code s') (hs : Stack E s.frames) : Advances E s s' := by
  cases h with
  | final | marker | enterScope | leaveScope | chainField | chainElement => exact .refl hs
  | optionalLink => exact .withLabel hs
  | makeRef access => exact access.advances hs
  | ofVariable _ _ access => exact access.advances hs
  | ofPrivate _ access => exact access.advances hs

theorem CodeResolved.advances {pieces} (h : CodeResolved s code pieces s') (hs : Stack E s.frames) :
    Advances E s s' := by
  induction h with
  | nil => exact .refl hs
  | cons first _ ih =>
    have hfirst := first.advances hs
    exact hfirst.trans (ih hfirst.stack)

/-! ## Functions -/

/-- A function that was emitted inside `outer` and has become `t'` inside `outer'`: its code was resolved when the
functions around it had grown to some extent. -/
structure ResolvedFunction (outer outer' : List Frame) (t t' : FunctionTree) : Prop where
  stack : Stack (t.frame :: outer) (t'.frame :: outer')
  pool_eq : t'.pool = t.pool
  run : ∃ s pieces s', Stack (t.frame :: outer) s.frames ∧ s.frame.nextLabel = t.frame.nextLabel ∧
    CodeResolved s t.code pieces s' ∧ s'.frame = t'.frame ∧ Grow s'.frames (t'.frame :: outer') ∧
    t'.code = t'.frame.prologue ++ pieces.flatten

/-- Functions further out may grow. -/
theorem throughout_of_grow {S S'} (h : t.Throughout ResolvedFunction E S t') (hS : Stack E S') (hgrow : Grow S S') :
    t.Throughout ResolvedFunction E S' t' := by
  induction h generalizing S' with
  | @mk _ outer' _ t' here length_eq _ ih =>
    have hstack := here.stack.outer hS hgrow
    have hgrow' : Grow (t'.frame :: outer') (t'.frame :: S') := .cons (.refl _) hgrow
    obtain ⟨s, pieces, s', hs, hlabel, hcode, hframe, hgrows, hresult⟩ := here.run
    exact .mk ⟨hstack, here.pool_eq, s, pieces, s', hs, hlabel, hcode, hframe, hgrows.trans hgrow',
      hresult⟩ length_eq fun c c' hc => ih c c' hc hstack hgrow'

mutual

/-- Resolving a tree keeps the invariant, and makes no labels for the functions around it. -/
theorem resolvedFunctions_resolveTree {E} {s : State} {s'} :
    ∀ {t t' : FunctionTree}, t.Scoped →
    (E ≠ [] → t.frame.role.isTopLevel = false) → Stack E s.frames → (resolveTree t).run s = .ok (t', s') →
    Advances E s s' ∧ s'.labels = s.labels ∧ t.Throughout ResolvedFunction E s'.frames t'
  | ⟨f, code, pool, children⟩, t', .mk hmade hnamed htopLevel hscoped, hnested, hstack, h => by
    obtain ⟨⟨⟩, s₁, henter, h₁⟩ := run_bind_eq_ok.mp h
    obtain ⟨children', s₂, hchildren, h₂⟩ := run_bind_eq_ok.mp h₁
    obtain ⟨body, s₃, hbody, h₃⟩ := run_bind_eq_ok.mp h₂
    obtain ⟨f', s₄, hleave, h₄⟩ := run_bind_eq_ok.mp h₃
    cases henter
    cases hleave
    cases h₄
    have hstack₁ : Stack (f :: E) (f :: s.frames) := hstack.enter hmade hnested
    obtain ⟨hadvances₂, hlabels₂, hall⟩ := resolvedFunctions_resolveTrees (E := f :: E)
      (fun c hc => ⟨htopLevel c hc, hscoped c hc⟩) nofun hstack₁ hchildren
    have hlabel : s₂.frame.nextLabel = f.nextLabel := State.nextLabel_frame hlabels₂
    obtain ⟨pieces, hpieces, hresolved⟩ := codeResolved_of_run hnamed hbody
    have hadvances₃ := hresolved.advances hadvances₂.stack
    have hadvances := hadvances₂.trans hadvances₃
    obtain ⟨atoms', frames⟩ := s₃
    cases frames with
    | nil => cases hadvances.stack
    | cons f' outer =>
      have houter : outer.map Frame.nextLabel = s.frames.map Frame.nextLabel := hadvances.outerLabels
      refine ⟨⟨hadvances.stack.tail, (List.forall₂_cons.mp hadvances.grow).2, congrArg List.tail houter,
        hadvances.sound, hadvances.covers, hadvances.dense, hadvances.names⟩, houter,
        .mk ?_ hall.length_eq fun c c' hc => ?_⟩
      · exact ⟨hadvances.stack, rfl, s₂, pieces, _, hadvances₂.stack, hlabel, hresolved, rfl, Grow.refl _,
          congrArg (f'.prologue ++ ·) hpieces⟩
      · exact throughout_of_grow ((List.forall₂_iff_zip.mp hall).2 hc) hadvances.stack hadvances₃.grow

theorem resolvedFunctions_resolveTrees {E} {s : State} {s'} :
    ∀ {ts ts' : List FunctionTree},
    (∀ t ∈ ts, t.frame.role.isTopLevel = false ∧ t.Scoped) → E ≠ [] → Stack E s.frames →
    (resolveTrees ts).run s = .ok (ts', s') → Advances E s s' ∧ s'.labels = s.labels ∧
      List.Forall₂ (fun t t' => t.Throughout ResolvedFunction E s'.frames t') ts ts'
  | [], _, _, _, hstack, h => by
    cases h
    exact ⟨.refl hstack, rfl, .nil⟩
  | t :: rest, ts', hts, hE, hstack, h => by
    rw [List.forall_mem_cons] at hts
    obtain ⟨t', s₁, ht, h₁⟩ := run_bind_eq_ok.mp h
    obtain ⟨rest', s₂, hrest, h₂⟩ := run_bind_eq_ok.mp h₁
    cases h₂
    obtain ⟨hadvances, hlabels, hfirst⟩ :=
      resolvedFunctions_resolveTree hts.1.2 (fun _ => hts.1.1) hstack ht
    obtain ⟨hadvances', hlabels', hall⟩ := resolvedFunctions_resolveTrees hts.2 hE hadvances.stack hrest
    exact ⟨hadvances.trans hadvances', hlabels'.trans hlabels,
      .cons (throughout_of_grow hfirst hadvances'.stack hadvances'.grow) hall⟩

end

end Naming

end ScriptBytecode
