import ScriptBytecode.Proofs.Drafting.Supply

/-!
# Rules for drafts

`Drafts` says that an emitter does what `Drafted` allows with what there is, how deep the stack is before and behind
it, and what it exports. Its rules follow the building blocks of emitters.
-/

namespace ScriptBytecode

open Flow

variable {α β : Type}

variable {m : Emit α} {f : α → Emit β} {s s' : EmitState} {a : Atom} {xs : List α} {c : Prop} {body : Emit Unit}
  {P : α → Prop} {rest : PUnit → Emit β} {o : Opcode}

/-! ## Kinds of opcodes -/

namespace Opcode

/-- A free opcode without an atom. -/
def isBare (o : Opcode) : Bool :=
  o.isFree && !o.format.hasAtom

/-- A free opcode with an atom. -/
def isNaming (o : Opcode) : Bool :=
  o.isFree && o.format.hasAtom

/-- Some bare opcodes in a row, which make `q` values of `p` values. -/
def areBare (os : List Opcode) (p q : Nat) : Bool :=
  os.all isBare && chain? os p == some q

end Opcode

/-- The atoms of a result that is none. -/
def noNames (_ : α) : List Atom := []

/-- What comes of an emitter: `names` are the atoms of its result, all of which have names. -/
structure Supply.Outcome (C : Supply) (marks : List Nat) (d e : Nat) (names : List Atom) (exports : List ExportItem)
    (s s' : EmitState) : Prop where
  drafted : Drafted C.measured C.labels marks d e s s'
  named : ∀ x ∈ names, s'.atoms.Covers x
  /-- Imports are declared in their own way. -/
  exported : C.importing = false → Exported exports s s'
  scope : C.enclosed = true → s'.draft.frame.scopes.current = s.draft.frame.scopes.current

/-- The emitter takes the stack from depth `d` to the depth that `post` gives. It marks `marks`, its result has the
atoms `names`, and it exports `exports`. -/
def Drafts (C : Supply) (d : Nat) (m : Emit α) (post : α → Nat) (marks : List Nat := [])
    (names : α → List Atom := noNames) (exports : List ExportItem := []) : Prop :=
  ∀ s a s', C.Ready s → m.run s = .ok (a, s') → C.Outcome marks d (post a) (names a) exports s s'

/-- Emitters that only read the state. -/
def Reads (m : Emit α) : Prop :=
  ∀ s a s', m.run s = .ok (a, s') → s' = s

/-- After the emitter, the code cannot be left at its end. -/
def Closes (m : Emit α) : Prop :=
  ∀ s a s', m.run s = .ok (a, s') → s'.draft.IsClosed

namespace Supply.Outcome

variable {C : Supply} {marks marks' : List Nat} {d e k : Nat} {names names' : List Atom}
  {exports exports' : List ExportItem}

theorem ready (h : C.Outcome marks d e names exports s s') (hs : C.Ready s) : (C.know names).Ready s' :=
  (hs.kept h.drafted.kept h.scope).know h.named

theorem trans {s₁} (h : C.Outcome marks d e names exports s s₁)
    (h' : (C.know names).Outcome marks' e k names' exports' s₁ s') :
    C.Outcome (marks ++ marks') d k names' (exports ++ exports') s s' where
  drafted := h.drafted.trans h'.drafted
  named := h'.named
  exported := fun hC => (h.exported hC).trans (h'.exported hC) h.drafted.kept.role
  scope := fun hC => (h'.scope hC).trans (h.scope hC)

end Supply.Outcome

namespace Reads

theorem of_state (f : EmitState → α) : Reads (do return f (← get)) := by
  intro s a s' hrun
  cases hrun
  rfl

theorem pure (a : α) : Reads (Pure.pure a : Emit α) := by
  intro s a' s' hrun
  cases hrun
  rfl

theorem bind (hm : Reads m) (hf : ∀ a, Reads (f a)) : Reads (m >>= f) := by
  intro s b s' hrun
  obtain ⟨a, s₁, hm', hf'⟩ := run_bind_eq_ok.mp hrun
  rw [hf a s₁ b s' hf', hm s a s₁ hm']

end Reads

/-- What holds of the result of an emitter. -/
def Returns (m : Emit α) (P : α → Prop) : Prop :=
  ∀ s a s', m.run s = .ok (a, s') → P a

namespace Returns

theorem bind {Q} (hm : Returns m P) (hf : ∀ a, P a → Returns (f a) Q) : Returns (m >>= f) Q := by
  intro s b s' hrun
  obtain ⟨a, s₁, hm', hf'⟩ := run_bind_eq_ok.mp hrun
  exact hf a (hm s a s₁ hm') s₁ b s' hf'

theorem any (m : Emit α) : Returns m fun _ => True :=
  fun _ _ _ _ => trivial

protected theorem pure {a} (h : P a) : Returns (Pure.pure a) P := by
  intro s a' s' hrun
  cases hrun
  exact h

theorem mapM {P} (h : ∀ x ∈ xs, Returns (f x) P) : Returns (xs.mapM f) fun ys => ∀ y ∈ ys, P y := by
  induction xs with
  | nil => exact .pure (by simp)
  | cons x xs ih =>
    rw [List.forall_mem_cons] at h
    rw [List.mapM_cons]
    refine .bind h.1 fun y hy => .bind (ih h.2) fun ys hys => .pure ?_
    rw [List.forall_mem_cons]
    exact ⟨hy, hys⟩

end Returns

namespace Drafts

variable {C : Supply} {d e k : Nat} {mid : α → Nat} {post : β → Nat} {post' : α → Nat} {marks : List Nat}
  {names : α → List Atom} {names' : β → List Atom} {exports : List ExportItem}

/-! ## Sequences -/

/-- What is known of the result of the first emitter may be used for the second. The labels that the first emitter
marks come first, and so do its exports. -/
theorem append_of {marks' exports'} (hm : Drafts C d m mid marks names exports) (hP : Returns m P)
    (hf : ∀ a, P a → Drafts (C.know (names a)) (mid a) (f a) post marks' names' exports') :
    Drafts C d (m >>= f) post (marks ++ marks') names' (exports ++ exports') := by
  intro s b s' hs hrun
  obtain ⟨a, s₁, hm', hf'⟩ := run_bind_eq_ok.mp hrun
  have hfirst := hm s a s₁ hs hm'
  exact hfirst.trans (hf a (hP s a s₁ hm') s₁ b s' (hfirst.ready hs) hf')

theorem append {marks' exports'} (hm : Drafts C d m mid marks names exports)
    (hf : ∀ a, Drafts (C.know (names a)) (mid a) (f a) post marks' names' exports') :
    Drafts C d (m >>= f) post (marks ++ marks') names' (exports ++ exports') :=
  append_of hm (.any m) fun a _ => hf a

theorem bind_of (hm : Drafts C d m mid [] names) (hP : Returns m P)
    (hf : ∀ a, P a → Drafts (C.know (names a)) (mid a) (f a) post marks names' exports) :
    Drafts C d (m >>= f) post marks names' exports :=
  append_of hm hP hf

theorem bind (hm : Drafts C d m mid [] names)
    (hf : ∀ a, Drafts (C.know (names a)) (mid a) (f a) post marks names' exports) :
    Drafts C d (m >>= f) post marks names' exports :=
  append hm hf

/-- The first emitter marks all labels, and exports all that is exported. -/
theorem bind_last (hm : Drafts C d m mid marks names exports)
    (hf : ∀ a, Drafts (C.know (names a)) (mid a) (f a) post [] names') :
    Drafts C d (m >>= f) post marks names' exports := by
  have h := append hm hf
  rwa [List.append_nil, List.append_nil] at h

/-- Something that has no result of interest is done first. -/
theorem seq (hm : Drafts C d m mid) (hf : ∀ a, Drafts C (mid a) (f a) post marks names' exports) :
    Drafts C d (m >>= f) post marks names' exports :=
  bind hm hf

/-- Something is exported first. -/
theorem exporting {exports'} (hm : Drafts C d m mid [] noNames exports)
    (hf : ∀ a, Drafts C (mid a) (f a) post marks names' exports') :
    Drafts C d (m >>= f) post marks names' (exports ++ exports') :=
  append hm hf

/-- Nothing is exported after the first emitter. -/
theorem exporting_all (hm : Drafts C d m mid [] noNames exports)
    (hf : ∀ a, Drafts C (mid a) (f a) post marks names') : Drafts C d (m >>= f) post marks names' exports := by
  have h := exporting hm hf
  rwa [List.append_nil] at h

theorem read (hm : Reads m) (hf : ∀ a, Drafts C d (f a) post marks names' exports) :
    Drafts C d (m >>= f) post marks names' exports := by
  intro s b s' hs hrun
  obtain ⟨a, s₁, hm', hf'⟩ := run_bind_eq_ok.mp hrun
  cases hm s a s₁ hm'
  exact hf a s b s' hs hf'

/-- A result that tells the depth. -/
theorem result (a : α) (hd : mid a = d) (h : ∀ x ∈ names a, C.Knows x) :
    Drafts C d (Pure.pure a) mid [] names := by
  subst hd
  intro s a' s' hs hrun
  cases hrun
  exact ⟨.refl _ _ _, fun x hx => hs.covers (h x hx), fun _ => .refl _, fun _ => rfl⟩

protected theorem pure (a : α) : Drafts C d (Pure.pure a) (fun _ => d) :=
  result a rfl nofun

/-- Names of the result that do not matter. -/
theorem anonymous (h : Drafts C d m mid marks names exports) : Drafts C d m mid marks noNames exports :=
  fun s a s' hs hrun => { h s a s' hs hrun with named := nofun }

/-- Depths that are not measured do not matter. -/
theorem unmeasured (hC : C.measured = false) (h : Drafts C d m mid marks names exports) :
    Drafts C k m post' marks names exports := by
  intro s a s' hs hrun
  have hold := h s a s' hs hrun
  exact { hold with drafted := hold.drafted.unmeasured hC _ _ }

/-- The labels may be marked in any order. -/
theorem reorder {marks'} (h : Drafts C d m mid marks names exports) (hperm : marks.Perm marks') :
    Drafts C d m mid marks' names exports := by
  intro s a s' hs hrun
  have hold := h s a s' hs hrun
  exact { hold with drafted := hold.drafted.reorder hperm }

theorem error (e : Error) : Drafts C d (throw e) mid marks names exports := by
  intro s a s' _ hrun
  cases hrun

/-- Nothing comes after an error. -/
theorem error_seq (e : Error) : Drafts C d ((throw e : Emit α) >>= f) post marks names' exports := by
  intro s a s' _ hrun
  cases hrun

theorem misuse (what : Misuse) (span : Span) : Drafts C d (Emit.misuse what span) mid marks names exports :=
  error _

theorem unsupported (what : Unsupported) (span : Span) :
    Drafts C d (Emit.unsupported what span) mid marks names exports :=
  error _

theorem fault (what : InternalFault) : Drafts C d (Emit.fault what) mid marks names exports :=
  error _

/-! ## Choices and loops -/

protected theorem ite [Decidable c] {m'} (h : c → Drafts C d m mid marks names exports)
    (h' : ¬c → Drafts C d m' mid marks names exports) : Drafts C d (if c then m else m') mid marks names exports := by
  split
  · exact h ‹_›
  · exact h' ‹_›

/-- A check that fails, before the rest. -/
theorem guarded [Decidable c] {e} (h : Drafts C d (rest ⟨⟩) post marks names' exports) :
    Drafts C d (if c then (throw e : Emit PUnit) >>= rest else rest ⟨⟩) post marks names' exports :=
  .ite (fun _ => error_seq e) fun _ => h

/-- One of two things is done before the rest. -/
theorem either [Decidable c] {m m'} (h : c → Drafts C d m (fun _ => e)) (h' : ¬c → Drafts C d m' (fun _ => e))
    (hrest : ∀ u, Drafts C e (rest u) post marks names' exports) :
    Drafts C d (if c then m >>= rest else m' >>= rest) post marks names' exports :=
  .ite (fun hc => .seq (h hc) hrest) fun hc => .seq (h' hc) hrest

/-- Something that may be done before the rest. -/
theorem optionally [Decidable c] {m} (h : c → Drafts C d m (fun _ => d))
    (hrest : ∀ u, Drafts C d (rest u) post marks names' exports) :
    Drafts C d (if c then m >>= rest else rest ⟨⟩) post marks names' exports :=
  .ite (fun hc => .seq (h hc) hrest) fun _ => hrest ⟨⟩

/-- Every item exports something. -/
theorem forM_exporting {f : α → Emit Unit} {items} (h : ∀ x ∈ xs, Drafts C d (f x) (fun _ => d) [] noNames (items x)) :
    Drafts C d (xs.forM f) (fun _ => d) [] noNames (xs.flatMap items) := by
  induction xs with
  | nil => exact .pure ()
  | cons x xs ih =>
    rw [List.forall_mem_cons] at h
    exact .exporting h.1 fun _ => ih h.2

theorem forM {f : α → Emit Unit} (h : ∀ x ∈ xs, Drafts C d (f x) (fun _ => d)) :
    Drafts C d (xs.forM f) (fun _ => d) := by
  have hnothing : (xs.flatMap fun _ => ([] : List ExportItem)) = [] := List.flatMap_eq_nil_iff.mpr fun _ _ => rfl
  exact hnothing ▸ forM_exporting h

/-- A loop whose last round may be another. -/
theorem forM_concat {f : α → Emit Unit} {last} (h : ∀ x ∈ xs, Drafts C d (f x) (fun _ => d))
    (hlast : Drafts C d (f last) (fun _ => e)) : Drafts C d ((xs ++ [last]).forM f) (fun _ => e) := by
  induction xs with
  | nil => exact .seq hlast fun _ => .pure ()
  | cons x xs ih =>
    rw [List.forall_mem_cons] at h
    exact .seq h.1 fun _ => ih h.2

/-- Every item leaves a value on the stack. -/
theorem forM_push {f : α → Emit Unit} (h : ∀ x ∈ xs, ∀ k, d ≤ k → Drafts C k (f x) (fun _ => k + 1)) :
    Drafts C d (xs.forM f) (fun _ => d + xs.length) := by
  induction xs generalizing d with
  | nil => exact .pure ()
  | cons x xs ih =>
    rw [List.forall_mem_cons] at h
    have hrest := ih (d := d + 1) fun y hy k hk => h.2 y hy k (by omega)
    rw [List.length_cons, Nat.add_comm xs.length, ← Nat.add_assoc]
    exact .seq (h.1 d le_rfl) fun _ => hrest

theorem optionForM {f : α → Emit Unit} {x} (h : ∀ a, x = some a → Drafts C d (f a) (fun _ => d)) :
    Drafts C d (x.forM f) (fun _ => d) := by
  cases x with
  | none => exact .pure _
  | some a => exact h a rfl

theorem optionMapM {x} (h : ∀ a, x = some a → Drafts C d (f a) (fun _ => d) [] names') :
    Drafts C d (x.mapM f) (fun _ => d) [] (fun b => b.toList.flatMap names') := by
  cases x with
  | none => exact result _ rfl nofun
  | some a =>
    refine .bind (h a rfl) fun b => result _ rfl fun x hx => ?_
    exact Supply.knows_of_mem (by simpa using hx)

/-- All items have names, whichever there were before. -/
theorem mapM (names' : β → List Atom)
    (h : ∀ names, ∀ x ∈ xs, Drafts (C.know names) d (f x) (fun _ => d) [] names') :
    Drafts C d (xs.mapM f) (fun _ => d) [] (fun ys => ys.flatMap names') := by
  suffices ∀ known, Drafts (C.know known) d (xs.mapM f) (fun _ => d) [] (fun ys => ys.flatMap names') from this []
  induction xs with
  | nil => exact fun _ => result _ rfl nofun
  | cons x xs ih =>
    intro known
    rw [List.mapM_cons]
    refine .bind (h known x List.mem_cons_self) fun y => ?_
    have hrest := ih (fun names z hz => h names z (List.mem_cons_of_mem x hz)) (names' y ++ known)
    have hsame : (C.know known).know (names' y) = C.know (names' y ++ known) := by
      simp [Supply.know]
    rw [hsame]
    refine .bind hrest fun ys => result _ rfl fun z hz => ?_
    rcases List.mem_append.mp (List.flatMap_cons ▸ hz) with hz | hz
    · exact (Supply.Knows.know (hsame ▸ Supply.knows_of_mem hz) _)
    · exact Supply.knows_of_mem hz

/-- What a fold has gathered so far has names. -/
theorem foldlM {f} (h : ∀ C' b x, x ∈ xs → (∀ a ∈ names' b, C'.Knows a) → Drafts C' d (f b x) (fun _ => d) [] names')
    {b} (hb : ∀ a ∈ names' b, C.Knows a) : Drafts C d (xs.foldlM f b) (fun _ => d) [] names' := by
  induction xs generalizing C b with
  | nil => exact result b rfl hb
  | cons x xs ih =>
    rw [List.foldlM_cons]
    refine .bind (h C b x List.mem_cons_self hb) fun b' => ?_
    exact ih (fun C' b y hy => h C' b y (List.mem_cons_of_mem x hy)) fun _ ha => Supply.knows_of_mem ha

/-! ## Single steps -/

/-- A change of the state that exports something, or declares imports. -/
theorem of_exported {f} (h : ∀ s, C.Ready s → Drafted C.measured C.labels marks d e s (f s))
    (hscope : ∀ s : EmitState, (f s).draft.frame.scopes.current = s.draft.frame.scopes.current)
    (hexports : C.importing = false → ∀ s, C.Ready s → Exported exports s (f s)) :
    Drafts C d (modify f) (fun _ => e) marks noNames exports := by
  intro s a s' hs hrun
  cases hrun
  exact ⟨h s hs, nofun, fun hC => hexports hC s hs, fun _ => hscope s⟩

theorem of_drafted {f} (hsame : ∀ s : EmitState, s.SameLinks (f s) ∧
      (f s).draft.frame.scopes.current = s.draft.frame.scopes.current)
    (h : ∀ s, C.Ready s → Drafted C.measured C.labels marks d e s (f s)) : Drafts C d (modify f) (fun _ => e) marks :=
  of_exported h (fun s => (hsame s).2) fun _ s hs => .of_same (hsame s).1 ((h s hs).kept.names hs.sound)

theorem of_step {f} (hsame : ∀ s : EmitState, s.SameLinks (f s) ∧
      (f s).draft.frame.scopes.current = s.draft.frame.scopes.current)
    (h : ∀ s, C.Ready s → EmitStep s (f s)) : Drafts C d (modify f) (fun _ => d) :=
  of_drafted hsame fun s hs => .step (h s hs)

theorem interns (name : String) : Drafts C d (Emit.intern name) (fun _ => d) [] (fun a => [a]) := by
  intro s a s' hs hrun
  cases hrun
  refine ⟨.step (.intern name), fun x hx => ?_, fun _ => .of_same ⟨rfl, rfl⟩ (hs.sound.extends_intern name),
    fun _ => rfl⟩
  rw [List.mem_singleton.mp hx]
  exact hs.sound.covers_intern name

theorem intern {f} (name : String) (h : ∀ a, Drafts (C.know [a]) d (f a) post marks names' exports) :
    Drafts C d (Emit.intern name >>= f) post marks names' exports :=
  .bind (interns name) h

/-- A name gets its atom, which matters for what is exported under it. -/
theorem name {f} (name : String) (h : ∀ a, Drafts (C.withName name a) d (f a) post marks names' exports) :
    Drafts C d (Emit.intern name >>= f) post marks names' exports := by
  intro s b s' hs hrun
  obtain ⟨a, s₁, hname, hf⟩ := run_bind_eq_ok.mp hrun
  have hfirst := interns (d := d) name s a s₁ hs hname
  have hready := hfirst.ready hs
  have hatom : s₁.atoms.atom? name = some a := by
    cases hname
    exact hs.sound.atom?_intern name
  have hrest := h a s₁ b s' { hready with named := List.forall_mem_cons.mpr ⟨hatom, hready.named⟩ } hf
  exact hfirst.trans { hrest with }

theorem freshId : Drafts C d Emit.freshId (fun _ => d) := by
  intro s a s' _ hrun
  cases hrun
  exact ⟨.step .freshId, nofun, fun _ => .of_same ⟨rfl, rfl⟩ (.refl _), fun _ => rfl⟩

/-- The draft has the constructs, the chain and the completion value that are known. -/
theorem draft {f} (h : ∀ dr, dr.targets = C.targets → dr.chainEnd = C.chainEnd → dr.completion = C.completion →
    Drafts C d (f dr) post marks names' exports) : Drafts C d (Emit.draft >>= f) post marks names' exports := by
  intro s b s' hs hrun
  exact h s.draft hs.targets hs.chainEnd hs.completion s b s' hs hrun

/-! ## Instructions -/

/-- An instruction with the label that it marks. -/
theorem emits {i} (hmarks : i.endLabel?.toList = marks) (h : ∀ s, C.Ready s → Emittable s i)
    (hjump : ∀ l, i.jump? = some l → ∃ k, (l, k) ∈ C.labels) (hshifts : C.measured = true → i.Shifts C.labels d e) :
    Drafts C d (Emit.put i) (fun _ => e) marks :=
  of_drafted (fun _ => ⟨⟨rfl, rfl⟩, rfl⟩) fun s hs => hmarks ▸ .put (h s hs) hjump hshifts

end Drafts

/-- Free opcodes are no jumps. -/
theorem Permitted.target?_eq_none {i} (h : Permitted s i) : i.target? = none := by
  cases h with
  | @free o arg isFree =>
    have hjump : o.isJump = false := by
      simp only [Opcode.isFree, Bool.and_eq_true, Bool.not_eq_true'] at isFree
      exact isFree.1.1.2
    rw [Instr.of, Instr.target?_final, hjump]
    rfl
  | completion isLoc => rcases isLoc with rfl | rfl <;> rfl
  | arg isArg => rcases isArg with rfl | rfl <;> rfl
  | @access p => cases p <;> rfl
  | scope isScope => rcases isScope with rfl | rfl <;> rfl
  | constant | closure | chainField | chainElement | line => rfl

namespace Instr

variable {i : Instr} {labels : List (Nat × Nat)} {k : Nat}

theorem endLabel?_of_target? (h : i.target? = none) : i.endLabel? = none := by
  cases hl : i.endLabel? with
  | none => rfl
  | some l => exact absurd (h.symm.trans (target?_of_endLabel? hl)) nofun

theorem jump?_of_target? (h : i.target? = none) : i.jump? = none := by
  rw [jump?, endLabel?_of_target? h]
  exact h

/-- A placeholder without a label. -/
theorem shifts_pseudo {o : Pseudo} (p q : Nat) (arg : Operand) (h : o.isPlain p q)
    (hnamed : (⟨.pseudo o, arg⟩ : Instr).isNamed → o.format = .atomU16) :
    (⟨.pseudo o, arg⟩ : Instr).Shifts labels (k + p) (k + q) := by
  simp only [Pseudo.isPlain, Bool.and_eq_true, beq_iff_eq, Bool.not_eq_true'] at h
  obtain ⟨⟨⟨rfl, rfl⟩, hlabel⟩, hcount⟩ := h
  have hlabel' : (⟨.pseudo o, arg⟩ : Instr).op.format.hasLabel = false := hlabel
  have heffect := Instr.stackEffect_of_not_count ⟨.pseudo o, arg⟩ hcount
  have htarget : Instr.target? ⟨.pseudo o, arg⟩ = none := by
    rw [Instr.target?, hlabel']
    rfl
  refine fun _ _ => adds_put ⟨?_, ?_, hnamed⟩ (endLabel?_of_target? htarget) ?_ ?_ ?_
  · exact fun h => absurd (hlabel'.symm.trans h) (by decide)
  · exact fun h => absurd (hcount.symm.trans h) (by decide)
  · rw [heffect]
    exact Nat.le_add_left _ _
  · intro l hl
    rw [htarget] at hl
    cases hl
  · intro _ _
    rw [Instr.depthBehind, heffect]
    exact congrArg (· + _) (Nat.add_sub_cancel _ _)

end Instr

namespace Drafts

variable {C : Supply} {d e k l : Nat} {post : β → Nat} {marks : List Nat} {names : α → List Atom}
  {names' : β → List Atom} {exports : List ExportItem}

/-- An instruction without a label. -/
theorem put {i} (h : ∀ s, C.Ready s → Permitted s i) (hshifts : i.Shifts C.labels d e) :
    Drafts C d (Emit.put i) (fun _ => e) := by
  refine of_drafted (fun _ => ⟨⟨rfl, rfl⟩, rfl⟩) fun s hs => ?_
  have htarget := (h s hs).target?_eq_none
  have hput : Drafted C.measured C.labels i.endLabel?.toList d e s (s.put i) :=
    .put (.permitted (h s hs)) (fun l hl => nomatch (Instr.jump?_of_target? htarget).symm.trans hl) fun _ => hshifts
  rwa [Instr.endLabel?_of_target? htarget] at hput

theorem put_bare {arg : Operand} (h : o.isBare) (harg : arg.atom? = none) (hi : (Instr.of o arg).Shifts C.labels d e) :
    Drafts C d (Emit.put (.of o arg)) (fun _ => e) := by
  rw [Opcode.isBare, Bool.and_eq_true, Bool.not_eq_true'] at h
  refine put (fun _ _ => .free h.1 (h.2.trans ?_) fun a ha => ?_) hi
  · rw [harg]
    rfl
  · rw [harg] at ha
    cases ha

theorem put_naming {arg : Operand} (h : o.isNaming) (harg : arg.atom? = some a) (ha : C.Knows a)
    (hi : (Instr.of o arg).Shifts C.labels d e) : Drafts C d (Emit.put (.of o arg)) (fun _ => e) := by
  rw [Opcode.isNaming, Bool.and_eq_true] at h
  refine put (fun s hs => .free h.1 (h.2.trans ?_) fun b hb => ?_) hi
  · rw [harg]
    rfl
  · rw [harg] at hb
    cases hb
    exact hs.covers ha

protected theorem op (p q : Nat) (h : o.isBare && o.isPlain p q) : Drafts C (k + p) (Emit.op o) (fun _ => k + q) :=
  have h := Bool.and_eq_true_iff.mp h
  put_bare h.1 rfl fun _ _ => adds_plain p q .none h.2

theorem opLast (p : Nat) (h : o.isBare && o.isLast p) (e : Nat) : Drafts C (k + p) (Emit.op o) (fun _ => e) :=
  have h := Bool.and_eq_true_iff.mp h
  put_bare h.1 rfl fun _ _ => adds_last p .none h.2 e

theorem opInt (p q : Nat) (n : Int) (h : o.isBare && o.isPlain p q) :
    Drafts C (k + p) (Emit.opInt o n) (fun _ => k + q) :=
  have h := Bool.and_eq_true_iff.mp h
  put_bare h.1 rfl fun _ _ => adds_plain p q _ h.2

/-- An instruction with a number that does not count values. -/
theorem opIndex (p q n : Nat) (h : o.isBare && o.isPlain p q) :
    Drafts C (k + p) (Emit.opCount o n) (fun _ => k + q) :=
  opInt p q _ h

/-- An instruction that takes `n` arguments above its other values. -/
theorem opCount (p q n : Nat) (h : o.isBare && o.isCall p q) :
    Drafts C (k + p + n) (Emit.opCount o n) (fun _ => k + q) :=
  have h := Bool.and_eq_true_iff.mp h
  put_bare h.1 rfl fun _ _ => adds_call p q n h.2

theorem opAtom (p q : Nat) (h : o.isNaming && o.isPlain p q) (ha : C.Knows a) :
    Drafts C (k + p) (Emit.opAtom o a) (fun _ => k + q) :=
  have h := Bool.and_eq_true_iff.mp h
  put_naming h.1 rfl ha fun _ _ => adds_plain p q _ h.2

theorem opAtomInt (p q n : Nat) (h : o.isNaming && o.isPlain p q) (ha : C.Knows a) :
    Drafts C (k + p) (Emit.opAtomInt o a n) (fun _ => k + q) :=
  have h := Bool.and_eq_true_iff.mp h
  put_naming h.1 rfl ha fun _ _ => adds_plain p q _ h.2

theorem opAtomIntLast (p n : Nat) (h : o.isNaming && o.isLast p) (ha : C.Knows a) (e : Nat) :
    Drafts C (k + p) (Emit.opAtomInt o a n) (fun _ => e) :=
  have h := Bool.and_eq_true_iff.mp h
  put_naming h.1 rfl ha fun _ _ => adds_last p _ h.2 e

/-- Opcodes in a row. -/
theorem ops {os} (p q : Nat) (h : Opcode.areBare os p q) : Drafts C (k + p) (Emit.ops os) (fun _ => k + q) := by
  rw [Opcode.areBare, Bool.and_eq_true, beq_iff_eq] at h
  obtain ⟨hbare, h⟩ := h
  induction os generalizing p with
  | nil =>
    cases h
    exact .pure ()
  | cons o os ih =>
    rw [List.all_cons, Bool.and_eq_true] at hbare
    rw [Opcode.chain?] at h
    split at h
    · rename_i hplain
      rw [Bool.and_eq_true, decide_eq_true_eq] at hplain
      have hsplit : k + p = k + (p - o.info.pops) + o.info.pops := by omega
      rw [hsplit]
      refine .seq (.op _ _ (Bool.and_eq_true_iff.mpr ⟨hbare.1, hplain.1⟩)) fun _ => ?_
      rw [Nat.add_assoc]
      exact ih _ hbare.2 h
    · cases h

theorem drops (n : Nat) : Drafts C (k + n) (Emit.ops (.replicate n .drop)) (fun _ => k) := by
  induction n with
  | zero => exact .pure ()
  | succ n ih => exact .seq (.op 1 0 rfl) fun _ => ih

theorem nips (n : Nat) : Drafts C (k + 1 + n) (Emit.ops (.replicate n .nip)) (fun _ => k + 1) := by
  induction n with
  | zero => exact .pure ()
  | succ n ih =>
    have hsplit : k + 1 + (n + 1) = k + n + 2 := by omega
    have hsplit' : k + n + 1 = k + 1 + n := by omega
    rw [hsplit]
    refine .seq (.op 2 1 rfl) fun _ => ?_
    rw [hsplit']
    exact ih

theorem pushInt (n : Int) : Drafts C d (Emit.pushInt n) (fun _ => d + 1) :=
  opInt 0 1 n rfl

theorem pushText (s : String) : Drafts C d (Emit.pushText s) (fun _ => d + 1) :=
  intern s fun a => opAtom 0 1 rfl (C.knows_self a)

theorem access {p : Pseudo} {name} (i j : Nat) (h : p.isVarAccess && p.isAccess i j) (ha : C.Knows name) :
    Drafts C (k + i) (Emit.access p name) (fun _ => k + j) := by
  simp only [Pseudo.isAccess, Bool.and_eq_true, beq_iff_eq] at h
  exact .read (.of_state _) fun _ =>
    put (fun _ hs => .access h.1 (hs.covers ha) _) (Instr.shifts_pseudo i j _ h.2.1 fun _ => h.2.2)

theorem locate (span : Span) : Drafts C d (Emit.locate span) (fun _ => d) := by
  refine .read (.of_state _) fun _ => .ite (fun _ => ?_) fun _ => .pure _
  exact .seq (of_step (fun _ => ⟨⟨rfl, rfl⟩, rfl⟩) fun _ _ => .lastLine _) fun _ =>
    put (fun _ _ => .line _) (Instr.shifts_pseudo 0 0 _ rfl nofun)

/-! ## Labels -/

/-- A new label, which is marked last of all. -/
theorem newLabel {f} (k : Nat) (h : ∀ l, Drafts (C.withLabel l k) d (f l) post (marks ++ [l]) names' exports) :
    Drafts C d (Emit.newLabel >>= f) post marks names' exports := by
  intro s b s' hs hrun
  have hrest := h s.nextLabel s.withLabel b s' { hs with } hrun
  exact ⟨hrest.drafted.label k, hrest.named, fun hC => { hrest.exported hC with }, hrest.scope⟩

theorem spareLabel {f} (h : ∀ l, Drafts C d (f l) post marks names' exports) :
    Drafts C d (Emit.newLabel >>= f) post marks names' exports := by
  intro s b s' hs hrun
  have hrest := h s.nextLabel s.withLabel b s' { hs with } hrun
  exact ⟨hrest.drafted.spareLabel, hrest.named, fun hC => { hrest.exported hC with }, hrest.scope⟩

theorem mark (hl : (l, d) ∈ C.labels) : Drafts C d (Emit.mark l) (fun _ => d) [l] :=
  emits rfl (fun _ _ => .mark l) nofun fun _ _ hknown => adds_mark (hknown l d hl)

theorem mark_seq {f} (hl : (l, d) ∈ C.labels) (h : ∀ u, Drafts C d (f u) post marks names' exports) :
    Drafts C d (Emit.mark l >>= f) post (l :: marks) names' exports :=
  append (mark hl) h

theorem jump?_of_isPlainJump (h : o.isPlainJump) {l l'} (hl : (Instr.of o (.label l)).jump? = some l') : l' = l := by
  cases o <;> first | cases hl; rfl | cases h

theorem jump (h : o.isPlainJump) (hl : ∃ k, (l, k) ∈ C.labels)
    (hshifts : C.measured = true → (Instr.of o (.label l)).Shifts C.labels d e) :
    Drafts C d (Emit.jump o l) (fun _ => e) :=
  emits rfl (fun _ _ => .jump h l) (fun _ h' => jump?_of_isPlainJump h h' ▸ hl) hshifts

theorem branch (p q : Nat) (h : o.isBranch p q) (hl : (l, k + q) ∈ C.labels) :
    Drafts C (k + p) (Emit.jump o l) (fun _ => k + q) := by
  have hjump : o.isPlainJump = true := by
    simp only [Opcode.isBranch, Bool.and_eq_true, Bool.or_eq_true, beq_iff_eq] at h
    obtain ⟨-, (rfl | rfl) | rfl⟩ := h
    all_goals rfl
  exact jump hjump ⟨_, hl⟩ fun _ _ hknown => adds_branch p q h (hknown l _ hl)

theorem goto (hl : (l, d) ∈ C.labels) (e : Nat) : Drafts C d (Emit.jump .goto l) (fun _ => e) :=
  jump rfl ⟨d, hl⟩ fun _ _ hknown => adds_goto (hknown l d hl) e

/-! ## Scopes -/

theorem leaveScope (scope : Nat) : Drafts C d (Emit.leaveScope scope) (fun _ => d) :=
  put (fun _ _ => .scope (.inr rfl) _) (Instr.shifts_pseudo 0 0 _ rfl nofun)

/-- The current scope is left. -/
def exitScope (s : EmitState) (scope : Nat) : EmitState :=
  (s.put ⟨.pseudo .leaveScope, .int (Emit.scopeOperand scope)⟩).withFrame
    { s.draft.frame with scopes := s.draft.frame.scopes.pop }

/-- A scope is opened. -/
def enterScope (s : EmitState) : EmitState :=
  (s.withFrame { s.draft.frame with scopes := s.draft.frame.scopes.push }).put
    ⟨.pseudo .enterScope, .int (Emit.scopeOperand s.draft.frame.scopes.scopes.size)⟩

theorem drafted_enterScope {measured labels} (s : EmitState) :
    Drafted measured labels [] d d s (enterScope s) :=
  .trans (.step (.frame .openScope)) (.put (.permitted (.scope (.inl rfl) _)) nofun fun _ =>
    Instr.shifts_pseudo 0 0 _ rfl nofun)

theorem drafted_exitScope {measured labels} (s : EmitState) (scope : Nat) :
    Drafted measured labels [] d d s (exitScope s scope) :=
  .trans (.put (.permitted (.scope (.inr rfl) _)) nofun fun _ =>
    Instr.shifts_pseudo 0 0 _ rfl nofun) (.step (.frame .closeScope))

theorem ready_enterScope (hs : C.Ready s) : C.enclose.Ready (enterScope s) :=
  hs.move (@drafted_enterScope 0 false [] s).kept fun _ => Nat.ne_of_gt hs.scopes

/-- A scope that stays open. -/
theorem openScope {f} (hC : C.enclosed = false)
    (h : ∀ scope, Drafts C.enclose d (f scope) post marks names' exports) :
    Drafts C d (Emit.openScope >>= f) post marks names' exports := by
  intro s b s' hs hrun
  have hrest := h s.draft.frame.scopes.scopes.size (enterScope s) b s' (ready_enterScope hs) hrun
  refine ⟨(drafted_enterScope s).trans hrest.drafted, hrest.named, fun h => { hrest.exported h with }, fun h => ?_⟩
  rw [hC] at h
  cases h

/-- A scope that is closed again is the current one until then. -/
theorem inNewScope {body : Nat → Emit Unit}
    (h : ∀ scope, Drafts C.enclose d (body scope) (fun _ => e) marks noNames exports) :
    Drafts C d (Emit.openScope >>= fun scope => body scope >>= fun _ => Emit.closeScope scope) (fun _ => e) marks
      noNames exports := by
  intro s u s' hs hrun
  let scope := s.draft.frame.scopes.scopes.size
  have hinner : (body scope >>= fun _ => Emit.closeScope scope).run (enterScope s) = .ok (u, s') := hrun
  obtain ⟨⟨⟩, s₁, hbody, hclose⟩ := run_bind_eq_ok.mp hinner
  have hdone := h scope (enterScope s) () s₁ (ready_enterScope hs) hbody
  cases hclose
  have hparent : s₁.draft.frame.scopes.parent? s₁.draft.frame.scopes.current = some s.draft.frame.scopes.current := by
    rw [hdone.scope rfl]
    refine hdone.drafted.kept.frame.parent _ _ ?_
    exact (ScopeTree.parent?_push _ _).trans (if_pos rfl)
  refine ⟨?_, nofun, fun h => { hdone.exported h with }, fun _ => ?_⟩
  · have hall := ((drafted_enterScope s).trans hdone.drafted).trans (drafted_exitScope s₁ scope)
    rwa [List.append_nil] at hall
  · change s₁.draft.frame.scopes.pop.current = _
    rw [ScopeTree.pop, hparent]

theorem inScope (h : Drafts C.enclose d body (fun _ => e) marks noNames exports) :
    Drafts C d (Emit.inScope body) (fun _ => e) marks noNames exports :=
  inNewScope fun _ => h

theorem declare {name} {kind : VarKind} {isLexical isConst} (hC : C.enclosed = true) (ha : C.Knows name) :
    Drafts C d (Emit.declare name kind isLexical isConst) (fun _ => d) :=
  of_step (fun _ => ⟨⟨rfl, rfl⟩, rfl⟩) fun _ hs =>
    .frame (.scopeVar (hs.covers ha) (hs.enclosed hC) kind isLexical isConst)

/-! ## Constants -/

theorem pushConstant {v : Value} (hv : v.isLiteral) : Drafts C d (Emit.pushConstant v) (fun _ => d + 1) := by
  intro s a s' _ hrun
  cases hrun
  have hlt := s.draft.pool.add_lt_size v
  exact ⟨.trans (.step (.constant hv)) (.put (.permitted (.constant hlt)) nofun fun _ _ _ =>
    adds_plain 0 1 _ rfl), nofun, fun _ => .of_same ⟨rfl, rfl⟩ (.refl _), fun _ => rfl⟩

/-- The constant of a nested function. -/
theorem addFunction {f} (child : Nat) (h : ∀ i, Drafts (C.withFunction i) d (f i) post marks names' exports) :
    Drafts C d (Emit.addFunction child >>= f) post marks names' exports := by
  intro s b s' hs hrun
  have hrest := h _ _ b s' (hs.addFunction child) hrun
  exact ⟨.trans (.step (.function child)) hrest.drafted, hrest.named, fun hC => { hrest.exported hC with }, hrest.scope⟩

/-- A constant that is not used any more. -/
theorem forgetFunction {i post} (h : Drafts C d m post marks names exports) :
    Drafts (C.withFunction i) d m post marks names exports :=
  fun s a s' hs hrun =>
    { h s a s' { hs with functions := fun j hj => hs.functions j (List.mem_cons_of_mem i hj) } hrun with }

/-- The constant of a nested function as a value. -/
theorem pushFunction {i} (hi : i ∈ C.functions) : Drafts C d (Emit.opInt .pushConst i) (fun _ => d + 1) :=
  put (fun _ hs => .constant (hs.functions i hi).lt_size) fun _ _ => adds_plain 0 1 _ rfl

/-! ## Constructs, chains and nested functions -/

/-- The inside of a construct, whose labels may be jumped to. -/
theorem within {t : JumpTarget} (ht : t.Placed C.measured C.labels C.base)
    (hbody : Drafts (C.inside t ht) d body (fun _ => e) marks noNames exports) :
    Drafts C d (Emit.within t body) (fun _ => e) marks noNames exports := by
  intro s a s' hs hrun
  obtain ⟨⟨⟩, s₁, hpush, hrest⟩ := run_bind_eq_ok.mp hrun
  obtain ⟨⟨⟩, s₂, hinner, hpop⟩ := run_bind_eq_ok.mp hrest
  cases hpush
  cases hpop
  have hready : (C.inside t ht).Ready (s.withTargets (t :: s.draft.targets)) :=
    { hs with targets := congrArg (t :: ·) hs.targets }
  have hdone := hbody _ _ s₂ hready hinner
  have htail : s₂.draft.targets.tail = s.draft.targets := congrArg List.tail hdone.drafted.kept.targets
  have hstate : Drafted C.measured C.labels marks d e s (s₂.withTargets s₂.draft.targets.tail) := by
    rw [htail]
    exact hdone.drafted.within
  exact ⟨hstate, nofun, fun hC => { hdone.exported hC with }, hdone.scope⟩

theorem withChainEnd {chainEnd} (hbody : Drafts (C.chained chainEnd) d body (fun _ => e) marks noNames exports) :
    Drafts C d (Emit.withChainEnd chainEnd body) (fun _ => e) marks noNames exports := by
  intro s a s' hs hrun
  obtain ⟨_, s₀, hread, hset'⟩ := run_bind_eq_ok.mp hrun
  obtain ⟨⟨⟩, s₁, hset, hrest⟩ := run_bind_eq_ok.mp hset'
  obtain ⟨⟨⟩, s₂, hinner, hreset⟩ := run_bind_eq_ok.mp hrest
  cases hread
  cases hset
  cases hreset
  have hready : (C.chained chainEnd).Ready (s.withChainEnd chainEnd) := { hs with chainEnd := rfl }
  have hdone := hbody _ _ s₂ hready hinner
  exact ⟨hdone.drafted.chained, nofun, fun hC => { hdone.exported hC with }, hdone.scope⟩

/-- The end of a chain has the depth of the chain's value. -/
theorem chain (hbody : ∀ exit, Drafts ((C.withLabel exit e).chained (some exit)) d body (fun _ => e)) :
    Drafts C d (Emit.chain body) (fun _ => e) :=
  newLabel e fun exit => .seq (withChainEnd (hbody exit)) fun _ => mark List.mem_cons_self

/-- A nested function is emitted now, and has to become a constant in what is emitted after it. -/
def Nests (C : Supply) (m : Emit Nat) : Prop :=
  ∀ s child s', C.Ready s → m.run s = .ok (child, s') →
    Kept s s' ∧ Exported [] s s' ∧ s'.draft.frame.scopes.current = s.draft.frame.scopes.current ∧
      ∀ {marks d e s''}, Drafted C.measured C.labels marks d e s' s'' → s''.draft.pool.HoldsChild child →
        Drafted C.measured C.labels marks d e s s''

/-- The emitter makes a nested function a constant. -/
structure Fills (C : Supply) (child d : Nat) (m : Emit α) (post : α → Nat) (marks : List Nat := [])
    (names : α → List Atom := noNames) (exports : List ExportItem := []) : Prop where
  drafts : Drafts C d m post marks names exports
  isConstant : ∀ s a s', C.Ready s → m.run s = .ok (a, s') → s'.draft.pool.HoldsChild child

theorem nesting {m f} (hm : Nests C m) (hf : ∀ child, Fills C child d (f child) post marks names' exports) :
    Drafts C d (m >>= f) post marks names' exports := by
  intro s b s' hs hrun
  obtain ⟨child, s₁, hm', hf'⟩ := run_bind_eq_ok.mp hrun
  obtain ⟨hkept, hquiet, hscope, hdrafted⟩ := hm s child s₁ hs hm'
  have hready := hs.kept hkept fun _ => hscope
  have hrest := (hf child).drafts s₁ b s' hready hf'
  exact ⟨hdrafted hrest.drafted ((hf child).isConstant s₁ b s' hready hf'), hrest.named,
    fun hC => hquiet.trans (hrest.exported hC) hkept.role, fun hC => (hrest.scope hC).trans hscope⟩

theorem Nests.fault (what : InternalFault) : Nests C (Emit.fault what) := by
  intro s a s' _ hrun
  cases hrun

end Drafts

/-- `Drafts` for the code of a function from its start, where nothing is declared. -/
def DraftsFirst (C : Supply) (body : Emit Unit) (e : Nat) (exports : List ExportItem) : Prop :=
  ∀ s s', C.Ready s → s.draft.frame.scopes.vars = #[] → body.run s = .ok ((), s') →
    C.Outcome [] 0 e [] exports s s'

namespace DraftsFirst

variable {C : Supply} {e : Nat} {rest : Unit → Emit Unit} {exports : List ExportItem}

theorem of_drafts (h : Drafts C 0 body (fun _ => e) [] noNames exports) : DraftsFirst C body e exports :=
  fun s s' hs _ hrun => h s () s' hs hrun

/-- What the frame says about the function comes first. -/
theorem header {change : Frame → Frame} {rest : Unit → Emit Unit}
    (hstep : ∀ t pool g, FrameStep t pool g (change g))
    (hsame : ∀ g, (change g).scopes = g.scopes ∧ (change g).closureVars = g.closureVars)
    (h : DraftsFirst C (rest ()) e exports) : DraftsFirst C (Emit.modifyFrame change >>= rest) e exports := by
  intro s s' hs hvars hrun
  have hfirst : C.Outcome [] 0 0 [] [] s (s.withFrame (change s.draft.frame)) :=
    ⟨.step (.frame (hstep _ _ _)), nofun, fun _ => .of_same ⟨rfl, (hsame _).2⟩ (.refl _),
      fun _ => congrArg ScopeTree.current (hsame _).1⟩
  exact hfirst.trans (h _ s' (hfirst.ready hs) ((congrArg ScopeTree.vars (hsame _).1).trans hvars) hrun)

theorem seq {m : Emit Unit} {k : Nat} (h : DraftsFirst C m k [])
    (hrest : Drafts C k (rest ()) (fun _ => e) [] noNames exports) : DraftsFirst C (m >>= rest) e exports := by
  intro s s' hs hvars hrun
  obtain ⟨⟨⟩, s₁, hm, hrun⟩ := run_bind_eq_ok.mp hrun
  have hfirst := h s s₁ hs hvars hm
  exact hfirst.trans (hrest s₁ () s' (hfirst.ready hs) hrun)

theorem ite {c : Prop} [Decidable c] {body' : Emit Unit} (h : c → DraftsFirst C body e exports)
    (h' : ¬c → DraftsFirst C body' e exports) : DraftsFirst C (if c then body else body') e exports := by
  split
  · exact h ‹_›
  · exact h' ‹_›

/-- The variable for `this` is the first one. -/
theorem this (h : Drafts C 0 (rest ()) (fun _ => e) [] noNames exports) :
    DraftsFirst C (Emit.modifyFrame Frame.withThis >>= rest) e exports := by
  intro s s' hs hvars hrun
  have hfirst : C.Outcome [] 0 0 [] [] s (s.withFrame s.draft.frame.withThis) :=
    ⟨.step (.frame (.this hvars)), nofun, fun _ => .of_same ⟨rfl, rfl⟩ (.refl _), fun _ => rfl⟩
  exact hfirst.trans (h _ () s' (hfirst.ready hs) hrun)

end DraftsFirst

namespace Drafts

variable {C : Supply} {d e k l : Nat} {post : β → Nat} {marks : List Nat} {names : α → List Atom}
  {names' : β → List Atom} {exports : List ExportItem}

/-- A nested function cannot be left at its end. It exports nothing, or it would not have been emitted. -/
theorem nested {name} {role : Role} {body} (hname : C.Knows name) (hrole : role.isTopLevel = false) (span : Span)
    (e : Nat) (exports : List ExportItem) (hbody : DraftsFirst C.nested body e exports) (hclosed : Closes body) :
    Nests C (Emit.nested name role span body) := by
  intro s a s' hs hrun
  obtain ⟨_, s₀, hread, hset'⟩ := run_bind_eq_ok.mp hrun
  obtain ⟨⟨⟩, s₁, hset, hrest⟩ := run_bind_eq_ok.mp hset'
  obtain ⟨⟨⟩, s₂, hinner, hreset⟩ := run_bind_eq_ok.mp hrest
  cases hread
  cases hset
  cases hreset
  have hready : ∀ line scope strict, C.nested.Ready (s.enter (.initial name role line scope strict)) :=
    fun _ _ _ => ⟨hs.sound, hs.atoms, hs.predefined, nofun, rfl, rfl, Nat.zero_le _,
      nofun, rfl, nofun, Nat.zero_lt_one, nofun⟩
  have hdone := hbody _ s₂ (hready _ _ _) rfl hinner
  refine ⟨hdone.drafted.kept.adopt, (hdone.exported rfl).adopt ?_, rfl, fun hrest hchild =>
    .nested (hs.covers hname) hrole _ _ _ hdone.drafted (hclosed _ _ _ hinner) hrest hchild⟩
  rintro rfl
  cases hrole

namespace Fills

variable {child : Nat} {mid : α → Nat}

/-- Something is emitted before the nested function becomes a constant. -/
theorem seq (hm : Drafts C d m mid) (hf : ∀ a, Fills C child (mid a) (f a) post marks names' exports) :
    Fills C child d (m >>= f) post marks names' exports where
  drafts := .seq hm fun a => (hf a).drafts
  isConstant := by
    intro s b s' hs hrun
    obtain ⟨a, s₁, hm', hf'⟩ := run_bind_eq_ok.mp hrun
    exact (hf a).isConstant s₁ b s' ((hm s a s₁ hs hm').ready hs) hf'

/-- Constants stay. -/
theorem before {m} {f : α → Emit β} (hm : Fills C child d m mid)
    (hf : ∀ a, Drafts C (mid a) (f a) post marks names' exports) :
    Fills C child d (m >>= f) post marks names' exports where
  drafts := .seq hm.drafts hf
  isConstant := by
    intro s b s' hs hrun
    obtain ⟨a, s₁, hm', hf'⟩ := run_bind_eq_ok.mp hrun
    obtain ⟨idx, hidx⟩ := hm.isConstant s a s₁ hs hm'
    have hready := (hm.drafts s a s₁ hs hm').ready hs
    exact ⟨idx, (hf a s₁ b s' hready hf').drafted.kept.pool idx _ hidx⟩

theorem addFunction {f} (child : Nat) (h : ∀ i, Drafts (C.withFunction i) d (f i) post marks names' exports) :
    Fills C child d (Emit.addFunction child >>= f) post marks names' exports where
  drafts := .addFunction child h
  isConstant := by
    intro s b s' hs hrun
    obtain ⟨idx, hidx⟩ := s.draft.pool.holdsChild_addFunction child
    exact ⟨idx, (h _ _ b s' (hs.addFunction child) hrun).drafted.kept.pool idx _ hidx⟩

theorem pushClosure (child : Nat) : Fills C child d (Emit.pushClosure child) (fun _ => d + 1) :=
  addFunction child fun _ =>
    put (fun _ hs => .closure (hs.functions _ List.mem_cons_self)) fun _ _ => adds_plain 0 1 _ rfl

end Fills

end Drafts

end ScriptBytecode
