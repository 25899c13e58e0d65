import ScriptBytecode.Proofs.ConstantPools
import ScriptBytecode.Proofs.Drafting.Exports
import ScriptBytecode.Proofs.Result

/-!
# What emitters rely on

A supply is what there is when an emitter starts: atoms that have names, labels with the depths that they are to have,
the constructs around the code at hand and the optional chain that it is in. Emission takes nothing of it away.
-/

namespace ScriptBytecode

variable {s s' : EmitState} {a : Atom}

/-! ## What emission keeps -/

/-- Arguments and scopes are only added to a frame. -/
structure Frame.Extends (f g : Frame) : Prop where
  role : g.role = f.role
  args : f.scopes.args.size ≤ g.scopes.args.size
  scopes : f.scopes.scopes.size ≤ g.scopes.scopes.size
  parent : ∀ n p, f.scopes.parent? n = some p → g.scopes.parent? n = some p

namespace Frame.Extends

variable {f g k : Frame}

theorem refl (f : Frame) : f.Extends f :=
  ⟨rfl, le_rfl, le_rfl, fun _ _ h => h⟩

theorem trans (h : f.Extends g) (h' : g.Extends k) : f.Extends k where
  role := h'.role.trans h.role
  args := h.args.trans h'.args
  scopes := h.scopes.trans h'.scopes
  parent := fun n p hp => h'.parent n p (h.parent n p hp)

end Frame.Extends

namespace ScopeTree

/-- A new scope has the current one around it. -/
theorem parent?_push (t : ScopeTree) (n : Nat) :
    t.push.parent? n = if n = t.scopes.size then some t.current else t.parent? n := by
  unfold parent? push
  rw [Array.getElem?_push]
  split <;> rfl

theorem parent?_lt {t : ScopeTree} {n p} (h : t.parent? n = some p) : n < t.scopes.size := by
  obtain ⟨s, hs, -⟩ := Option.bind_eq_some_iff.mp h
  exact (Array.getElem?_eq_some_iff.mp hs).1

/-- Variables change nothing about scopes but what can be seen from them. -/
theorem parent?_addScopeVar (t : ScopeTree) (name : Atom) (kind : VarKind) (isLexical isConst : Bool) (n : Nat) :
    (t.addScopeVar name kind isLexical isConst).parent? n = t.parent? n := by
  unfold parent? addScopeVar
  dsimp only
  rw [Array.getElem?_modify]
  split
  · cases t.scopes[n]? <;> rfl
  · rfl

theorem args_pop (t : ScopeTree) : t.pop.args = t.args := by
  unfold pop
  split
  · rfl
  · rfl

theorem scopes_pop (t : ScopeTree) : t.pop.scopes = t.scopes := by
  unfold pop
  split
  · rfl
  · rfl

end ScopeTree

theorem FrameStep.extends {t pool f f'} (h : FrameStep t pool f f') : f.Extends f' := by
  cases h with
  | openScope =>
    refine ⟨rfl, le_rfl, by simp [ScopeTree.push], fun n p hp => ?_⟩
    rw [ScopeTree.parent?_push, if_neg (Nat.ne_of_lt (ScopeTree.parent?_lt hp)), hp]
  | closeScope =>
    refine ⟨rfl, Nat.le_of_eq (by rw [ScopeTree.args_pop]), Nat.le_of_eq (by rw [ScopeTree.scopes_pop]), ?_⟩
    unfold ScopeTree.parent?
    rw [ScopeTree.scopes_pop]
    exact fun _ _ h => h
  | scopeVar =>
    refine ⟨rfl, le_rfl, (Array.size_modify ..).symm.le, fun n p hp => ?_⟩
    rwa [ScopeTree.parent?_addScopeVar]
  | arg => exact ⟨rfl, Nat.le_of_lt (by simp [ScopeTree.addArg]), le_rfl, fun _ _ h => h⟩
  | _ => exact ⟨rfl, le_rfl, le_rfl, fun _ _ h => h⟩

/-- Nothing that emission has is taken from it. -/
structure Kept (s s' : EmitState) : Prop where
  sound : s.atoms.Sound → s'.atoms.Sound
  covers : s.atoms.Sound → ∀ a, s.atoms.Covers a → s'.atoms.Covers a
  dense : s.atoms.Sound → s.atoms.Dense → s'.atoms.Dense
  names : s.atoms.Sound → s.atoms.Extends s'.atoms
  targets : s'.draft.targets = s.draft.targets
  chainEnd : s'.draft.chainEnd = s.draft.chainEnd
  completion : s'.draft.completion = s.draft.completion
  frame : s.draft.frame.Extends s'.draft.frame
  pool : ∀ i c, s.draft.pool.get? i = some c → s'.draft.pool.get? i = some c

namespace Kept

theorem role (h : Kept s s') : s'.draft.frame.role = s.draft.frame.role :=
  h.frame.role

theorem refl (s : EmitState) : Kept s s :=
  ⟨id, fun _ _ h => h, fun _ h => h, fun _ => .refl _, rfl, rfl, rfl, .refl _, fun _ _ h => h⟩

theorem trans {s₁ s₂} (h : Kept s s₁) (h' : Kept s₁ s₂) : Kept s s₂ where
  sound := fun hs => h'.sound (h.sound hs)
  covers := fun hs a ha => h'.covers (h.sound hs) a (h.covers hs a ha)
  dense := fun hs hd => h'.dense (h.sound hs) (h.dense hs hd)
  names := fun hs => (h.names hs).trans (h'.names (h.sound hs))
  targets := h'.targets.trans h.targets
  chainEnd := h'.chainEnd.trans h.chainEnd
  completion := h'.completion.trans h.completion
  frame := h.frame.trans h'.frame
  pool := fun i c hc => h'.pool i c (h.pool i c hc)

/-- Changes that leave the atoms alone and give the draft another frame, code, pool or line. -/
theorem of_draft (hatoms : s'.atoms = s.atoms) (htargets : s'.draft.targets = s.draft.targets)
    (hchain : s'.draft.chainEnd = s.draft.chainEnd) (hcompletion : s'.draft.completion = s.draft.completion)
    (hframe : s.draft.frame.Extends s'.draft.frame)
    (hpool : ∀ i c, s.draft.pool.get? i = some c → s'.draft.pool.get? i = some c) : Kept s s' where
  sound := fun h => hatoms ▸ h
  covers := fun _ _ h => hatoms ▸ h
  dense := fun _ h => hatoms ▸ h
  names := fun _ => hatoms ▸ .refl _
  targets := htargets
  chainEnd := hchain
  completion := hcompletion
  frame := hframe
  pool := hpool

/-- A nested function has a draft of its own. -/
theorem adopt {frame} (h : Kept (s.enter frame) s') : Kept s (s.adopt s') :=
  ⟨h.sound, h.covers, h.dense, h.names, rfl, rfl, rfl, .refl _, fun _ _ h => h⟩

end Kept

/-! ## Constants are only added -/

namespace ConstantPool

variable {p : ConstantPool} {i : Nat}

/-- The constant of a value is in the pool. -/
theorem add_lt_size (p : ConstantPool) (v : Value) : (p.add v).1 < (p.add v).2.size := by
  obtain ⟨d, hget, -⟩ := p.get?_insert_self (.value v)
  exact (Array.getElem?_eq_some_iff.mp hget).1

/-- The constant of a nested function is that function. -/
theorem get?_addFunction_self (p : ConstantPool) (n : Nat) :
    (p.addFunction n).2.get? (p.addFunction n).1 = some (.function n) := by
  obtain ⟨d, hget, hkey⟩ := p.get?_insert_self (.function n)
  rwa [Constant.key_eq_function_iff.mp hkey] at hget

theorem hasFunction_addFunction (p : ConstantPool) (n : Nat) : (p.addFunction n).2.HasFunction (p.addFunction n).1 :=
  ⟨n, p.get?_addFunction_self n⟩

theorem holdsChild_addFunction (p : ConstantPool) (n : Nat) : (p.addFunction n).2.HoldsChild n :=
  ⟨_, p.get?_addFunction_self n⟩

theorem HasFunction.lt_size (h : p.HasFunction i) : i < p.size := by
  obtain ⟨child, hget⟩ := h
  exact (Array.getElem?_eq_some_iff.mp hget).1

end ConstantPool

theorem EmitStep.kept (h : EmitStep s s') : Kept s s' := by
  cases h with
  | intern name =>
    exact ⟨fun h => h.intern name, fun h _ ha => ha.intern h name, fun h hd => hd.intern h name,
      fun h => h.extends_intern name, rfl, rfl, rfl, .refl _, fun _ _ h => h⟩
  | frame step => exact .of_draft rfl rfl rfl rfl step.extends fun _ _ h => h
  | constant => exact .of_draft rfl rfl rfl rfl (.refl _) fun _ _ h => ConstantPool.get?_insert h (.value _)
  | function => exact .of_draft rfl rfl rfl rfl (.refl _) fun _ _ h => ConstantPool.get?_insert h (.function _)
  | _ => exact .of_draft rfl rfl rfl rfl (.refl _) fun _ _ h => h

theorem Drafted.kept {measured labels marks d e} (h : Drafted measured labels marks d e s s') : Kept s s' := by
  induction h with
  | refl => exact .refl _
  | step step => exact step.kept
  | put => exact .of_draft rfl rfl rfl rfl (.refl _) fun _ _ h => h
  | trans _ _ ih₁ ih₂ => exact ih₁.trans ih₂
  | unmeasured _ _ _ _ ih | reorder _ _ ih => exact ih
  | label _ _ ih | spareLabel _ ih => exact { ih with frame := { ih.frame with } }
  | within _ _ ih => exact { ih with targets := rfl }
  | chained _ _ ih => exact { ih with chainEnd := rfl }
  | uncompleted _ ih => exact { ih with completion := rfl }
  | nested _ _ _ _ _ _ _ _ _ ih₁ ih₂ => exact ih₁.adopt.trans ih₂

/-! ## Constructs around the code -/

/-- How many values some constructs hold. -/
def heldBy : List JumpTarget → Nat
  | [] => 0
  | t :: outer => heldBy outer + t.held

/-- The labels of a construct have the depths that they should, with the values that the construct holds inside. Where
depths are measured it has no finalizer. -/
structure JumpTarget.Placed (measured : Bool) (labels : List (Nat × Nat)) (outer : Nat) (t : JumpTarget) : Prop where
  breakTo : ∀ l, t.breakTo = some l → (l, outer + t.held) ∈ labels
  continueTo : ∀ l, t.continueTo = some l → (l, outer + t.held) ∈ labels
  finalizer : ∀ l, t.finalizer = some l → measured = false ∧ ∃ k, (l, k) ∈ labels
  iterator : t.hasIterator = true → t.held = 3

/-- All constructs around the code at hand, innermost first. -/
inductive AllPlaced (measured : Bool) (labels : List (Nat × Nat)) : List JumpTarget → Prop
  | nil : AllPlaced measured labels []
  | cons {t : JumpTarget} {outer : List JumpTarget} (head : t.Placed measured labels (heldBy outer))
      (tail : AllPlaced measured labels outer) : AllPlaced measured labels (t :: outer)

section

variable {measured : Bool} {labels labels' : List (Nat × Nat)}

theorem JumpTarget.Placed.mono {outer} {t : JumpTarget} (h : t.Placed measured labels outer)
    (hsub : labels ⊆ labels') : t.Placed measured labels' outer where
  breakTo := fun l hl => hsub (h.breakTo l hl)
  continueTo := fun l hl => hsub (h.continueTo l hl)
  finalizer := fun l hl => (h.finalizer l hl).imp_right fun ⟨k, hk⟩ => ⟨k, hsub hk⟩
  iterator := h.iterator

theorem AllPlaced.mono {targets} (h : AllPlaced measured labels targets) (hsub : labels ⊆ labels') :
    AllPlaced measured labels' targets := by
  induction h with
  | nil => exact .nil
  | cons head _ ih => exact .cons (head.mono hsub) ih

theorem AllPlaced.right {targets outer} (h : AllPlaced measured labels (targets ++ outer)) :
    AllPlaced measured labels outer := by
  induction targets with
  | nil => exact h
  | cons t targets ih =>
    cases h with
    | cons _ htail => exact ih htail

end

/-! ## Supplies -/

/-- What there is when an emitter starts. -/
structure Supply where
  atoms : List Atom
  /-- Names and the atoms that they have. -/
  named : List (String × Atom)
  /-- Labels that may be jumped to, and the depths that they are to have. -/
  labels : List (Nat × Nat)
  targets : List JumpTarget
  chainEnd : Option Nat
  /-- So many arguments are declared. -/
  args : Nat
  /-- Constants that are nested functions. -/
  functions : List Nat
  completion : Option Nat
  inModule : Bool
  /-- May imports and the variables of a module be declared here? -/
  importing : Bool
  /-- Is there a scope around this that was opened? -/
  enclosed : Bool
  measured : Bool
  placed : AllPlaced measured labels targets

variable (C : Supply)

namespace Supply

structure Ready (s : EmitState) : Prop where
  sound : s.atoms.Sound
  atoms : ∀ a ∈ C.atoms, s.atoms.Covers a
  predefined : AtomTable.initial.Extends s.atoms
  named : ∀ p ∈ C.named, s.atoms.atom? p.1 = some p.2
  targets : s.draft.targets = C.targets
  chainEnd : s.draft.chainEnd = C.chainEnd
  args : C.args ≤ s.draft.frame.scopes.args.size
  functions : ∀ i ∈ C.functions, s.draft.pool.HasFunction i
  completion : s.draft.completion = C.completion
  role : C.inModule = true → s.draft.frame.role = .module
  scopes : 0 < s.draft.frame.scopes.scopes.size
  enclosed : C.enclosed = true → s.draft.frame.scopes.current ≠ 0

/-- The depth of statements. -/
def base : Nat :=
  heldBy C.targets

/-- More atoms that have names. -/
def know (names : List Atom) : Supply :=
  { C with atoms := names ++ C.atoms }

def withName (name : String) (a : Atom) : Supply :=
  { C with atoms := a :: C.atoms, named := (name, a) :: C.named }

def withLabel (l k : Nat) : Supply :=
  { C with labels := (l, k) :: C.labels, placed := C.placed.mono (List.subset_cons_self _ _) }

/-- Inside a construct. -/
def inside (t : JumpTarget) (h : t.Placed C.measured C.labels C.base) : Supply :=
  { C with targets := t :: C.targets, placed := .cons h C.placed }

/-- In another optional chain or in none. -/
def chained (chainEnd : Option Nat) : Supply :=
  { C with chainEnd }

def withArgs (n : Nat) : Supply :=
  { C with args := n }

def withFunction (i : Nat) : Supply :=
  { C with functions := i :: C.functions }

def uncompleted : Supply :=
  { C with completion := none }

/-- Inside a scope, or not. -/
def enclose (enclosed : Bool := true) : Supply :=
  { C with enclosed }

/-- At the start of a function. -/
def start (atoms : List Atom) (completion : Option Nat) (inModule measured : Bool) : Supply :=
  ⟨atoms, [], [], [], none, 0, [], completion, inModule, inModule, false, measured, .nil⟩

/-- For a nested function. -/
def nested : Supply :=
  start C.atoms none false C.measured

/-- For what stands in a module. -/
def asModule : Supply :=
  { C with inModule := true }

@[simp] theorem heldBy_targets : heldBy C.targets = C.base := rfl

@[simp] theorem base_know (names : List Atom) : (C.know names).base = C.base := rfl

@[simp] theorem base_withLabel (l k : Nat) : (C.withLabel l k).base = C.base := rfl

@[simp] theorem base_chained (chainEnd : Option Nat) : (C.chained chainEnd).base = C.base := rfl

@[simp] theorem base_inside (t : JumpTarget) (h : t.Placed C.measured C.labels C.base) :
    (C.inside t h).base = C.base + t.held := rfl

@[simp] theorem labels_know (names : List Atom) : (C.know names).labels = C.labels := rfl

@[simp] theorem base_enclose (enclosed : Bool) : (C.enclose enclosed).base = C.base := rfl

@[simp] theorem labels_enclose (enclosed : Bool) : (C.enclose enclosed).labels = C.labels := rfl

@[simp] theorem mem_withLabel (l k : Nat) (p : Nat × Nat) : p ∈ (C.withLabel l k).labels ↔ p = (l, k) ∨ p ∈ C.labels :=
  List.mem_cons

@[simp] theorem mem_inside (t : JumpTarget) (h : t.Placed C.measured C.labels C.base) (p : Nat × Nat) :
    p ∈ (C.inside t h).labels ↔ p ∈ C.labels :=
  Iff.rfl

@[simp] theorem mem_chained (chainEnd : Option Nat) (p : Nat × Nat) : p ∈ (C.chained chainEnd).labels ↔ p ∈ C.labels :=
  Iff.rfl

/-- Leaving the optional chain at hand leaves `k` values on the stack. -/
def ChainAt (k : Nat) : Prop :=
  ∀ exit, C.chainEnd = some exit → (exit, k) ∈ C.labels

/-- A tree that is emitted here is regular, if depths are measured. -/
def Allows (regular : Bool) : Prop :=
  C.measured = true → regular = true

theorem allows_and (a b : Bool) : C.Allows (a && b) ↔ C.Allows a ∧ C.Allows b := by
  simp only [Allows, Bool.and_eq_true]
  exact imp_and

theorem allows_all {α : Type} (p : α → Bool) (xs : List α) : C.Allows (xs.all p) ↔ ∀ x ∈ xs, C.Allows (p x) := by
  simp only [Allows, List.all_eq_true]
  exact ⟨fun h x hx hC => h hC x hx, fun h hC x hx => h x hx hC⟩

variable {C}

theorem measured_of_allows (h : C.Allows false) : C.measured = false :=
  Bool.eq_false_iff.mpr fun hC => nomatch h hC

/-- The atom has a name. -/
def Knows (C : Supply) (a : Atom) : Prop :=
  a.isPredefined = true ∨ a ∈ C.atoms

theorem Knows.know (h : C.Knows a) (names : List Atom) : (C.know names).Knows a :=
  h.imp_right (List.mem_append_right _)

theorem knows_of_mem {names} (h : a ∈ names) : (C.know names).Knows a :=
  .inr (List.mem_append_left _ h)

theorem knows_self (C : Supply) (a : Atom) : (C.know [a]).Knows a :=
  knows_of_mem List.mem_cons_self

theorem knows_none (C : Supply) : ∀ a ∈ (none : Option Atom), C.Knows a :=
  nofun

theorem Knows.some {x} (h : C.Knows x) : ∀ a ∈ some x, C.Knows a := by
  intro a ha
  cases ha
  exact h

/-- The name has the atom. -/
def Names (C : Supply) (name : String) (a : Atom) : Prop :=
  AtomTable.initial.atom? name = some a ∨ (name, a) ∈ C.named

theorem names_default (C : Supply) : C.Names "default" .defaultName :=
  .inl (by decide +kernel)

theorem names_defaultBinding (C : Supply) : C.Names "*default*" .defaultBinding :=
  .inl (by decide +kernel)

theorem names_star (C : Supply) : C.Names "*" .star :=
  .inl (by decide +kernel)

theorem names_self (C : Supply) (name : String) (a : Atom) : (C.withName name a).Names name a :=
  .inr List.mem_cons_self

theorem knows_withName (C : Supply) (name : String) (a : Atom) : (C.withName name a).Knows a :=
  .inr List.mem_cons_self

theorem Names.withName {name} (h : C.Names name a) (name' : String) (a' : Atom) : (C.withName name' a').Names name a :=
  h.imp_right (List.mem_cons_of_mem _)

variable (h : C.Ready s)
include h

theorem Ready.atom?_eq {name} (ha : C.Names name a) : s.atoms.atom? name = some a :=
  ha.elim (h.predefined name a) (h.named (name, a))

theorem Ready.covers (ha : C.Knows a) : s.atoms.Covers a :=
  ha.elim .inl (h.atoms a)

theorem Ready.covers_of_names {name} (ha : C.Names name a) : s.atoms.Covers a :=
  AtomTable.covers_of_atom? (h.atom?_eq ha)

/-- What is kept is still there in another scope. -/
theorem Ready.move (hk : Kept s s') {enclosed : Bool}
    (hscope : enclosed = true → s'.draft.frame.scopes.current ≠ 0) : Ready { C with enclosed } s' where
  sound := hk.sound h.sound
  atoms := fun a ha => hk.covers h.sound a (h.atoms a ha)
  predefined := h.predefined.trans (hk.names h.sound)
  named := fun p hp => hk.names h.sound _ _ (h.named p hp)
  targets := hk.targets.trans h.targets
  chainEnd := hk.chainEnd.trans h.chainEnd
  args := h.args.trans hk.frame.args
  functions := fun i hi => (h.functions i hi).imp fun _ hc => hk.pool i _ hc
  completion := hk.completion.trans h.completion
  role := fun hm => hk.role.trans (h.role hm)
  scopes := h.scopes.trans_le hk.frame.scopes
  enclosed := hscope

theorem Ready.kept (hk : Kept s s')
    (hscope : C.enclosed = true → s'.draft.frame.scopes.current = s.draft.frame.scopes.current) : C.Ready s' :=
  h.move hk fun hC => hscope hC ▸ h.enclosed hC

theorem Ready.know {names} (hnames : ∀ a ∈ names, s.atoms.Covers a) : (C.know names).Ready s :=
  { h with atoms := fun a ha => (List.mem_append.mp ha).elim (hnames a) (h.atoms a) }

/-- One more constant that is a nested function. -/
theorem Ready.addFunction (child : Nat) :
    (C.withFunction (s.draft.pool.addFunction child).1).Ready (s.withPool (s.draft.pool.addFunction child).2) :=
  have hready := h.kept (EmitStep.function child).kept fun _ => rfl
  { hready with
    functions := List.forall_mem_cons.mpr ⟨s.draft.pool.hasFunction_addFunction child, hready.functions⟩ }

end Supply

end ScriptBytecode
