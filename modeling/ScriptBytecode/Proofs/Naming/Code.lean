import ScriptBytecode.Proofs.Naming
import ScriptBytecode.Proofs.Naming.Runs

/-!
# Resolved code

What holds of the code of every function once its names are resolved: its instructions name slots, constants and
atoms that there are, and its labels stay wired.
-/

namespace ScriptBytecode

variable {op : Pseudo} {scope : Nat} {o : Opcode}

/-! ## Instructions -/

namespace Slot

/-- The format of operands that name the slot. -/
def format : Slot → Format
  | var _ => .loc
  | arg _ => .arg
  | closure _ => .varRef

/-- The opcode that makes a reference to the slot. -/
def reference : Slot → Opcode
  | var _ => .makeLocRef
  | arg _ => .makeArgRef
  | closure _ => .makeVarRefRef

end Slot

/-- Instructions of a function whose names are resolved. -/
inductive Frame.Admits (f : Frame) (pool : ConstantPool) (t : AtomTable) : Instr → Prop
  | free {o : Opcode} {arg : Operand} (isFree : o.isFree = true) (hasAtom : o.format.hasAtom = arg.atom?.isSome)
      (known : ∀ a, arg.atom? = some a → t.Covers a) : Admits f pool t (.of o arg)
  | slot {o : Opcode} (slot : Slot) (format : o.format = slot.format) (isLong : o.isShort = false)
      (has : f.HasSlot slot) : Admits f pool t (.of o (.int slot.index))
  | reference {name : Atom} (slot : Slot) (known : t.Covers name) (has : f.HasSlot slot) :
      Admits f pool t (.of slot.reference (.atomInt name slot.index))
  | constant {idx : Nat} (lt : idx < pool.size) : Admits f pool t (.of .pushConst (.int idx))
  | closure {idx : Nat} (isFunction : pool.HasFunction idx) : Admits f pool t (.of .fclosure (.int idx))
  | jump {o : Opcode} (isJump : o.isPlainJump = true) (l : Nat) : Admits f pool t (.of o (.label l))
  | tryWith (op : Pseudo) {name : Atom} (known : t.Covers name) (l n : Nat) :
      Admits f pool t (.of (withAccess op) (.atomLabel name l n))
  | mark (l : Nat) : Admits f pool t (.mark l)
  | line (n : Nat) : Admits f pool t (.line n)

variable {i : Instr}

section

variable {f g : Frame} {pool : ConstantPool} {t : AtomTable}

theorem Frame.Admits.grows (h : f.Admits pool t i) (hg : f.Grows g) : g.Admits pool t i := by
  cases h with
  | free isFree hasAtom known => exact .free isFree hasAtom known
  | slot slot format isLong has => exact .slot slot format isLong (hg.hasSlot has)
  | reference slot known has => exact .reference slot known (hg.hasSlot has)
  | constant lt => exact .constant lt
  | closure isFunction => exact .closure isFunction
  | jump isJump l => exact .jump isJump l
  | tryWith op known l n => exact .tryWith op known l n
  | mark l => exact .mark l
  | line n => exact .line n

/-- Opcodes without an operand, or with a number. -/
theorem Frame.Admits.unnamed {arg : Operand} (isFree : o.isFree) (hasAtom : o.format.hasAtom = false)
    (harg : arg.atom? = none) : f.Admits pool t (.of o arg) :=
  .free isFree (hasAtom.trans (by rw [harg]; rfl)) fun a ha => nomatch ha.symm.trans harg

/-- Opcodes with an atom. -/
theorem Frame.Admits.named {arg : Operand} {a} (isFree : o.isFree) (hasAtom : o.format.hasAtom)
    (harg : arg.atom? = some a) (known : t.Covers a) : f.Admits pool t (.of o arg) :=
  .free isFree (hasAtom.trans (by rw [harg]; rfl)) fun b hb => by
    cases harg.symm.trans hb
    exact known

/-! ### Bindings -/

theorem Frame.slot_binding (f : Frame) (slot : Slot) : (f.binding slot).slot = slot := by
  cases slot <;> rfl

variable {name : Atom}

theorem Binding.admits_get (b : Binding) (h : f.HasSlot b.slot) (checked : Bool) : f.Admits pool t (b.get checked) := by
  unfold Binding.get
  dsimp only
  split
  all_goals
    rename_i hslot
    rw [hslot] at h
  · split <;> exact .slot (.var _) rfl rfl h
  · exact .slot (.arg _) rfl rfl h
  · split <;> exact .slot (.closure _) rfl rfl h

theorem Binding.admits_put (b : Binding) (h : f.HasSlot b.slot) (hname : t.Covers name) (strict : Bool) :
    f.Admits pool t (b.put name strict) := by
  unfold Binding.put
  split
  · exact .unnamed rfl rfl rfl
  · split
    · exact .named rfl rfl rfl hname
    · split
      all_goals
        rename_i hslot
        rw [hslot] at h
      · split <;> exact .slot (.var _) rfl rfl h
      · exact .slot (.arg _) rfl rfl h
      · split <;> exact .slot (.closure _) rfl rfl h

theorem Binding.admits_init (b : Binding) (h : f.HasSlot b.slot) (name : Atom) : f.Admits pool t (b.init name) := by
  unfold Binding.init
  dsimp only
  split
  all_goals
    rename_i hslot
    rw [hslot] at h
  · split <;> exact .slot (.var _) rfl rfl h
  · exact .slot (.arg _) rfl rfl h
  · split <;> exact .slot (.closure _) rfl rfl h

theorem Binding.admits_ref (b : Binding) (h : f.HasSlot b.slot) (hname : t.Covers name) :
    f.Admits pool t (b.ref name) := by
  unfold Binding.ref
  split
  all_goals
    rename_i hslot
    rw [hslot] at h
  · exact .reference (.var _) hname h
  · exact .reference (.arg _) hname h
  · exact .reference (.closure _) hname h

theorem admits_accessBinding (hop : op.isVariable) (hname : t.Covers name) (strict : Bool) {found}
    (h : ∀ b ∈ found, f.HasSlot b.slot) : ∀ i ∈ accessBinding op name strict found, f.Admits pool t i := by
  have hone : ∀ {i}, f.Admits pool t i → ∀ j ∈ [i], f.Admits pool t j := by simp
  have hundefined : ∀ {i}, f.Admits pool t i → ∀ j ∈ [.plain .undefined, i], f.Admits pool t j := by
    intro i hi
    rw [List.forall_mem_cons]
    exact ⟨.unnamed rfl rfl rfl, hone hi⟩
  cases op <;> cases hop
  case getVar | getThis | getVarUndef =>
    cases found with
    | none => exact hone (.named rfl rfl rfl hname)
    | some b => exact hone (b.admits_get (h b rfl) true)
  case putVar =>
    cases found with
    | none => exact hone (.named rfl rfl rfl hname)
    | some b => exact hone (b.admits_put (h b rfl) hname strict)
  case putVarInit =>
    cases found with
    | none => exact hone (.named rfl rfl rfl hname)
    | some b => exact hone (b.admits_init (h b rfl) name)
  case deleteVar =>
    cases found with
    | none => exact hone (.named rfl rfl rfl hname)
    | some b => exact hone (.unnamed rfl rfl rfl)
  case getRef =>
    cases found with
    | none => exact hundefined (.named rfl rfl rfl hname)
    | some b => exact hundefined (b.admits_get (h b rfl) true)
  case makeRef =>
    cases found with
    | none => exact hone (.named rfl rfl rfl hname)
    | some b => exact hone (b.admits_ref (h b rfl) hname)

theorem Naming.admits_accessCode (hop : op.isVariable) (hname : t.Covers name) (strict : Bool) {found}
    (hfound : ∀ b ∈ found, f.HasSlot b.slot) {withs} (hwiths : ∀ b ∈ withs, f.HasSlot b.slot) (done : Option Nat) :
    ∀ i ∈ accessCode op name withs found strict done, f.Admits pool t i := by
  intro i hi
  rcases List.mem_append.mp hi with hi | hi
  · rcases List.mem_append.mp hi with hi | hi
    · obtain ⟨b, hb, hi⟩ := List.mem_flatMap.mp hi
      simp only [tryWith, List.mem_cons, List.not_mem_nil, or_false] at hi
      rcases hi with rfl | rfl
      · exact b.admits_get (hwiths b hb) false
      · exact .tryWith op hname _ 1
    · exact admits_accessBinding hop hname strict hfound i hi
  · obtain ⟨l, -, rfl⟩ := List.mem_map.mp hi
    exact .mark l

end

/-! ### Private members -/

/-- Finished opcodes that have to do with the stack only. -/
def Instr.isStackOnly (i : Instr) : Bool :=
  i.opcode?.any (fun o => o.isFree && !o.format.hasAtom) && i.arg.atom?.isNone

/-- Code that reads one binding and has to do with the stack otherwise. -/
def Binding.OnlyReads (b : Binding) (code : List Instr) : Prop :=
  ∀ i ∈ code, i = b.get false ∨ i.isStackOnly = true

namespace Binding.OnlyReads

variable {b : Binding} {code : List Instr}

theorem nil (b : Binding) : b.OnlyReads [] :=
  nofun

theorem read (h : b.OnlyReads code) : b.OnlyReads (b.get false :: code) :=
  List.forall_mem_cons.mpr ⟨.inl rfl, h⟩

theorem stack (hi : i.isStackOnly) (h : b.OnlyReads code) : b.OnlyReads (i :: code) :=
  List.forall_mem_cons.mpr ⟨.inr hi, h⟩

theorem append {code'} (h : b.OnlyReads code) (h' : b.OnlyReads code') : b.OnlyReads (code ++ code') :=
  List.forall_mem_append.mpr ⟨h, h'⟩

theorem callSetter (b : Binding) : b.OnlyReads (Naming.callSetter b) :=
  .stack rfl (.read (.stack rfl (.stack rfl (.stack rfl (.stack rfl (.nil b))))))

theorem testPrivate {brand} (hfield : brand = none) (h : Naming.testPrivate b brand = some code) :
    b.OnlyReads code := by
  subst hfield
  unfold Naming.testPrivate at h
  split at h
  · cases h
    exact .read (.stack rfl (.nil b))
  · cases h

theorem getPrivate {keep} (h : Naming.getPrivate b keep = some code) : b.OnlyReads code := by
  have hdup : b.OnlyReads (if keep then [.plain .dup] else []) := by
    cases keep with
    | true => exact .stack rfl (.nil b)
    | false => exact .nil b
  unfold Naming.getPrivate at h
  dsimp only at h
  split at h
  · cases h
    exact hdup.append (.read (.stack rfl (.nil b)))
  · cases h
    refine .append (.read (.stack rfl (.nil b))) ?_
    cases keep with
    | true => exact .nil b
    | false => exact .stack rfl (.nil b)
  · cases h
    exact hdup.append (.read (.stack rfl (.stack rfl (.nil b))))
  · cases h
    exact hdup.append (.read (.stack rfl (.stack rfl (.nil b))))
  · cases h

theorem memberCode (h : Naming.memberCode op b = some code) : b.OnlyReads code := by
  unfold Naming.memberCode at h
  split at h
  · exact testPrivate rfl h
  · exact getPrivate h
  · exact getPrivate h
  · split at h
    · cases h
      exact .read (.stack rfl (.nil b))
    · cases h
      exact callSetter b
    · cases h
  · cases h

theorem admits {f : Frame} {pool t} (h : b.OnlyReads code) (hslot : f.HasSlot b.slot) :
    ∀ i ∈ code, f.Admits pool t i := by
  intro i hi
  rcases h i hi with rfl | hstack
  · exact b.admits_get hslot false
  · obtain ⟨op, arg⟩ := i
    cases op with
    | pseudo => cases hstack
    | final o =>
      simp only [Instr.isStackOnly, Instr.opcode?, Option.any_some, Bool.and_eq_true, Bool.not_eq_true',
        Option.isNone_iff_eq_none] at hstack
      exact .unnamed hstack.1.1 hstack.1.2 hstack.2

end Binding.OnlyReads

/-! ### Scopes and prologues -/

namespace ScopeTree

variable {t : ScopeTree}

theorem mem_collect {go fuel next done idx} (h : idx ∈ t.collect go fuel next done) :
    idx ∈ done ∨ idx < t.vars.size := by
  induction fuel generalizing next done with
  | zero => exact .inl h
  | succ fuel ih =>
    cases next with
    | none => exact .inl h
    | some i =>
      unfold collect at h
      split at h
      · exact .inl h
      · rename_i v hv
        split at h
        · rcases ih h with hmem | hlt
          · rcases Array.mem_push.mp hmem with hmem | rfl
            · exact .inl hmem
            · exact .inr (Array.getElem?_eq_some_iff.mp hv).1
          · exact .inr hlt
        · exact .inl h

theorem lt_of_mem_scopeVars {idx} (h : idx ∈ t.scopeVars scope) : idx < t.vars.size :=
  (mem_collect (Array.mem_toList_iff.mp h)).resolve_left (Array.not_mem_empty idx)

end ScopeTree

section

variable {f : Frame} {pool : ConstantPool} {t : AtomTable}

/-- The variables and globals of the frame start with functions of the pool, and its special bindings have
variables. -/
structure Frame.Ready (f : Frame) (pool : ConstantPool) (t : AtomTable) : Prop where
  inits : ∀ i c, f.scopes.init? i = some c → pool.HasFunction c
  globals : ∀ g ∈ f.globals, t.Covers g.name ∧ ∀ c ∈ g.init, pool.HasFunction c
  specials : ∀ w i, f.specials.get? w = some i → f.HasSlot (.var i)

theorem admits_storeClosure {constant} (slot : Slot) (hfunction : pool.HasFunction constant)
    (hformat : o.format = slot.format) (hlong : o.isShort = false) (hslot : f.HasSlot slot) :
    ∀ i ∈ storeClosure o constant slot.index, f.Admits pool t i := by
  simp only [storeClosure, List.forall_mem_cons]
  exact ⟨.closure hfunction, .slot slot hformat hlong hslot, nofun⟩

theorem Frame.Ready.admits_enterScope (h : f.Ready pool t) (scope : Nat) :
    ∀ i ∈ Naming.enterScope f scope, f.Admits pool t i := by
  intro i hi
  obtain ⟨idx, hidx, hi⟩ := List.mem_flatMap.mp hi
  have hslot : f.HasSlot (.var idx) := Frame.hasSlot_var.mpr (ScopeTree.lt_of_mem_scopeVars hidx)
  split at hi
  · rename_i c hinit
    exact admits_storeClosure (.var idx) (h.inits idx c hinit) rfl rfl hslot i hi
  · split at hi
    · cases List.mem_singleton.mp hi
      exact .slot (.var idx) rfl rfl hslot
    · cases hi

theorem admits_leaveScope (scope : Nat) : ∀ i ∈ Naming.leaveScope f scope, f.Admits pool t i := by
  intro i hi
  obtain ⟨idx, hidx, hi⟩ := List.mem_filterMap.mp hi
  have hslot : f.HasSlot (.var idx) := Frame.hasSlot_var.mpr (ScopeTree.lt_of_mem_scopeVars hidx)
  split at hi
  · cases hi
    exact .slot (.var idx) rfl rfl hslot
  · cases hi

theorem Frame.Ready.admits_makeSpecials (h : f.Ready pool t) : ∀ i ∈ f.makeSpecials, f.Admits pool t i := by
  have helim : ∀ which (make : Nat → List Instr),
      (∀ idx, f.HasSlot (.var idx) → ∀ i ∈ make idx, f.Admits pool t i) →
      ∀ i ∈ (f.specials.get? which).elim [] make, f.Admits pool t i := by
    intro which make hmake
    cases hget : f.specials.get? which with
    | none => exact nofun
    | some idx => exact hmake idx (h.specials which idx hget)
  have hspecial : ∀ kind idx, f.HasSlot (.var idx) → ∀ i ∈ storeSpecial kind idx, f.Admits pool t i := by
    intro kind idx hslot
    simp only [storeSpecial, List.forall_mem_cons]
    exact ⟨.unnamed rfl rfl rfl, .slot (.var idx) rfl rfl hslot, nofun⟩
  have hthis : ∀ idx, f.HasSlot (.var idx) → ∀ i ∈ f.makeThis idx, f.Admits pool t i := by
    intro idx hslot
    unfold makeThis
    split
    · simp only [List.forall_mem_cons]
      exact ⟨.slot (.var idx) rfl rfl hslot, nofun⟩
    · simp only [List.forall_mem_cons]
      exact ⟨.unnamed rfl rfl rfl, .slot (.var idx) rfl rfl hslot, nofun⟩
  simp only [makeSpecials, List.forall_mem_append]
  exact ⟨⟨⟨⟨⟨helim .homeObject _ (hspecial _), helim .activeFunction _ (hspecial _)⟩,
    helim .newTarget _ (hspecial _)⟩, helim .this _ hthis⟩, helim .arguments _ (hspecial _)⟩,
    helim .ownName _ (hspecial _)⟩

theorem Frame.Ready.admits_prologue (h : f.Ready pool t) : ∀ i ∈ f.prologue, f.Admits pool t i := by
  refine List.forall_mem_append.mpr ⟨h.admits_makeSpecials, ?_⟩
  split
  · refine List.forall_mem_append.mpr ⟨fun i hi => ?_, fun i hi => ?_⟩
    · obtain ⟨g, hg, rfl⟩ := List.mem_map.mp hi
      exact .named rfl rfl rfl (h.globals g (Array.mem_toList_iff.mp hg)).1
    · obtain ⟨g, hg, hi⟩ := List.mem_flatMap.mp hi
      obtain ⟨hname, hinit⟩ := h.globals g (Array.mem_toList_iff.mp hg)
      unfold GlobalVar.define at hi
      split at hi
      · rename_i c hc
        rcases List.mem_cons.mp hi with rfl | hi
        · exact .closure (hinit c hc)
        · cases List.mem_singleton.mp hi
          exact .named rfl rfl rfl hname
      · cases List.mem_singleton.mp hi
        exact .named rfl rfl rfl hname
  · intro i hi
    obtain ⟨g, hg, hi⟩ := List.mem_flatMap.mp hi
    split at hi
    · rename_i c k hc hk
      have hlt := (Array.findIdx?_eq_some_iff_getElem.mp hk).1
      exact admits_storeClosure (.closure k) ((h.globals g (Array.mem_toList_iff.mp hg)).2 c hc) rfl rfl
        (Frame.hasSlot_closure.mpr hlt) i hi
    · cases hi
  · intro i hi
    obtain ⟨⟨v, idx⟩, hv, hi⟩ := List.mem_flatMap.mp hi
    have hlt : idx < f.scopes.vars.size := by simpa using (List.mem_zipIdx hv).2.1
    dsimp only at hi
    split at hi
    · rename_i c hc
      split at hi
      · exact admits_storeClosure (.var idx) (h.inits idx c hc) rfl rfl (Frame.hasSlot_var.mpr hlt) i hi
      · cases hi
    · cases hi

/-- A frame that has grown from one that was emitted. -/
theorem Frame.Grows.ready {e : Frame} (h : e.Grows f) (hmade : e.Made) (hbacked : e.Backed t pool) :
    f.Ready pool t where
  inits := fun i c hc => hbacked.inits i c ((h.inits i).symm.trans hc)
  globals := h.globals_eq ▸ hbacked.globals
  specials := by
    intro w i hi
    rcases h.newSpecial w i hi with hold | ⟨-, v, hv, -⟩
    · obtain ⟨-, v, hv, -⟩ := hmade.specials w i hold
      exact h.hasSlot (Frame.hasSlot_var.mpr (Array.getElem?_eq_some_iff.mp hv).1)
    · exact Frame.hasSlot_var.mpr (Array.getElem?_eq_some_iff.mp hv).1

end

namespace Naming

/-! ### Steps -/

variable {e : Frame} {E : List Frame} {s s' : State}

theorem State.frames_eq (h : Stack (e :: E) s.frames) : ∃ S, s.frames = s.frame :: S := by
  obtain ⟨atoms, frames⟩ := s
  cases frames with
  | nil => cases h
  | cons f S => exact ⟨S, rfl⟩

theorem State.grows_frame (h : Stack (e :: E) s.frames) : e.Grows s.frame := by
  obtain ⟨S, hS⟩ := State.frames_eq h
  rw [hS] at h
  exact h.grows

theorem State.hasSlot_frame {slot} (h : HasSlot s.frames slot) : s.frame.HasSlot slot := by
  obtain ⟨f, hf, hslot⟩ := h
  obtain ⟨atoms, frames⟩ := s
  cases frames <;> cases hf
  exact hslot

theorem Advances.grows (h : Advances (e :: E) s s') (hs : Stack (e :: E) s.frames) : s.frame.Grows s'.frame := by
  obtain ⟨S, hS⟩ := State.frames_eq hs
  obtain ⟨S', hS'⟩ := State.frames_eq h.stack
  have hgrow := h.grow
  rw [hS, hS'] at hgrow
  exact (List.forall₂_cons.mp hgrow).1

/-- What is looked up has a slot. -/
theorem hasSlot_found (hs : Stack (e :: E) s.frames) (name : Atom) (scope : Nat) :
    ∀ slot ∈ (lookup name scope s.frames).1, (s.looked name scope).frame.HasSlot slot :=
  fun slot hslot => State.hasSlot_frame (s := s.looked name scope) ((hs.lookup name scope).hasFound slot hslot)

theorem hasSlot_withs (hs : Stack (e :: E) s.frames) (name : Atom) (scope : Nat) :
    ∀ slot ∈ (lookup name scope s.frames).2.1, (s.looked name scope).frame.HasSlot slot :=
  fun slot hslot => State.hasSlot_frame (s := s.looked name scope) ((hs.lookup name scope).hasWiths slot hslot)

variable {code : List Instr} {pool : ConstantPool} {t : AtomTable}

theorem Access.admits {name label} (h : Access s op name scope label code s') (hs : Stack (e :: E) s.frames)
    (hop : op.isVariable) (hname : t.Covers name) : ∀ i ∈ code, s'.frame.Admits pool t i := by
  have hfound := hasSlot_found hs name scope
  have hwiths := hasSlot_withs hs name scope
  have hadvances := Advances.looked hs name scope
  cases h with
  | given =>
    refine admits_accessCode hop hname _ (fun b hb => ?_) (fun b hb => ?_) _
    · obtain ⟨slot, hslot, rfl⟩ := Option.map_eq_some_iff.mp hb
      rw [Frame.slot_binding]
      exact hfound slot hslot
    · obtain ⟨slot, hslot, rfl⟩ := List.mem_map.mp hb
      rw [Frame.slot_binding]
      exact hwiths slot hslot
  | labelled =>
    have hgrows := (Advances.withLabel hadvances.stack).grows hadvances.stack
    refine admits_accessCode hop hname _ (fun b hb => ?_) (fun b hb => ?_) _
    · obtain ⟨slot, hslot, rfl⟩ := Option.map_eq_some_iff.mp hb
      rw [Frame.slot_binding]
      exact hgrows.hasSlot (hfound slot hslot)
    · obtain ⟨slot, hslot, rfl⟩ := List.mem_map.mp hb
      rw [Frame.slot_binding]
      exact hgrows.hasSlot (hwiths slot hslot)

theorem PrivateAccess.admits {name} (h : PrivateAccess s name scope op code s') (hs : Stack (e :: E) s.frames) :
    ∀ i ∈ code, s'.frame.Admits pool t i := by
  have hadvances := Advances.looked hs name scope
  cases h with
  | member found code_eq =>
    refine (Binding.OnlyReads.memberCode code_eq).admits ?_
    rw [Frame.slot_binding]
    exact hasSlot_found hs _ _ _ found
  | brand found =>
    refine Binding.OnlyReads.admits (.read (.stack rfl (.nil _))) ?_
    rw [Frame.slot_binding]
    exact hasSlot_found hadvances.stack _ _ _ found
  | setter interned _ found =>
    subst interned
    refine (Binding.OnlyReads.callSetter _).admits ?_
    rw [Frame.slot_binding]
    exact hasSlot_found (Advances.interned hadvances.stack _).stack _ _ _ found

theorem Resolved.admits {σ : EmitState} (h : Resolved s i code s') (hσ : σ.Finished t)
    (hs : Stack (σ.draft.frame :: E) s.frames) (hi : Emittable σ i) :
    ∀ j ∈ code, s'.frame.Admits σ.draft.pool t j := by
  have hgrows : σ.draft.frame.Grows s.frame := State.grows_frame hs
  have hready : s.frame.Ready σ.draft.pool t := hgrows.ready hσ.made hσ.backed
  have hone : ∀ {j}, s.frame.Admits σ.draft.pool t j → ∀ j' ∈ [j], s.frame.Admits σ.draft.pool t j' := by simp
  cases h with
  | final o arg =>
    refine hone ?_
    cases hi with
    | permitted hi =>
      cases hi with
      | free isFree hasAtom known => exact .free isFree hasAtom fun a ha => hσ.covers a (known a ha)
      | @completion _ idx isLoc at_ =>
        have hslot : s.frame.HasSlot (.var (idx % 0x10000)) :=
          Frame.hasSlot_var.mpr ((Nat.mod_le _ _).trans_lt
            ((hσ.completion idx at_).trans_le hgrows.size_le))
        rcases isLoc with rfl | rfl <;> exact .slot (.var _) rfl rfl hslot
      | @arg _ idx isArg lt =>
        have hslot : s.frame.HasSlot (.arg (idx % 0x10000)) := by
          rw [Frame.hasSlot_arg, hgrows.args_eq]
          exact (Nat.mod_le _ _).trans_lt lt
        rcases isArg with rfl | rfl <;> exact .slot (.arg _) rfl rfl hslot
      | constant lt => exact .constant lt
      | closure isFunction => exact .closure isFunction
    | jump isJump l => exact .jump isJump l
  | marker isMarker =>
    refine hone ?_
    cases hi with
    | permitted hi =>
      cases hi with
      | line n => exact .line n
      | @access p _ isAccess => cases p <;> cases isAccess <;> cases isMarker
      | scope isScope => rcases isScope with rfl | rfl <;> cases isMarker
      | _ => cases isMarker
    | mark l => exact .mark l
    | _ => cases isMarker
  | enterScope scope => exact hready.admits_enterScope scope.toNat
  | leaveScope scope => exact admits_leaveScope scope.toNat
  | chainField name =>
    cases hi with
    | permitted hi =>
      cases hi with
      | chainField known => exact hone (.named rfl rfl rfl (hσ.covers _ known))
  | chainElement => exact hone (.unnamed rfl rfl rfl)
  | optionalLink exit =>
    simp only [Naming.optionalLink, List.forall_mem_cons]
    exact ⟨.unnamed rfl rfl rfl, .unnamed rfl rfl rfl, .jump rfl _, .unnamed rfl rfl rfl, .unnamed rfl rfl rfl,
      .jump rfl _, .mark _, List.forall_mem_nil _⟩
  | makeRef access =>
    cases hi with
    | permitted hi => cases hi
    | makeRef known => exact access.admits hs rfl (hσ.covers _ known)
  | ofVariable _ isVariable access =>
    cases hi with
    | permitted hi =>
      cases hi with
      | access _ known => exact access.admits hs isVariable (hσ.covers _ known)
  | ofPrivate _ access => exact access.admits hs

theorem CodeResolved.admits {σ : EmitState} {body pieces} (h : CodeResolved s body pieces s') (hσ : σ.Finished t)
    (hs : Stack (σ.draft.frame :: E) s.frames) (hbody : ∀ i ∈ body, Emittable σ i) :
    ∀ j ∈ pieces.flatten, s'.frame.Admits σ.draft.pool t j := by
  induction h with
  | nil => exact nofun
  | cons first rest ih =>
    rw [List.forall_mem_cons] at hbody
    have hstack := (first.advances hs).stack
    rw [List.flatten_cons, List.forall_mem_append]
    exact ⟨fun j hj => (first.admits hσ hs hbody.1 j hj).grows ((rest.advances hstack).grows hstack),
      ih hstack hbody.2⟩

/-- Every instruction of a resolved function is one that its frame admits. -/
theorem ResolvedFunction.admits {outer outer' f f'} (h : ResolvedFunction outer outer' f f') (hemitted : f.Emitted t) :
    ∀ i ∈ f'.code, f'.frame.Admits f.pool t i := by
  obtain ⟨σ, rfl, hσ⟩ := hemitted.finished
  obtain ⟨s, pieces, s', hs, -, hcode, hframe, -, hresult⟩ := h.run
  rw [hresult, List.forall_mem_append]
  refine ⟨(h.stack.grows.ready hσ.made hσ.backed).admits_prologue, ?_⟩
  rw [← hframe]
  exact hcode.admits hσ hs fun i hi => hσ.emittable i (Array.mem_toList_iff.mp hi)

end Naming

end ScriptBytecode
