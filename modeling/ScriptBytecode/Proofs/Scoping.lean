import ScriptBytecode.Proofs.Naming.Code

/-!
# Lexical scoping

Name resolution changes the frames as it goes on: it makes special bindings and closure variables when they are first
needed. What it resolves a name to is nevertheless what plain search finds in the frames as they were emitted. The
closure variables on the way to a binding lead there, and are used as the binding is.
-/

namespace ScriptBytecode

variable {op : Pseudo}

/-! ## Following closure variables -/

/-- From a slot of the innermost function, closure variables lead through `depth` functions to a slot that is used as
`τ` says, and each of them is used so. -/
inductive Follows : List Frame → Slot → Nat → Slot → Traits → Prop
  | here {f : Frame} {outer : List Frame} {slot : Slot} {τ : Traits} (traits : f.traits? slot = some τ) :
      Follows (f :: outer) slot 0 slot τ
  | outside {f : Frame} {outer : List Frame} {k depth : Nat} {c : ClosureVar} {slot target : Slot} {τ : Traits}
      (closureVar : f.closureVars[k]? = some c) (isLocal : c.isLocal = slot.isLocal) (isArg : c.isArg = slot.isArg)
      (varIdx : c.varIdx = slot.index) (traits : c.traits = τ) (next : Follows outer slot depth target τ) :
      Follows (f :: outer) (.closure k) (depth + 1) target τ

/-- What a name is resolved to: the slot from which closure variables lead to the binding that plain search finds, or
nothing if the name is global. The functions were emitted as `E` and are `S` now. -/
def Denotes (E S : List Frame) (name : Atom) (scope : Nat) (found : Option Slot) : Prop :=
  match plainSearch name scope E with
  | none => found = none
  | some (depth, place) => ∃ slot g target τ, found = some slot ∧ S[depth]? = some g ∧
      g.slot? place = some target ∧ Follows S slot depth target τ

theorem Slot.ext_of_index {a b : Slot} (hlocal : a.isLocal = b.isLocal) (harg : a.isArg = b.isArg)
    (hindex : a.index = b.index) : a = b := by
  cases a <;> cases b <;> simp_all [Slot.isLocal, Slot.isArg, Slot.index]

variable {slot : Slot} {f : Frame}

theorem Frame.index_lt (h : f.checkLimits = .ok ()) (hslot : f.HasSlot slot) : slot.index < 0x10000 := by
  have hsizes : f.scopes.args.size ≤ 0xffff ∧ f.scopes.vars.size ≤ 0xffff ∧ f.closureVars.size ≤ 0xffff := by
    unfold checkLimits at h
    dsimp only at h
    split at h
    · cases h
    · split at h
      · cases h
      · split at h
        · cases h
        · omega
  cases slot with
  | var idx =>
    rw [Frame.hasSlot_var] at hslot
    show idx < _
    omega
  | arg idx =>
    rw [Frame.hasSlot_arg] at hslot
    show idx < _
    omega
  | closure idx =>
    rw [Frame.hasSlot_closure] at hslot
    show idx < _
    omega

variable {S : List Frame}

theorem Finds.hasSlot {p} (h : Finds S slot p) : HasSlot S slot := by
  cases h with
  | here has => exact ⟨_, rfl, has⟩
  | outside closureVar => exact ⟨_, rfl, Frame.hasSlot_closure.mpr (Array.getElem?_eq_some_iff.mp closureVar).1⟩

theorem Follows.traits_head {outer target depth τ} (h : Follows (f :: outer) slot depth target τ) :
    f.traits? slot = some τ := by
  cases h with
  | here traits => exact traits
  | outside closureVar _ _ _ traits => exact Option.map_eq_some_iff.mpr ⟨_, closureVar, traits⟩

/-- Where all slots fit sixteen bits, closure variables lead to the slot they are for. -/
theorem Finds.reaches {E p} (h : Finds S slot p) (hS : Stack E S) (hlimits : ∀ f ∈ S, f.checkLimits = .ok ()) :
    ∃ g target τ, S[p.1]? = some g ∧ g.slot? p.2 = some target ∧ Follows S slot p.1 target τ := by
  induction h generalizing E with
  | here has slot_eq =>
    obtain ⟨τ, hτ⟩ := Option.isSome_iff_exists.mp has
    exact ⟨_, _, τ, rfl, slot_eq, .here hτ⟩
  | @outside f outer k depth c slot place closureVar refers next ih =>
    rw [List.forall_mem_cons] at hlimits
    obtain ⟨g, hg, hhas⟩ := next.hasSlot
    cases outer with
    | nil => cases hg
    | cons g outer =>
      cases hg
      cases hS with
      | nested _ _ _ captured houter =>
        obtain ⟨g', target, τ, hg', htarget, hreaches⟩ := ih houter hlimits.2
        obtain ⟨slot', hrefers', ⟨_, hhead, htraits⟩, -⟩ := captured c (Array.mem_of_getElem? closureVar)
        cases hhead
        have hlimit := hlimits.2 g List.mem_cons_self
        have hindex := Frame.index_lt hlimit hhas
        have hindex' := Frame.index_lt hlimit (Option.isSome_iff_exists.mpr ⟨_, htraits⟩)
        have hidx := refers.varIdx
        have hidx' := hrefers'.varIdx
        obtain rfl : slot' = slot := by
          refine Slot.ext_of_index (hrefers'.isLocal.symm.trans refers.isLocal)
            (hrefers'.isArg.symm.trans refers.isArg) ?_
          omega
        have hτ : c.traits = τ := Option.some.inj (htraits.symm.trans hreaches.traits_head)
        exact ⟨g', target, τ, hg', htarget,
          .outside closureVar refers.isLocal refers.isArg (by omega) hτ hreaches⟩

theorem Stack.Looked.denotes {E S₀ name scope r} (h : Looked E S₀ name scope r) (hwith : underWith scope E = false)
    (hgrow : Grow r.2.2 S) (hS : Stack E S) (hlimits : ∀ f ∈ S, f.checkLimits = .ok ()) :
    Denotes E S name scope r.1 := by
  unfold Denotes
  split
  · rename_i hsearch
    exact h.global (.inr hwith) hsearch
  · rename_i depth place hsearch
    obtain ⟨slot, hslot, hfinds⟩ := h.finds (.inr hwith) _ hsearch
    obtain ⟨g, target, τ, hg, htarget, hreaches⟩ := (hfinds.grow hgrow).reaches hS hlimits
    exact ⟨slot, g, target, τ, hslot, hg, htarget, hreaches⟩

/-! ## Accesses -/

/-- Bindings stay as they are. -/
theorem Frame.Grows.binding_eq {g} (h : f.Grows g) (hslot : f.HasSlot slot) : g.binding slot = f.binding slot := by
  cases slot with
  | var idx =>
    have hv := Array.getElem?_eq_getElem (Frame.hasSlot_var.mp hslot)
    obtain ⟨_, hv'⟩ := h.var idx _ hv
    rw [Frame.binding, Frame.binding, ScopeTree.var?, ScopeTree.var?, hv, hv']
    rfl
  | arg => rfl
  | closure idx =>
    have hc := Array.getElem?_eq_getElem (Frame.hasSlot_closure.mp hslot)
    rw [Frame.binding, Frame.binding, hc, h.closureVar idx _ hc]

theorem Frame.Grows.strict_eq {g} (h : f.Grows g) : g.strict = f.strict := by rw [h.header]

namespace Naming

/-- The code in place of an access to a name that no object of a `with` statement may hide. A private access reads the
member, the brand of its class or its setter, and has to do with the stack otherwise. -/
structure LowersPlainly (E : List Frame) (f : Frame) (outer : List Frame) (i : Instr) (code : List Instr) : Prop where
  access : ∀ op name scope, i = ⟨.pseudo op, .atomInt name scope⟩ → op.isVariable = true →
    underWith scope E = false → ∃ found, Denotes E (f :: outer) name scope found ∧
      code = accessBinding op name f.strict (found.map f.binding)
  makeRef : ∀ name label scope, i = ⟨.pseudo .makeRef, .atomLabel name label scope⟩ →
    underWith scope E = false → ∃ found, Denotes E (f :: outer) name scope found ∧
      code = accessBinding .makeRef name f.strict (found.map f.binding) ++ [.mark label]
  privateAccess : ∀ op name scope, i = ⟨.pseudo op, .atomInt name scope⟩ → op.isPrivate = true →
    underWith scope E = false → ∃ read slot, (read = name ∨ op = .hasPrivate ∧ read = .brand ∨
        op = .putPrivate ∧ ∃ atoms : AtomTable, read = (atoms.intern (setterName atoms name)).1) ∧
      Denotes E (f :: outer) read scope (some slot) ∧ (f.binding slot).get false ∈ code ∧
      (f.binding slot).OnlyReads code

section

variable {e f : Frame} {E outer : List Frame} {s s' : State} {code : List Instr} {name : Atom} {scope : Nat}

theorem State.grows_of_grow (hs : Stack (e :: E) s.frames) (h : Grow s.frames (f :: outer)) : s.frame.Grows f := by
  obtain ⟨S, hS⟩ := State.frames_eq hs
  rw [hS] at h
  exact (List.forall₂_cons.mp h).1

theorem Access.lowers {label} (h : Access s op name scope label code s') (hs : Stack (e :: E) s.frames)
    (hwith : underWith scope (e :: E) = false) (hgrow : Grow s'.frames (f :: outer)) (hf : Stack (e :: E) (f :: outer))
    (hlimits : ∀ g ∈ f :: outer, g.checkLimits = .ok ()) :
    ∃ found, Denotes (e :: E) (f :: outer) name scope found ∧
      code = accessBinding op name f.strict (found.map f.binding) ++ label.toList.map .mark := by
  have hlooked := hs.lookup name scope
  have hnoWiths := hlooked.noWiths hwith
  cases h with
  | given =>
    refine ⟨_, hlooked.denotes hwith hgrow hf hlimits, ?_⟩
    have hgrows : (s.looked name scope).frame.Grows f := State.grows_of_grow hlooked.stack hgrow
    have hbinding : (lookup name scope s.frames).1.map (s.looked name scope).frame.binding =
        (lookup name scope s.frames).1.map f.binding := by
      refine Option.map_congr fun slot hslot => ?_
      exact (hgrows.binding_eq (hasSlot_found hs name scope slot hslot)).symm
    rw [accessCode, hnoWiths, hbinding, hgrows.strict_eq]
    rfl
  | labelled _ hasWiths => exact absurd hnoWiths hasWiths

/-- The member that a private access reads. -/
theorem denotes_read (hs : Stack (e :: E) s.frames) (hwith : underWith scope (e :: E) = false)
    (hgrow : Grow (s.looked name scope).frames (f :: outer)) (hf : Stack (e :: E) (f :: outer))
    (hlimits : ∀ g ∈ f :: outer, g.checkLimits = .ok ()) (hslot : (lookup name scope s.frames).1 = some slot) :
    Denotes (e :: E) (f :: outer) name scope (some slot) ∧
      f.binding slot = (s.looked name scope).frame.binding slot := by
  have hlooked := hs.lookup name scope
  have hgrows : (s.looked name scope).frame.Grows f := State.grows_of_grow hlooked.stack hgrow
  exact ⟨hslot ▸ hlooked.denotes hwith hgrow hf hlimits,
    hgrows.binding_eq (hasSlot_found hs name scope slot hslot)⟩

theorem get_mem_memberCode {b} (h : memberCode op b = some code) : b.get false ∈ code := by
  have hprivate : ∀ {keep}, getPrivate b keep = some code → b.get false ∈ code := by
    intro keep h
    unfold getPrivate at h
    dsimp only at h
    split at h
    all_goals
      cases h
    all_goals simp
  unfold memberCode at h
  split at h
  · unfold testPrivate at h
    split at h
    · cases h
      exact List.mem_cons_self
    · cases h
  · exact hprivate h
  · exact hprivate h
  · split at h
    · cases h
      exact List.mem_cons_self
    · cases h
      simp [callSetter]
    · cases h
  · cases h

theorem PrivateAccess.lowers (h : PrivateAccess s name scope op code s') (hs : Stack (e :: E) s.frames)
    (hwith : underWith scope (e :: E) = false) (hgrow : Grow s'.frames (f :: outer))
    (hf : Stack (e :: E) (f :: outer)) (hlimits : ∀ g ∈ f :: outer, g.checkLimits = .ok ()) :
    ∃ read slot, (read = name ∨ op = .hasPrivate ∧ read = .brand ∨
        op = .putPrivate ∧ ∃ atoms : AtomTable, read = (atoms.intern (setterName atoms name)).1) ∧
      Denotes (e :: E) (f :: outer) read scope (some slot) ∧ (f.binding slot).get false ∈ code ∧
      (f.binding slot).OnlyReads code := by
  have hadvances := Advances.looked hs name scope
  cases h with
  | @member _ slot _ found code_eq =>
    obtain ⟨hdenotes, hbinding⟩ := denotes_read hs hwith hgrow hf hlimits found
    rw [← hbinding] at code_eq
    exact ⟨name, slot, .inl rfl, hdenotes, get_mem_memberCode code_eq, .memberCode code_eq⟩
  | @brand slot found =>
    obtain ⟨hdenotes, hbinding⟩ := denotes_read hadvances.stack hwith hgrow hf hlimits found
    rw [← hbinding]
    exact ⟨.brand, slot, .inr (.inl ⟨rfl, rfl⟩), hdenotes, List.mem_cons_self, .read (.stack rfl (.nil _))⟩
  | @setter setter _ slot interned setter_eq found =>
    subst interned
    obtain ⟨hdenotes, hbinding⟩ :=
      denotes_read (Advances.interned hadvances.stack _).stack hwith hgrow hf hlimits found
    rw [← hbinding]
    exact ⟨setter, slot, .inr (.inr ⟨rfl, s.atoms, setter_eq⟩), hdenotes, by simp [callSetter], .callSetter _⟩

/-- A step: the code of one instruction. -/
theorem Resolved.lowers {i} (h : Resolved s i code s') (hs : Stack (e :: E) s.frames)
    (hgrow : Grow s'.frames (f :: outer)) (hf : Stack (e :: E) (f :: outer))
    (hlimits : ∀ g ∈ f :: outer, g.checkLimits = .ok ()) : LowersPlainly (e :: E) f outer i code where
  access := by
    rintro op name scope rfl hop hwith
    cases h with
    | marker isMarker => cases op <;> cases hop <;> cases isMarker
    | ofVariable _ _ access =>
      obtain ⟨found, hdenotes, rfl⟩ := access.lowers hs hwith hgrow hf hlimits
      exact ⟨found, hdenotes, List.append_nil _⟩
    | ofPrivate isPrivate => cases op <;> cases hop <;> cases isPrivate
    | chainElement => cases hop
  makeRef := by
    rintro name label scope rfl hwith
    cases h with
    | marker isMarker => cases isMarker
    | makeRef access => exact access.lowers hs hwith hgrow hf hlimits
  privateAccess := by
    rintro op name scope rfl hop hwith
    cases h with
    | marker isMarker => cases op <;> cases hop <;> cases isMarker
    | ofVariable _ isVariable => cases op <;> cases hop <;> cases isVariable
    | ofPrivate _ access => exact access.lowers hs hwith hgrow hf hlimits
    | chainElement => cases hop

theorem CodeResolved.lowers {body pieces} (h : CodeResolved s body pieces s') (hs : Stack (e :: E) s.frames)
    (hgrow : Grow s'.frames (f :: outer)) (hf : Stack (e :: E) (f :: outer))
    (hlimits : ∀ g ∈ f :: outer, g.checkLimits = .ok ()) :
    List.Forall₂ (LowersPlainly (e :: E) f outer) body pieces := by
  induction h with
  | nil => exact .nil
  | cons first rest ih =>
    have hstack := (first.advances hs).stack
    exact .cons (first.lowers hs ((rest.advances hstack).grow.trans hgrow) hf hlimits) (ih hstack hgrow)

end

end Naming

end ScriptBytecode
