import ScriptBytecode.Naming
import ScriptBytecode.Proofs.Result

/-!
# Steps of name resolution

What may become of an instruction when names are resolved, and what of the state. `Resolved` says so once; what
holds of resolved code is proved by cases on it.
-/

namespace ScriptBytecode

variable {line : Nat}

/-- Accesses to variables. -/
def Pseudo.isVariable : Pseudo → Bool
  | .getVar | .getThis | .getVarUndef | .putVar | .putVarInit | .deleteVar | .getRef | .makeRef => true
  | _ => false

/-- Accesses to private members. -/
def Pseudo.isPrivate : Pseudo → Bool
  | .getPrivate | .getPrivateKeep | .putPrivate | .hasPrivate => true
  | _ => false

theorem Pseudo.isVariable_or_isPrivate {o : Pseudo} (h : o.format = .atomU16) : o.isVariable ∨ o.isPrivate := by
  revert h
  cases o <;> decide

/-! ## Looking up makes no labels -/

theorem Frame.nextLabel_find (f : Frame) (name : Atom) (scope : Nat) :
    (f.find name scope).2.2.nextLabel = f.nextLabel := by
  unfold Frame.find
  dsimp only
  split
  · rfl
  · split
    · rfl
    · split
      · unfold Frame.makeSpecial
        split <;> rfl
      · rfl

theorem nextLabel_capture (name : Atom) (f : Frame) (slot : Slot) (outer : List Frame) :
    (capture name f slot outer).2.1.nextLabel = f.nextLabel ∧
      (capture name f slot outer).2.2.map Frame.nextLabel = outer.map Frame.nextLabel := by
  cases outer with
  | nil => exact ⟨rfl, rfl⟩
  | cons parent outer =>
    unfold capture Frame.addClosureVar
    dsimp only
    refine ⟨?_, ?_⟩
    · split <;> rfl
    · cases slot <;> rfl

theorem nextLabel_captureAll (name : Atom) (slots : List Slot) (f : Frame) (outer : List Frame) :
    (captureAll name slots f outer).2.1.nextLabel = f.nextLabel ∧
      (captureAll name slots f outer).2.2.map Frame.nextLabel = outer.map Frame.nextLabel := by
  induction slots generalizing f outer with
  | nil => exact ⟨rfl, rfl⟩
  | cons slot rest ih =>
    obtain ⟨hf, houter⟩ := nextLabel_capture name f slot outer
    obtain ⟨hf', houter'⟩ := ih (capture name f slot outer).2.1 (capture name f slot outer).2.2
    exact ⟨hf'.trans hf, houter'.trans houter⟩

theorem nextLabel_lookup (name : Atom) (scope : Nat) (frames : List Frame) :
    (lookup name scope frames).2.2.map Frame.nextLabel = frames.map Frame.nextLabel := by
  induction frames generalizing scope with
  | nil => rfl
  | cons f outer ih =>
    have hfind := f.nextLabel_find name scope
    unfold lookup
    split
    · rename_i f' heq
      rw [heq] at hfind
      exact congrArg (· :: _) hfind
    · rename_i withs f' heq
      rw [heq] at hfind
      have hf : f'.nextLabel = f.nextLabel := hfind
      have houter := ih f'.parentScope
      obtain ⟨hall, hall'⟩ := nextLabel_captureAll .withObject (lookup name f'.parentScope outer).2.1 f'
        (lookup name f'.parentScope outer).2.2
      dsimp only
      split
      · exact congrArg₂ List.cons (hall.trans hf) (hall'.trans houter)
      · obtain ⟨hone, hone'⟩ := nextLabel_capture name
          (captureAll .withObject (lookup name f'.parentScope outer).2.1 f'
            (lookup name f'.parentScope outer).2.2).2.1 _
          (captureAll .withObject (lookup name f'.parentScope outer).2.1 f'
            (lookup name f'.parentScope outer).2.2).2.2
        exact congrArg₂ List.cons (hone.trans (hall.trans hf)) (hone'.trans (hall'.trans houter))

variable {op : Pseudo}

namespace Naming

/-! ## States -/

namespace State

/-- The function whose code is being resolved. -/
def frame (s : State) : Frame :=
  s.frames.headD default

/-- The state after a name was looked up. -/
def looked (s : State) (name : Atom) (scope : Nat) : State :=
  { s with frames := (lookup name scope s.frames).2.2 }

/-- The state with one more label. -/
def withLabel (s : State) : State :=
  match s.frames with
  | [] => s
  | f :: outer => { s with frames := { f with nextLabel := f.nextLabel + 1 } :: outer }

/-- The state with one more atom. -/
def interned (s : State) (text : String) : State :=
  { s with atoms := (s.atoms.intern text).2 }

end State

/-! ## Labels -/

/-- The first unused labels of the functions around the code. -/
def State.labels (s : State) : List Nat :=
  s.frames.map Frame.nextLabel

theorem State.labels_looked (s : State) (name : Atom) (scope : Nat) : (s.looked name scope).labels = s.labels :=
  nextLabel_lookup name scope s.frames

theorem State.nextLabel_frame {s : State} {n outer} (h : s.labels = n :: outer) : s.frame.nextLabel = n := by
  obtain ⟨atoms, frames⟩ := s
  cases frames <;> cases h
  rfl

theorem State.labels_withLabel {s : State} {n outer} (h : s.labels = n :: outer) :
    s.withLabel.labels = (n + 1) :: outer := by
  obtain ⟨atoms, frames⟩ := s
  cases frames <;> cases h
  rfl

variable {s s' : State} {name : Atom} {scope : Nat} {code : List Instr}

theorem run_newLabel {l} (h : newLabel.run s = .ok (l, s')) : l = s.frame.nextLabel ∧ s' = s.withLabel := by
  obtain ⟨atoms, frames⟩ := s
  cases frames <;> cases h <;> exact ⟨rfl, rfl⟩

theorem run_find? {found} (h : (find? name scope).run s = .ok (found, s')) :
    found = (lookup name scope s.frames).1.map s'.frame.binding ∧ s' = s.looked name scope := by
  cases h
  exact ⟨rfl, rfl⟩

/-! ## Variables -/

/-- The code of an access. -/
def accessCode (op : Pseudo) (name : Atom) (withs : List Binding) (found : Option Binding) (strict : Bool)
    (done : Option Nat) : List Instr :=
  withs.flatMap (tryWith op name (done.getD 0)) ++ accessBinding op name strict found
    ++ done.toList.map .mark

/-- An access to a variable. Unless it is given one, it makes a label if there are objects of `with` statements. -/
inductive Access (s : State) (op : Pseudo) (name : Atom) (scope : Nat) (label : Option Nat) :
    List Instr → State → Prop
  | given (noLabel : label = none → (lookup name scope s.frames).2.1 = []) : Access s op name scope label
      (accessCode op name ((lookup name scope s.frames).2.1.map (s.looked name scope).frame.binding)
        ((lookup name scope s.frames).1.map (s.looked name scope).frame.binding)
        (s.looked name scope).frame.strict label)
      (s.looked name scope)
  | labelled (noLabel : label = none) (hasWiths : (lookup name scope s.frames).2.1 ≠ []) : Access s op name scope label
      (accessCode op name ((lookup name scope s.frames).2.1.map (s.looked name scope).withLabel.frame.binding)
        ((lookup name scope s.frames).1.map (s.looked name scope).withLabel.frame.binding)
        (s.looked name scope).withLabel.frame.strict (some (s.looked name scope).frame.nextLabel))
      (s.looked name scope).withLabel

theorem access_of_run {label} (h : (access op name scope label).run s = .ok (code, s')) :
    Access s op name scope label code s' := by
  obtain ⟨⟨found, withs⟩, s₁, hfind, h⟩ := run_bind_eq_ok.mp h
  cases hfind
  dsimp only at h
  split at h
  · rename_i hnew
    simp only [Bool.and_eq_true, Option.isNone_iff_eq_none, Bool.not_eq_true', List.isEmpty_eq_false_iff] at hnew
    obtain ⟨done, s₂, hdone, h⟩ := run_bind_eq_ok.mp h
    rw [map_eq_pure_bind] at hdone
    obtain ⟨l, s₂, hl, hdone⟩ := run_bind_eq_ok.mp hdone
    cases hdone
    cases h
    obtain ⟨rfl, rfl⟩ := run_newLabel hl
    rw [← List.flatMap_map]
    exact .labelled hnew.1 hnew.2
  · rename_i hold
    cases h
    rw [← List.flatMap_map]
    exact .given fun hnone => by simpa [hnone] using hold

/-! ## Private members -/

/-- The code of an access to a private member that needs nothing but the member. -/
def memberCode (op : Pseudo) (b : Binding) : Option (List Instr) :=
  match op with
  | .hasPrivate => testPrivate b none
  | .getPrivate => getPrivate b false
  | .getPrivateKeep => getPrivate b true
  | .putPrivate =>
    match b.kind with
    | .privateField => some [b.get false, .plain .putPrivateField]
    | .privateSetter => some (callSetter b)
    | _ => none
  | _ => none

/-- An access to a private member. Methods are tested for by their brand, and an accessor is written through its
setter. -/
inductive PrivateAccess (s : State) (name : Atom) (scope : Nat) : Pseudo → List Instr → State → Prop
  | member {op : Pseudo} {slot : Slot} {code : List Instr} (found : (lookup name scope s.frames).1 = some slot)
      (code_eq : memberCode op ((s.looked name scope).frame.binding slot) = some code) :
      PrivateAccess s name scope op code (s.looked name scope)
  | brand {slot : Slot} (found : (lookup .brand scope (s.looked name scope).frames).1 = some slot) :
      PrivateAccess s name scope .hasPrivate
        [(((s.looked name scope).looked .brand scope).frame.binding slot).get false, .plain .privateIn]
        ((s.looked name scope).looked .brand scope)
  | setter {setter : Atom} {s₁ : State} {slot : Slot}
      (interned : s₁ = (s.looked name scope).interned (setterName s.atoms name))
      (setter_eq : setter = (s.atoms.intern (setterName s.atoms name)).1)
      (found : (lookup setter scope s₁.frames).1 = some slot) :
      PrivateAccess s name scope .putPrivate (callSetter ((s₁.looked setter scope).frame.binding slot))
        (s₁.looked setter scope)

theorem PrivateAccess.labels_eq (h : PrivateAccess s name scope op code s') : s'.labels = s.labels := by
  cases h with
  | member => exact s.labels_looked name scope
  | brand => exact ((s.looked name scope).labels_looked .brand scope).trans (s.labels_looked name scope)
  | @setter setter _ _ interned =>
    subst interned
    exact (State.labels_looked _ setter scope).trans (s.labels_looked name scope)

/-- The value that a private access needs. -/
theorem run_need {α : Type} {text : String} {place : Location} {what : String → Misuse} {x : Option α} {a : α}
    (h : StateT.run (m := Except Error) (σ := State) (match x with
      | some a => pure a
      | none => throw (.invalidContext (what text) place)) s = .ok (a, s')) : x = some a ∧ s' = s := by
  cases x with
  | none => cases h
  | some b =>
    cases h
    exact ⟨rfl, rfl⟩

theorem privateAccess_of_run (hop : op.isPrivate)
    (h : (accessPrivate op name scope line).run s = .ok (code, s')) : PrivateAccess s name scope op code s' := by
  obtain ⟨s₀, s₁, hget, hrest⟩ := run_bind_eq_ok.mp h
  cases hget
  extract_lets text need at hrest
  obtain ⟨found, s₁, hfind, hneed⟩ := run_bind_eq_ok.mp hrest
  obtain ⟨b, s₂, hb, hcode⟩ := run_bind_eq_ok.mp hneed
  clear h hrest hneed
  obtain ⟨hfound, rfl⟩ := run_need hb
  obtain ⟨hfound', rfl⟩ := run_find? hfind
  obtain ⟨slot, hslot, rfl⟩ := Option.map_eq_some_iff.mp (hfound'.symm.trans hfound)
  match op, hop with
  | .getPrivate, _ =>
    obtain ⟨hprivate, rfl⟩ := run_need hcode
    exact .member hslot hprivate
  | .getPrivateKeep, _ =>
    obtain ⟨hprivate, rfl⟩ := run_need hcode
    exact .member hslot hprivate
  | .hasPrivate, _ =>
    dsimp only at hcode
    split at hcode
    · obtain ⟨hprivate, rfl⟩ := run_need hcode
      exact .member hslot hprivate
    · rename_i hfield
      obtain ⟨brand, s₃, hbrand, hcode⟩ := run_bind_eq_ok.mp hcode
      obtain ⟨hprivate, rfl⟩ := run_need hcode
      obtain ⟨rfl, rfl⟩ := run_find? hbrand
      rw [testPrivate, if_neg hfield, Option.map_map] at hprivate
      obtain ⟨brand, hbrand, rfl⟩ := Option.map_eq_some_iff.mp hprivate
      exact .brand hbrand
  | .putPrivate, _ =>
    dsimp only at hcode
    split at hcode
    · rename_i hkind
      cases hcode
      exact .member hslot (by simp only [memberCode, hkind])
    · rename_i hkind
      cases hcode
      exact .member hslot (by simp only [memberCode, hkind])
    · obtain ⟨setterAtom, s₃, hintern, hfound⟩ := run_bind_eq_ok.mp hcode
      obtain ⟨found, s₄, hfind', hneed⟩ := run_bind_eq_ok.mp hfound
      obtain ⟨setter, s₅, hsetter, hcall⟩ := run_bind_eq_ok.mp hneed
      obtain ⟨hsome, rfl⟩ := run_need hsetter
      cases hintern
      cases hcall
      obtain ⟨hsome', rfl⟩ := run_find? hfind'
      obtain ⟨slot, hslot, rfl⟩ := Option.map_eq_some_iff.mp (hsome'.symm.trans hsome)
      exact .setter rfl rfl hslot
    · cases hcode

/-! ## Instructions -/

/-- What may become of an instruction. -/
inductive Resolved (s : State) : Instr → List Instr → State → Prop
  | final (o : Opcode) (arg : Operand) : Resolved s (.of o arg) [.of o arg] s
  | marker {i : Instr} (isMarker : i.isMarker = true) : Resolved s i [i] s
  | enterScope (scope : Int) :
      Resolved s ⟨.pseudo .enterScope, .int scope⟩ (enterScope s.frame scope.toNat) s
  | leaveScope (scope : Int) :
      Resolved s ⟨.pseudo .leaveScope, .int scope⟩ (leaveScope s.frame scope.toNat) s
  | chainField (name : Atom) : Resolved s ⟨.pseudo .chainField, .atom name⟩ [.of .getField (.atom name)] s
  | chainElement (arg : Operand) : Resolved s ⟨.pseudo .chainElement, arg⟩ [.plain .getArrayEl] s
  | optionalLink (exit : Nat) : Resolved s ⟨.pseudo .optionalLink, .label exit⟩
      (optionalLink s.frame.nextLabel exit) s.withLabel
  | makeRef {name : Atom} {label scope : Nat} {code : List Instr} {s' : State}
      (access : Access s .makeRef name scope (some label) code s') :
      Resolved s ⟨.pseudo .makeRef, .atomLabel name label scope⟩ code s'
  | ofVariable {op : Pseudo} {name : Atom} {scope : Nat} {code : List Instr} {s' : State}
      (format : op.format = .atomU16) (isVariable : op.isVariable = true)
      (access : Access s op name scope none code s') : Resolved s ⟨.pseudo op, .atomInt name scope⟩ code s'
  | ofPrivate {op : Pseudo} {name : Atom} {scope : Nat} {code : List Instr} {s' : State}
      (isPrivate : op.isPrivate = true) (access : PrivateAccess s name scope op code s') :
      Resolved s ⟨.pseudo op, .atomInt name scope⟩ code s'

/-- Placeholders for accesses to names have their format. -/
def Named (i : Instr) : Prop :=
  ∀ op name scope, i = ⟨.pseudo op, .atomInt name scope⟩ → op.format = .atomU16

theorem resolved_of_run {i} (hi : Named i) (h : (resolve line i).run s = .ok (code, s')) : Resolved s i code s' := by
  obtain ⟨op, arg⟩ := i
  unfold resolve at h
  dsimp only at h
  split at h
  · cases h
    exact .final _ _
  · cases h
    exact .marker rfl
  · cases h
    exact .marker rfl
  · cases h
    exact .enterScope _
  · cases h
    exact .leaveScope _
  · exact .makeRef (access_of_run h)
  · cases h
    exact .chainField _
  · cases h
    exact .chainElement _
  · obtain ⟨present, s₁, hpresent, hcode⟩ := run_bind_eq_ok.mp h
    cases hcode
    obtain ⟨rfl, rfl⟩ := run_newLabel hpresent
    exact .optionalLink _
  · rename_i op name scope _ _ _
    have hformat : op.format = .atomU16 := hi op name scope rfl
    rcases Pseudo.isVariable_or_isPrivate hformat with hop | hop
    · have haccess : (access op name scope none).run s = .ok (code, s') := by
        cases op <;> first | exact h | cases hop
      exact .ofVariable hformat hop (access_of_run haccess)
    · have haccess : (accessPrivate op name scope line).run s = .ok (code, s') := by
        cases op <;> first | exact h | cases hop
      exact .ofPrivate hop (privateAccess_of_run hop haccess)
  · cases h

/-- What becomes of some code, one piece for every instruction. -/
inductive CodeResolved : State → List Instr → List (List Instr) → State → Prop
  | nil (s : State) : CodeResolved s [] [] s
  | cons {s s₁ s' : State} {i : Instr} {code piece : List Instr} {pieces : List (List Instr)}
      (first : Resolved s i piece s₁) (rest : CodeResolved s₁ code pieces s') :
      CodeResolved s (i :: code) (piece :: pieces) s'

theorem codeResolved_of_run {done result body} (hbody : ∀ i ∈ body, Named i)
    (h : (resolveCode line done body).run s = .ok (result, s')) :
    ∃ pieces, result.toList = done.toList ++ pieces.flatten ∧ CodeResolved s body pieces s' := by
  induction body generalizing line done s with
  | nil =>
    cases h
    exact ⟨[], by simp, .nil _⟩
  | cons i rest ih =>
    rw [List.forall_mem_cons] at hbody
    obtain ⟨piece, s₁, hpiece, hrest⟩ := run_bind_eq_ok.mp h
    obtain ⟨pieces, hresult, hpieces⟩ := ih hbody.2 hrest
    exact ⟨piece :: pieces, by simp [hresult], .cons (resolved_of_run hbody.1 hpiece) hpieces⟩

end Naming

end ScriptBytecode
