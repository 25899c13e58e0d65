import ScriptBytecode.Proofs.Assembly
import ScriptBytecode.StackSize

/-!
# Stack depths along code

Code flows if the labels can be given depths such that control comes to each instruction at one depth only.
Where control does not come to, there is no depth, and a label that it does not come to needs none.
-/

namespace ScriptBytecode

open Layout (marked?)

variable {i : Instr} {cur cur' : Option Nat} {l n : Nat} {code : List Instr} {L' : Nat → Option Nat}

/-- Does the operand count values on the stack? -/
def Format.takesCount : Format → Bool
  | .count | .countU16 | .impliedCount => true
  | _ => false

namespace Instr

/-- Does control never pass on to the next instruction? -/
def isExit (i : Instr) : Bool :=
  i.opcode?.any Opcode.isTerminator

/-- The label at the end of an instruction: its own of a marker, and of a placeholder the label that its code
ends with. -/
def endLabel? (i : Instr) : Option Nat :=
  match i.op with
  | .pseudo .label | .pseudo .makeRef => i.arg.label?
  | _ => none

/-- The depth behind an instruction that is reached at depth `d`. -/
def depthBehind (i : Instr) (d : Nat) : Nat :=
  d - i.stackEffect.1 + i.stackEffect.2

/-- The depth at the label that an instruction may jump to. -/
def depthAtTarget (i : Instr) (d : Nat) : Nat :=
  match i.opcode? with
  | some op => StackSize.atTarget op (i.depthBehind d)
  | none => i.depthBehind d

end Instr

namespace Flow

/-- The depth behind an instruction. An operand that counts arguments tells nothing about a stack that is
deeper than it can count. -/
def pass (L : Nat → Option Nat) (i : Instr) (cur : Option Nat) : Option Nat :=
  match i.endLabel? with
  | some l => L l
  | none => cur.bind fun d =>
    if i.isExit || (i.op.format.takesCount && StackSize.limit < d) then none
    else some (i.depthBehind d)

/-- There are as many values as an instruction takes, and the label that it marks or jumps to has the
depth that it is reached at. -/
def Allows (L : Nat → Option Nat) (i : Instr) (cur : Option Nat) : Prop :=
  match marked? i with
  | some l => ∀ d, cur = some d → L l = some d
  | none => ∀ d, cur = some d → i.stackEffect.1 ≤ d ∧ ∀ l, i.target? = some l → L l = some (i.depthAtTarget d)

/-- The depth behind some code. -/
def through (L : Nat → Option Nat) (code : List Instr) (cur : Option Nat) : Option Nat :=
  code.foldl (fun cur i => pass L i cur) cur

/-- Control that comes to the code at depth `cur` finds the depth that it needs all the way. -/
def Flows (L : Nat → Option Nat) : Option Nat → List Instr → Prop
  | _, [] => True
  | cur, i :: rest => Allows L i cur ∧ Flows L (pass L i cur) rest

variable {L : Nat → Option Nat}

/-- The first depth is the second one, unless there is none. -/
def Under (cur cur' : Option Nat) : Prop :=
  ∀ d, cur = some d → cur' = some d

theorem Under.refl (cur : Option Nat) : Under cur cur :=
  fun _ h => h

theorem Under.trans {a b c} (h : Under a b) (h' : Under b c) : Under a c :=
  fun d hd => h' d (h d hd)

theorem under_none (cur : Option Nat) : Under none cur :=
  nofun

@[simp] theorem through_nil (cur : Option Nat) : through L [] cur = cur := rfl

@[simp] theorem through_cons (i : Instr) (rest : List Instr) (cur : Option Nat) :
    through L (i :: rest) cur = through L rest (pass L i cur) := rfl

theorem through_append (a b : List Instr) (cur : Option Nat) :
    through L (a ++ b) cur = through L b (through L a cur) :=
  List.foldl_append

theorem endLabel?_of_marked? (h : marked? i = some l) : i.endLabel? = some l := by
  obtain ⟨op, arg⟩ := i
  unfold marked? at h
  split at h
  · rename_i hmark
    obtain rfl : op = .pseudo .label := by simpa [Instr.isMark] using hmark
    exact h
  · cases h

theorem marked?_of_endLabel? (h : i.endLabel? = none) : marked? i = none := by
  cases hm : marked? i with
  | none => rfl
  | some l =>
    rw [endLabel?_of_marked? hm] at h
    cases h

theorem pass_end (h : i.endLabel? = some l) (cur : Option Nat) : pass L i cur = L l := by
  rw [pass, h]

theorem pass_none (h : i.endLabel? = none) : pass L i none = none := by
  rw [pass, h]
  rfl

theorem pass_some (h : i.endLabel? = none) (d : Nat) :
    pass L i (some d) =
      if i.isExit || (i.op.format.takesCount && StackSize.limit < d) then none
      else some (i.depthBehind d) := by
  rw [pass, h]
  rfl

theorem pass_exit (hend : i.endLabel? = none) (hexit : i.isExit) (cur : Option Nat) : pass L i cur = none := by
  cases cur with
  | none => exact pass_none hend
  | some d => rw [pass_some hend, hexit, Bool.true_or, if_pos rfl]

theorem allows_mark (h : marked? i = some l) (cur : Option Nat) :
    Allows L i cur ↔ ∀ d, cur = some d → L l = some d := by
  rw [Allows, h]

theorem allows_none (i : Instr) : Allows L i none := by
  unfold Allows
  split
  · exact nofun
  · exact nofun

theorem allows_some (h : marked? i = none) (d : Nat) :
    Allows L i (some d) ↔ i.stackEffect.1 ≤ d ∧ ∀ l, i.target? = some l → L l = some (i.depthAtTarget d) := by
  rw [Allows, h]
  simp only [Option.some.injEq, forall_eq']

/-! ## Less is known where control does not come to -/

theorem Under.pass (h : Under cur cur') (i : Instr) : Under (pass L i cur) (pass L i cur') := by
  cases hm : i.endLabel? with
  | some l => simp only [pass_end hm, Under.refl]
  | none =>
    cases cur with
    | none =>
      rw [pass_none hm]
      exact under_none _
    | some d =>
      rw [h d rfl]
      exact Under.refl _

theorem Under.allows (h : Under cur cur') (hi : Allows L i cur') : Allows L i cur := by
  cases cur with
  | some d => rwa [h d rfl] at hi
  | none => exact allows_none i

theorem Under.flows (h : Under cur cur') (hcode : Flows L cur' code) : Flows L cur code := by
  induction code generalizing cur cur' with
  | nil => exact trivial
  | cons i rest ih => exact ⟨h.allows hcode.1, ih (h.pass i) hcode.2⟩

theorem Under.through (h : Under cur cur') : Under (through L code cur) (through L code cur') := by
  induction code generalizing cur cur' with
  | nil => exact h
  | cons i rest ih => exact ih (h.pass i)

/-- Control does not come to code behind labels that it does not come to. -/
theorem flows_none (h : ∀ i ∈ code, ∀ l, i.endLabel? = some l → L l = none) :
    Flows L none code ∧ Flow.through L code none = none := by
  induction code with
  | nil => exact ⟨trivial, rfl⟩
  | cons i rest ih =>
    rw [List.forall_mem_cons] at h
    have hpass : Flow.pass L i none = none := by
      cases hend : i.endLabel? with
      | none => exact pass_none hend
      | some l => rw [pass_end hend, h.1 l hend]
    rw [through_cons, Flows, hpass]
    exact ⟨⟨allows_none i, (ih h.2).1⟩, (ih h.2).2⟩

/-! ## Putting code together -/

theorem flows_append {a b} : Flows L cur (a ++ b) ↔ Flows L cur a ∧ Flows L (through L a cur) b := by
  induction a generalizing cur with
  | nil => simp [Flows]
  | cons i rest ih =>
    rw [List.cons_append, Flows, Flows, ih]
    exact and_assoc.symm

/-! ## Labels that code does not mention -/

/-- All labels of an instruction are below `n`. -/
def Below (n : Nat) (i : Instr) : Prop :=
  ∀ l, i.target? = some l → l < n

theorem Below.mono {m} (h : Below m i) (hle : m ≤ n) : Below n i :=
  fun l hl => (h l hl).trans_le hle

theorem target?_of_endLabel? (h : i.endLabel? = some l) : i.target? = some l := by
  obtain ⟨op, arg⟩ := i
  unfold Instr.endLabel? at h
  dsimp only at h
  split at h
  · exact h
  · exact h
  · cases h

theorem target?_of_marked? (h : marked? i = some l) : i.target? = some l :=
  target?_of_endLabel? (endLabel?_of_marked? h)

variable (h : ∀ l < n, L l = L' l)
include h

theorem pass_congr (hi : Below n i) (cur : Option Nat) : pass L i cur = pass L' i cur := by
  cases hm : i.endLabel? with
  | some l => rw [pass_end hm, pass_end hm, h l (hi l (target?_of_endLabel? hm))]
  | none => rw [pass, pass, hm]

theorem Allows.congr (hi : Below n i) (hallows : Allows L i cur) : Allows L' i cur := by
  cases hm : marked? i with
  | some l =>
    rw [allows_mark hm] at hallows ⊢
    rwa [← h l (hi l (target?_of_marked? hm))]
  | none =>
    cases cur with
    | none => exact allows_none i
    | some d =>
      rw [allows_some hm] at hallows ⊢
      refine ⟨hallows.1, fun l hl => ?_⟩
      rw [← h l (hi l hl)]
      exact hallows.2 l hl

theorem Flows.congr (hcode : ∀ i ∈ code, Below n i) (hflows : Flows L cur code) : Flows L' cur code := by
  induction code generalizing cur with
  | nil => exact trivial
  | cons i rest ih =>
    rw [List.forall_mem_cons] at hcode
    refine ⟨hflows.1.congr h hcode.1, ih hcode.2 ?_⟩
    rw [← pass_congr h hcode.1]
    exact hflows.2

theorem through_congr (hcode : ∀ i ∈ code, Below n i) (cur : Option Nat) :
    through L code cur = through L' code cur := by
  induction code generalizing cur with
  | nil => rfl
  | cons i rest ih =>
    rw [List.forall_mem_cons] at hcode
    rw [through_cons, through_cons, pass_congr h hcode.1, ih hcode.2]

end Flow

end ScriptBytecode
