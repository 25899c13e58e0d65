import Mathlib.Logic.Function.Basic
import ScriptBytecode.Naming.Lookup
import ScriptBytecode.Proofs.Execution.Replacement

/-!
# A stack machine

A machine with a stack and slots for local variables, arguments and closure variables. Stack and slot instructions,
tests, branches and returns have their usual meaning, and some instructions mean what they stand for (`Instr.expand`).
All other instructions transform the values that they take, the slots and the world in any fixed way
(`Interpretation`).
-/

namespace ScriptBytecode

namespace Execution

/-- What instructions work on. The top of the stack comes first. -/
structure Data (υ ω : Type) where
  stack : List υ
  slots : Slot → υ
  world : ω

/-- The ways to leave code. -/
inductive Ending (υ ω : Type) where
  | returned (v : υ) (slots : Slot → υ) (world : ω)
  | threw (v : υ) (slots : Slot → υ) (world : ω)
  /-- A value was needed from an empty stack. -/
  | underflow

/-- What an instruction answers to the values that it takes: the values that it puts in their place, or one that it
throws, with its effects and the slots and the world behind it. -/
structure Reply (υ ω ε : Type) where
  effects : List ε
  result : Except υ (List υ)
  slots : Slot → υ
  world : ω

/-- Data behind an instruction, or the way in which it left the code, with its effects. -/
abbrev Act (υ ω ε : Type) := List ε × Except (Ending υ ω) (Data υ ω)

variable {υ ω ε : Type}

namespace Data

def push (d : Data υ ω) (v : υ) : Act υ ω ε :=
  ([], .ok { d with stack := v :: d.stack })

/-- Takes a value. -/
def take {β : Type} (d : Data υ ω) (f : υ → Data υ ω → List ε × Except (Ending υ ω) β) :
    List ε × Except (Ending υ ω) β :=
  match d.stack with
  | [] => ([], .error .underflow)
  | v :: rest => f v { d with stack := rest }

/-- Takes some values. -/
def takes {β : Type} (d : Data υ ω) (n : Nat) (f : List υ → Data υ ω → List ε × Except (Ending υ ω) β) :
    List ε × Except (Ending υ ω) β :=
  if n ≤ d.stack.length then f (d.stack.take n) { d with stack := d.stack.drop n } else ([], .error .underflow)

def store (d : Data υ ω) (x : Slot) (v : υ) : Data υ ω :=
  { d with slots := Function.update d.slots x v }

/-- Data behind a reply. -/
def behind (d : Data υ ω) (r : Reply υ ω ε) : Act υ ω ε :=
  (r.effects, match r.result with
    | .ok values => .ok ⟨values ++ d.stack, r.slots, r.world⟩
    | .error v => .error (.threw v r.slots r.world))

end Data

/-- What is left open of the stack machine. -/
structure Interpretation (υ ω ε : Type) where
  undefined : υ
  null : υ
  bool : Bool → υ
  text : Atom → υ
  /-- Numbers, constants and closures. -/
  constant : Instr → (Slot → υ) → ω → υ
  truthy : υ → Bool
  truthy_bool : ∀ b, truthy (bool b) = b
  typeName : υ → Atom
  strictEq : υ → υ → Bool
  looseEq : υ → υ → (Slot → υ) → ω → Reply υ ω ε
  /-- Texts are compared as they are. -/
  looseEq_text : ∀ a b slots world,
    looseEq (text a) (text b) slots world = ⟨[], .ok [bool (strictEq (text a) (text b))], slots, world⟩
  /-- Counts a value up or down. -/
  count : Bool → υ → (Slot → υ) → ω → Reply υ ω ε
  other : Instr → List υ → (Slot → υ) → ω → Reply υ ω ε
  /-- The choice is true for the label. -/
  fork : Instr → List υ → (Slot → υ) → ω → Bool × Reply υ ω ε
  call : Instr → υ → List υ → (Slot → υ) → ω → Bool × Reply υ ω ε
  exit : Instr → List υ → (Slot → υ) → ω → List ε × Ending υ ω

end Execution

/-- How an instruction uses a slot. -/
inductive SlotUse where
  | get | put | set

/-- The use of a slot and its kind. -/
def Opcode.slotUse? : Opcode → Option (SlotUse × (Nat → Slot))
  | getLoc => some (.get, .var)
  | putLoc => some (.put, .var)
  | setLoc => some (.set, .var)
  | getArg => some (.get, .arg)
  | putArg => some (.put, .arg)
  | setArg => some (.set, .arg)
  | getVarRef => some (.get, .closure)
  | putVarRef => some (.put, .closure)
  | setVarRef => some (.set, .closure)
  | _ => none

/-- The number of a slot. -/
def Operand.index (arg : Operand) : Nat :=
  (arg.int?.getD 0).toNat

/-- The instructions that an instruction stands for. -/
def Instr.expand (i : Instr) : List Instr :=
  match i.opcode? with
  | some .incLoc => [.of .getLoc i.arg, .plain .inc, .of .putLoc i.arg]
  | some .decLoc => [.of .getLoc i.arg, .plain .dec, .of .putLoc i.arg]
  | some .typeofIsUndefined => [.plain .typeof, .of .pushAtomValue (.atom .undefined), .plain .strictEq]
  | some .typeofIsFunction => [.plain .typeof, .of .pushAtomValue (.atom .functionName), .plain .strictEq]
  | some .isNull => [.plain .null, .plain .strictEq]
  | some .isUndefined => [.plain .undefined, .plain .strictEq]
  | _ => [i]

namespace Execution

variable {υ ω ε : Type}

namespace Interpretation

variable (D : Interpretation υ ω ε)

def useSlot (use : SlotUse) (x : Slot) (d : Data υ ω) : Act υ ω ε :=
  match use with
  | .get => d.push (d.slots x)
  | .put => d.take fun v d => ([], .ok (d.store x v))
  | .set => d.take fun v d => (d.store x v).push v

/-- One instruction that stands for itself. -/
def basic (i : Instr) (d : Data υ ω) : Act υ ω ε :=
  match i.opcode? with
  | some .undefined => d.push D.undefined
  | some .null => d.push D.null
  | some .pushTrue => d.push (D.bool true)
  | some .pushFalse => d.push (D.bool false)
  | some .pushI32 | some .pushConst | some .fclosure => d.push (D.constant i d.slots d.world)
  | some .pushAtomValue =>
    match i.arg with
    | .atom a => d.push (D.text a)
    | _ => d.push (D.constant i d.slots d.world)
  | some .dup => d.take fun v d => { d with stack := v :: d.stack }.push v
  | some .lnot => d.take fun v d => d.push (D.bool !D.truthy v)
  | some .typeof => d.take fun v d => d.push (D.text (D.typeName v))
  | some .strictEq => d.take fun b d => d.take fun a d => d.push (D.bool (D.strictEq a b))
  | some .eq => d.take fun b d => d.take fun a d => d.behind (D.looseEq a b d.slots d.world)
  | some .inc => d.take fun v d => d.behind (D.count true v d.slots d.world)
  | some .dec => d.take fun v d => d.behind (D.count false v d.slots d.world)
  | op =>
    match op.bind Opcode.slotUse? with
    | some (use, kind) => useSlot use (kind i.arg.index) d
    | none => d.takes i.stackEffect.1 fun values d => d.behind (D.other i values d.slots d.world)

/-- Instructions in a row. -/
def sequence : List Instr → Data υ ω → Act υ ω ε
  | [], d => ([], .ok d)
  | i :: rest, d =>
    match D.basic i d with
    | (effects, .ok d') => (effects ++ (sequence rest d').1, (sequence rest d').2)
    | r => r

/-- The choice of an instruction and the data behind it. -/
def chosen (d : Data υ ω) (r : Bool × Reply υ ω ε) : List ε × Except (Ending υ ω) (Bool × Data υ ω) :=
  ((d.behind r.2).1, (d.behind r.2).2.map (r.1, ·))

def machine : Machine (Data υ ω) υ ε (Ending υ ω) where
  straight i := D.sequence i.expand
  test d := (d.take (ε := ε) fun v d => ([], .ok (D.truthy v, d))).2
  fork i d := d.takes i.stackEffect.1 fun values d => chosen d (D.fork i values d.slots d.world)
  call i a d := d.takes i.stackEffect.1 fun values d => chosen d (D.call i a values d.slots d.world)
  resume d := (d.take (ε := ε) fun v d => ([], .ok (v, d))).2
  finish
    | true, d => ([], match d.stack with
      | [] => .underflow
      | v :: _ => .returned v d.slots d.world)
    | false, d => ([], .returned D.undefined d.slots d.world)
  exit i d :=
    if i.stackEffect.1 ≤ d.stack.length then D.exit i (d.stack.take i.stackEffect.1) d.slots d.world
    else ([], .underflow)

end Interpretation

/-! ## Single instructions -/

/-- The turn after an act. -/
def Act.turn {υ ω ε : Type} (act : Act υ ω ε) : List ε × Turn (Data υ ω) υ (Ending υ ω) :=
  (act.1, .ofExcept .next act.2)

/-- Does one thing and passes control on. -/
def IsBasic (i : Instr) : Prop :=
  i.control = .straight ∧ i.expand = [i]

section Instructions

variable {υ ω ε : Type} {D : Interpretation υ ω ε} {v : υ} {op : Opcode} {i : Instr} {code : List Instr}

theorem turn_straight (h : i.control = .straight) (d : Data υ ω) :
    D.machine.turn v i d = Act.turn (D.sequence i.expand d) := by
  rw [Machine.turn, h]
  rfl

theorem turn_basic (h : IsBasic i) (d : Data υ ω) : D.machine.turn v i d = Act.turn (D.basic i d) := by
  rw [turn_straight h.1, h.2, Interpretation.sequence]
  split
  · rename_i effects d' hbasic
    rw [hbasic, Interpretation.sequence, List.append_nil]
  · rfl

theorem block_sequence (h : ∀ i ∈ code, IsBasic i) (d : Data υ ω) :
    D.machine.block v code d = Act.turn (D.sequence code d) := by
  induction code generalizing d with
  | nil => rfl
  | cons i rest ih =>
    rw [List.forall_mem_cons] at h
    rw [Machine.block, turn_basic h.1, Interpretation.sequence]
    obtain ⟨effects, result⟩ := D.basic i d
    cases result with
    | ok d' =>
      show (effects ++ (D.machine.block v rest d').1, (D.machine.block v rest d').2) = _
      rw [ih h.2]
      rfl
    | error how => rfl

/-- What a slot instruction does. -/
theorem isBasic_of_slotUse? {use kind} (h : op.slotUse? = some (use, kind)) (a : Operand) :
    IsBasic (.of op a) ∧ ∀ d, D.basic (.of op a) d = Interpretation.useSlot use (kind a.index) d := by
  unfold Opcode.slotUse? at h
  split at h <;> cases h <;> exact ⟨⟨rfl, rfl⟩, fun d => rfl⟩

end Instructions

end Execution

end ScriptBytecode
