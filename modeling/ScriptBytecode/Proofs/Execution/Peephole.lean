import ScriptBytecode.Proofs.Execution.StackMachine

/-!
# Peephole rules preserve runs

Rule by rule, the new instructions do what the old ones did (`Execution.Agrees`). Markers between them do nothing.

Main statement: code and the same code after the peephole pass have the same runs on the stack machine, from all data
from which the code does not run out of values.
-/

namespace ScriptBytecode

namespace Execution

open Peephole (slotOps? isPurePush branch)

section Instructions

variable {υ ω ε : Type} {D : Interpretation υ ω ε} {v : υ} {op : Opcode} {i : Instr} {code : List Instr}

theorem slotUse?_of_slotOps? {ops} (h : slotOps? op = some ops) :
    ∃ kind, ops.get.slotUse? = some (.get, kind) ∧ ops.put.slotUse? = some (.put, kind) ∧
      ops.set.slotUse? = some (.set, kind) := by
  unfold slotOps? at h
  split at h <;> cases h <;> exact ⟨_, rfl, rfl, rfl⟩

/-- A push puts a value on the stack, if there is something to copy. -/
theorem basic_of_isPurePush (h : isPurePush op) (a : Operand) (d : Data υ ω) :
    D.basic (.of op a) d = ([], .error .underflow) ∨ ∃ w, D.basic (.of op a) d = d.push w := by
  obtain ⟨stack, slots, world⟩ := d
  unfold isPurePush at h
  split at h
  case h_3 => cases a <;> exact .inr ⟨_, rfl⟩
  case h_11 =>
    cases stack with
    | nil => exact .inl rfl
    | cons w stack => exact .inr ⟨w, rfl⟩
  case h_13 => cases h
  all_goals exact .inr ⟨_, rfl⟩

theorem isBasic_of_isPurePush (h : isPurePush op) (a : Operand) : IsBasic (.of op a) := by
  unfold isPurePush at h
  split at h
  case h_13 => cases h
  all_goals exact ⟨rfl, rfl⟩

/-- The second block does what the first one does, unless the stack is too short for the first. -/
def Agrees (D : Interpretation υ ω ε) (old new : List Instr) : Prop :=
  ∀ v d, (∃ effects, D.machine.block v old d = (effects, .leave .underflow)) ∨
    D.machine.block v old d = D.machine.block v new d

theorem agrees_pushDrop (h : isPurePush op) (a b : Operand) : Agrees D [.of op a, .of .drop b] [] := by
  intro v d
  have hturn := turn_basic (D := D) (v := v) (isBasic_of_isPurePush h a) d
  rcases basic_of_isPurePush (D := D) h a d with hpush | ⟨w, hpush⟩
  · rw [hpush] at hturn
    exact .inl ⟨[], by rw [Machine.block, hturn]; rfl⟩
  · rw [hpush] at hturn
    exact .inr (block_cons_next hturn)

section Slots

variable {ops : Peephole.SlotOps} (h : slotOps? op = some ops) (a b : Operand)
include h

theorem agrees_storeLoad : Agrees D [.of ops.put a, .of ops.get a] [.of ops.set a] := by
  rintro v ⟨stack, slots, world⟩
  obtain ⟨kind, hget, hput, hset⟩ := slotUse?_of_slotOps? h
  obtain ⟨hbasic, hget⟩ := isBasic_of_slotUse? (D := D) hget a
  obtain ⟨hbasic', hput⟩ := isBasic_of_slotUse? (D := D) hput a
  obtain ⟨hbasic'', hset⟩ := isBasic_of_slotUse? (D := D) hset a
  rw [block_sequence (by simp [hbasic, hbasic']), block_sequence (by simp [hbasic''])]
  simp only [Interpretation.sequence, hput, hget, hset, Interpretation.useSlot]
  cases stack with
  | nil => exact .inl ⟨[], rfl⟩
  | cons w stack =>
    refine .inr ?_
    simp [Data.take, Data.push, Data.store, Function.update_self]

theorem agrees_storeDrop : Agrees D [.of ops.set a, .of .drop b] [.of ops.put a] := by
  rintro v ⟨stack, slots, world⟩
  obtain ⟨kind, -, hput, hset⟩ := slotUse?_of_slotOps? h
  obtain ⟨hbasic, hput⟩ := isBasic_of_slotUse? (D := D) hput a
  obtain ⟨hbasic', hset⟩ := isBasic_of_slotUse? (D := D) hset a
  rw [Machine.block, Machine.block, turn_basic hbasic, turn_basic hbasic', hput, hset]
  cases stack with
  | nil => exact .inl ⟨[], rfl⟩
  | cons w stack => exact .inr rfl

theorem agrees_dupStore : Agrees D [.of .dup a, .of ops.put b] [.of ops.set b] := by
  rintro v ⟨stack, slots, world⟩
  obtain ⟨kind, -, hput, hset⟩ := slotUse?_of_slotOps? h
  obtain ⟨hbasic, hput⟩ := isBasic_of_slotUse? (D := D) hput b
  obtain ⟨hbasic', hset⟩ := isBasic_of_slotUse? (D := D) hset b
  have hdup : IsBasic (.of .dup a) := ⟨rfl, rfl⟩
  rw [block_sequence (by simp [hdup, hbasic]), block_sequence (by simp [hbasic'])]
  simp only [Interpretation.sequence, hput, hset, Interpretation.useSlot]
  cases stack with
  | nil => exact .inl ⟨[], rfl⟩
  | cons w stack => exact .inr rfl

end Slots

/-- The new instruction stands for the old ones. -/
theorem agrees_of_expand {old} (hold : ∀ j ∈ old, IsBasic j) (h : i.control = .straight)
    (hsame : D.sequence old = D.sequence i.expand) : Agrees D old [i] := by
  intro v d
  rw [block_sequence hold, block_one, turn_straight h, hsame]
  exact .inr rfl

theorem agrees_count (up : Bool) (a b : Operand) :
    Agrees D [.of .getLoc a, .of (if up then .inc else .dec) b, .of .putLoc a]
      [.of (if up then .incLoc else .decLoc) a] := by
  cases up <;>
  · refine agrees_of_expand ?_ rfl rfl
    simp only [List.forall_mem_cons]
    exact ⟨⟨rfl, rfl⟩, ⟨rfl, rfl⟩, ⟨rfl, rfl⟩, List.forall_mem_nil _⟩

theorem agrees_nullTest (isNull : Bool) (a b : Operand) :
    Agrees D [.of (if isNull then .null else .undefined) a, .of .strictEq b]
      [.plain (if isNull then .isNull else .isUndefined)] := by
  cases isNull <;>
  · refine agrees_of_expand ?_ rfl rfl
    simp only [List.forall_mem_cons]
    exact ⟨⟨rfl, rfl⟩, ⟨rfl, rfl⟩, List.forall_mem_nil _⟩

/-- Texts that are loosely equal are strictly equal. -/
theorem sequence_eq_text (x y : Atom) (c : Operand) (stack : List υ) (slots : Slot → υ) (world : ω) :
    D.sequence [.of .eq c] ⟨D.text y :: D.text x :: stack, slots, world⟩ =
      D.sequence [.plain .strictEq] ⟨D.text y :: D.text x :: stack, slots, world⟩ := by
  have hbasic : D.basic (.of .eq c) ⟨D.text y :: D.text x :: stack, slots, world⟩ =
      D.basic (.plain .strictEq) ⟨D.text y :: D.text x :: stack, slots, world⟩ := by
    show Data.behind _ (D.looseEq (D.text x) (D.text y) slots world) = _
    rw [D.looseEq_text]
    rfl
  rw [Interpretation.sequence, Interpretation.sequence, hbasic]

theorem agrees_typeTest (isUndefined strict : Bool) (a c : Operand) :
    Agrees D [.of .typeof a, .of .pushAtomValue (.atom (if isUndefined then .undefined else .functionName)),
        .of (if strict then .strictEq else .eq) c]
      [.plain (if isUndefined then .typeofIsUndefined else .typeofIsFunction)] := by
  refine agrees_of_expand ?_ (by cases isUndefined <;> rfl) ?_
  · simp only [List.forall_mem_cons]
    exact ⟨⟨rfl, rfl⟩, ⟨rfl, rfl⟩, by cases strict <;> exact ⟨rfl, rfl⟩, List.forall_mem_nil _⟩
  · have hexpand : (Instr.plain (if isUndefined then .typeofIsUndefined else .typeofIsFunction)).expand =
        [.plain .typeof, .of .pushAtomValue (.atom (if isUndefined then .undefined else .functionName)),
          .plain .strictEq] := by
      cases isUndefined <;> rfl
    rw [hexpand]
    funext ⟨stack, slots, world⟩
    cases stack with
    | nil => rfl
    | cons w stack =>
      cases strict with
      | true => rfl
      | false => exact congrArg (fun r => ([] ++ ([] ++ r.1), r.2)) (sequence_eq_text _ _ c stack slots world)

theorem turn_branch (taken : Bool) (b : Operand) (w : υ) (stack : List υ) (slots : Slot → υ) (world : ω) :
    D.machine.turn v (.of (branch taken) b) ⟨w :: stack, slots, world⟩ =
      ([], if D.truthy w = taken then .jump b.label? ⟨stack, slots, world⟩ else .next ⟨stack, slots, world⟩) := by
  cases taken <;> cases hw : D.truthy w <;>
    simp [branch, Machine.turn, Instr.control, Instr.of, Opcode.control, Interpretation.machine, Data.take,
      Turn.ofExcept, Turn.choose, hw]

theorem agrees_invertBranch (taken : Bool) (a b : Operand) :
    Agrees D [.of .lnot a, .of (branch taken) b] [.of (branch !taken) b] := by
  rintro v ⟨stack, slots, world⟩
  cases stack with
  | nil => exact .inl ⟨[], rfl⟩
  | cons w stack =>
    have hnot : D.machine.turn v (.of .lnot a) ⟨w :: stack, slots, world⟩ =
        ([], .next ⟨D.bool (!D.truthy w) :: stack, slots, world⟩) := rfl
    have htaken : D.truthy (D.bool !D.truthy w) = taken ↔ D.truthy w = !taken := by
      rw [D.truthy_bool, Bool.not_eq_eq_eq_not]
    refine .inr ?_
    rw [block_cons_next hnot, block_one, block_one, turn_branch, turn_branch, if_congr htaken rfl rfl]
    rfl

theorem agrees_constantBranch (value taken : Bool) (a b : Operand) :
    Agrees D [.of (if value then .pushTrue else .pushFalse) a, .of (branch taken) b]
      (if value = taken then [.of .goto b] else []) := by
  rintro v ⟨stack, slots, world⟩
  have hpush : D.machine.turn v (.of (if value then .pushTrue else .pushFalse) a) ⟨stack, slots, world⟩ =
      ([], .next ⟨D.bool value :: stack, slots, world⟩) := by
    cases value <;> rfl
  refine .inr ?_
  rw [block_cons_next hpush, block_one, turn_branch, D.truthy_bool]
  split <;> rfl

end Instructions

end Execution

namespace Peephole

open Execution

variable {υ ω ε : Type} {old new : List Instr}

/-- Does the code have no inserts? -/
def NoInserts (code : List Instr) : Prop :=
  ∀ i ∈ code, i.opcode? ∉ [some .insert2, some .insert3, some .insert4]

instance : DecidablePred NoInserts :=
  fun _ => inferInstanceAs (Decidable (∀ i ∈ _, _))

/-- Instructions that only `bareStore` looks at. -/
def Foreign (op : Opcode) : Prop :=
  op = .gosub ∨ op = .insert2 ∨ op = .insert3 ∨ op = .insert4

theorem not_foreign_of_slotUse? {op : Opcode} {r} (h : op.slotUse? = some r) : ¬ Foreign op := by
  rintro (rfl | rfl | rfl | rfl) <;> cases h

theorem not_foreign_of_isPurePush {op} (h : isPurePush op) : ¬ Foreign op := by
  rintro (rfl | rfl | rfl | rfl) <;> cases h

theorem NoInserts.not_bareStore (h : NoInserts old) : ¬ BareStore old new := by
  rintro ⟨pair⟩
  have hinsert := h _ List.mem_cons_self
  simp only [storePairs, List.mem_cons, List.not_mem_nil, or_false, Prod.mk.injEq] at pair
  rcases pair with ⟨rfl, -⟩ | ⟨rfl, -⟩ | ⟨rfl, -⟩ | ⟨rfl, -⟩ | ⟨rfl, -⟩ <;>
    exact hinsert (by simp [Instr.of, Instr.opcode?])

theorem Fires.not_foreign (h : Fires old new) (hstore : ¬ BareStore old new) :
    ∀ i ∈ old ++ new, ∀ op, i.opcode? = some op → ¬ Foreign op := by
  have hof : ∀ (op : Opcode) (a : Operand), (Instr.of op a).opcode? = some op := fun _ _ => rfl
  have hdrop : ¬ Foreign .drop := by simp [Foreign]
  have hdup : ¬ Foreign .dup := by simp [Foreign]
  have hslots : ∀ {op : Opcode} {ops : SlotOps}, slotOps? op = some ops →
      ¬ Foreign ops.get ∧ ¬ Foreign ops.put ∧ ¬ Foreign ops.set := by
    intro op ops h
    obtain ⟨kind, hget, hput, hset⟩ := slotUse?_of_slotOps? h
    exact ⟨not_foreign_of_slotUse? hget, not_foreign_of_slotUse? hput, not_foreign_of_slotUse? hset⟩
  cases h with
  | pushDrop push => simp [hof, not_foreign_of_isPurePush push, hdrop]
  | storeLoad family => simp [hof, hslots family]
  | storeDrop family => simp [hof, hslots family, hdrop]
  | dupStore family => simp [hof, hslots family, hdup]
  | count up => cases up <;> simp [hof, Foreign]
  | invertBranch taken => cases taken <;> simp [hof, branch, Foreign]
  | constantBranch value taken => cases value <;> cases taken <;> simp [hof, branch, Foreign]
  | bareStore store => exact absurd store hstore
  | returnUndefined => simp [hof, Instr.plain, Foreign]
  | typeTest isUndefined strict => cases isUndefined <;> cases strict <;> simp [hof, Instr.plain, Foreign]
  | nullTest isNull => cases isNull <;> simp [hof, Instr.plain, Foreign]

theorem Fires.agrees (D : Interpretation υ ω ε) (h : Fires old new) (hstore : ¬ BareStore old new) :
    Agrees D old new := by
  cases h with
  | pushDrop push => exact agrees_pushDrop push _ _
  | storeLoad family => exact agrees_storeLoad family _
  | storeDrop family => exact agrees_storeDrop family _ _
  | dupStore family => exact agrees_dupStore family _ _
  | count up => exact agrees_count up _ _
  | invertBranch taken => exact agrees_invertBranch taken _ _
  | constantBranch value taken => exact agrees_constantBranch value taken _ _
  | bareStore store => exact absurd store hstore
  | returnUndefined => exact fun v d => .inr rfl
  | typeTest isUndefined strict => exact agrees_typeTest isUndefined strict _ _
  | nullTest isNull => exact agrees_nullTest isNull _ _

/-! ## Main statement -/

section Runs

variable {code code' : List Instr}

theorem NoInserts.finals (h : NoInserts code) : NoInserts (finals code) :=
  fun i hi => h i (List.mem_of_mem_filter hi)

theorem noInserts_of_not_foreign (h : ∀ i ∈ finals code, ∀ op, i.opcode? = some op → ¬ Foreign op) :
    NoInserts code := by
  intro i hi hop
  simp only [List.mem_cons, List.not_mem_nil, or_false] at hop
  rcases hop with hop | hop | hop <;> exact h i (mem_finals hi hop) _ hop (by simp [Foreign])

theorem control_ne_call_of_not_foreign (h : ∀ i ∈ finals code, ∀ op, i.opcode? = some op → ¬ Foreign op) :
    ∀ i ∈ finals code, i.control ≠ .call := by
  rintro ⟨op, arg⟩ hi hcall
  cases op with
  | pseudo op => cases hcall
  | final op =>
    obtain rfl : op = .gosub := Opcode.eq_gosub_of_control hcall
    exact h _ hi _ rfl (.inl rfl)

theorem Fires.ne_nil (h : Fires old new) : old ≠ [] := by
  rintro rfl
  cases h with
  | bareStore store => cases store

variable [DecidableEq υ] (D : Interpretation υ ω ε) (addr : Nat → υ)

/-- Instructions are replaced by others that agree with them. -/
theorem preserves_of_agrees (hold : Layout.marks old = []) (hmarkers : markers new = markers old)
    (hne : finals old ≠ []) (hcalls : ∀ i ∈ finals old, i.control ≠ .call)
    (hcalls' : ∀ i ∈ finals new, i.control ≠ .call) (h : Agrees D (finals old) (finals new)) (front rest : List Instr) :
    Preserves D.machine addr (· = .underflow) (front ++ (old ++ rest)) (front ++ (new ++ rest)) := by
  refine preserves_of_finals (a := addr 0) hold hmarkers hcalls hcalls' hne fun d => ?_
  rcases h (addr 0) d with ⟨effects, hleave⟩ | hsame
  · exact .inl ⟨effects, .underflow, hleave, rfl⟩
  · exact .inr hsame

/-- Step of the pass. -/
theorem preserves_of_firesAt (h : ReplacedAt Fires code code') (front : List Instr)
    (hinsert : NoInserts (front ++ code)) :
    NoInserts (front ++ code') ∧ Preserves D.machine addr (· = .underflow) (front ++ code) (front ++ code') := by
  obtain ⟨old, new, rest, rfl, rfl, hold, hmarkers, hfires⟩ := h
  simp only [NoInserts, List.forall_mem_append] at hinsert ⊢
  obtain ⟨hfront, hinsert, hrest⟩ := hinsert
  have hstore : ¬ BareStore (finals old) (finals new) := NoInserts.not_bareStore (NoInserts.finals hinsert)
  have hforeign := hfires.not_foreign hstore
  rw [List.forall_mem_append] at hforeign
  refine ⟨⟨hfront, noInserts_of_not_foreign hforeign.2, hrest⟩, ?_⟩
  exact preserves_of_agrees D addr hold hmarkers hfires.ne_nil (control_ne_call_of_not_foreign hforeign.1)
    (control_ne_call_of_not_foreign hforeign.2) (hfires.agrees D hstore) front rest

/-- Code without inserts and the code that the peephole pass makes of it have the same runs, from all data from which
the code does not run out of values. -/
theorem sameRuns_of_noInserts {code : List Instr} {d : Data υ ω} (hinsert : NoInserts code)
    (hstack : ∀ effects, ¬ D.machine.Halts addr code d (.left .underflow) effects) :
    SameRuns D.machine addr addr code (run code) d := by
  have hcompact : Preserves D.machine addr (· = .underflow) code (Rule.compact code) := preserves_compact [] code
  have hinsert' : NoInserts (Rule.compact code) := fun i hi => hinsert i (List.mem_of_mem_filter hi)
  have hrun : NoInserts (run code) ∧ Preserves D.machine addr (· = .underflow) code (run code) := by
    refine Rule.repeatedly_preserves
      (P := fun code' => NoInserts code' ∧ Preserves D.machine addr (· = .underflow) code code')
      (fun front rest rest' hfires h => ?_) _ [] _ ⟨hinsert', hcompact⟩
    obtain ⟨hinsert', hpreserves⟩ := preserves_of_firesAt D addr (firesAt_of_rule hfires) front h.1
    exact ⟨hinsert', h.2.trans hpreserves⟩
  refine hrun.2 d fun how effects hhalts hunder => ?_
  subst hunder
  exact hstack effects hhalts

end Runs

/-- Numbers as values; instructions without a fixed meaning print what they take. -/
def numbers : Interpretation Nat Unit Nat where
  undefined := 0
  null := 0
  bool := Bool.toNat
  text _ := 0
  constant i _ _ := i.arg.index
  truthy v := v != 0
  truthy_bool := by decide
  typeName _ := .undefined
  strictEq a b := a == b
  looseEq a b slots world := ⟨[], .ok [(a == b).toNat], slots, world⟩
  looseEq_text _ _ _ _ := rfl
  count up v slots world := ⟨[], .ok [if up then v + 1 else v - 1], slots, world⟩
  other _ values slots world := ⟨values, .ok [], slots, world⟩
  fork _ _ slots world := (false, ⟨[], .ok [], slots, world⟩)
  call _ a _ slots world := (true, ⟨[], .ok [a], slots, world⟩)
  exit _ _ slots world := ([], .returned 0 slots world)

/-- Prints the numbers from three down to one. -/
def countdown : List Instr :=
  [.of .pushI32 (.int 3), .of .putLoc (.int 0), .mark 0, .of .getLoc (.int 0), .of .putVar (.atom .undefined),
    .of .getLoc (.int 0), .plain .dec, .of .putLoc (.int 0), .of .getLoc (.int 0), .plain .lnot,
    .of .ifFalse (.label 0), .plain .undefined, .plain .returnValue]

theorem sameRuns_countdown : NoInserts countdown ∧
    SameRuns numbers.machine id id countdown (run countdown) ⟨[], fun _ => 0, ()⟩ := by
  have hinsert : NoInserts countdown := by decide
  obtain ⟨slots, hhalts⟩ : ∃ slots, numbers.machine.Halts id countdown ⟨[], fun _ => 0, ()⟩
      (.left (.returned 0 slots ())) [3, 2, 1] := ⟨_, 31, rfl⟩
  refine ⟨hinsert, sameRuns_of_noInserts numbers id hinsert fun effects hunder => ?_⟩
  cases (hhalts.unique hunder).1

end Peephole

end ScriptBytecode
