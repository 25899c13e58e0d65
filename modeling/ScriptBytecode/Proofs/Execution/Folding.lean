import Mathlib.Logic.Relation
import ScriptBytecode.Proofs.Execution.StackMachine

/-!
# Folding preserves runs

First, the arithmetic of the language on 32-bit integers (`Folding.unary?`, `Folding.binary?`): sums and products are
numbers, of which some are no 32-bit integers and one is negative zero; bit operations work on two's complements, and of
a shift count the last five bits matter. Folding agrees with it (`fold?_eq`).

Main statement: folding replaces computations on literals by pushes of their values, and on every stack machine with
this arithmetic the code has the same runs before and after.
-/

namespace ScriptBytecode

variable {n : Int} {v : Scalar} {old new : List Instr}

namespace Folding

/-! ## Arithmetic -/

/-- What an operator makes of 32-bit integers. -/
inductive Scalar where
  | int (n : Int)
  | negativeZero
  | bool (b : Bool)
  deriving DecidableEq

def word (n : Int) : BitVec 32 :=
  BitVec.ofInt 32 n

def shifts (n : Int) : Nat :=
  (word n).toNat % 32

def unary? : Opcode → Int → Option Scalar
  | .neg, n => some (if n = 0 then .negativeZero else .int (-n))
  | .plus, n => some (.int n)
  | _, _ => none

def binary? (op : Opcode) (n m : Int) : Option Scalar :=
  match op with
  | .add => some (.int (n + m))
  | .sub => some (.int (n - m))
  -- a product has the sign of both factors, and so has zero
  | .mul => some (if n * m = 0 ∧ decide (n < 0) ≠ decide (m < 0) then .negativeZero else .int (n * m))
  | .bitAnd => some (.int (word n &&& word m).toInt)
  | .bitOr => some (.int (word n ||| word m).toInt)
  | .bitXor => some (.int (word n ^^^ word m).toInt)
  | .shl => some (.int (word n <<< shifts m).toInt)
  | .sar => some (.int ((word n).sshiftRight (shifts m)).toInt)
  | .lt => some (.bool (n < m))
  | .lte => some (.bool (n ≤ m))
  | .gt => some (.bool (n > m))
  | .gte => some (.bool (n ≥ m))
  | .eq | .strictEq => some (.bool (n == m))
  | .neq | .strictNeq => some (.bool (n != m))
  | _ => none

/-- The push of a 32-bit integer or of a truth value. -/
def Scalar.push? : Scalar → Option Instr
  | .int n => if fitsSigned 32 n then some (pushInt n) else none
  | .negativeZero => none
  | .bool b => some (pushBool b)

theorem toInt_eq_signedWord (w : BitVec 32) : w.toInt = signedWord 32 w.toNat := by
  rw [BitVec.toInt_eq_toNat_cond, signedWord]
  refine if_congr ⟨fun h => ?_, fun h => ?_⟩ rfl rfl
  · show w.toNat < 0x80000000
    omega
  · have h : w.toNat < 0x80000000 := h
    omega

theorem fitsSigned_toInt (w : BitVec 32) : fitsSigned 32 w.toInt := by
  rw [toInt_eq_signedWord]
  exact fitsSigned_signedWord (by decide) w.isLt

theorem toNat_word (n : Int) : (word n).toNat = unsignedWord 32 n := by
  rw [word, BitVec.toNat_ofInt]
  rfl

theorem push?_toInt (w : BitVec 32) : (Scalar.int w.toInt).push? = some (pushInt (signedWord 32 w.toNat)) := by
  rw [Scalar.push?, if_pos (fitsSigned_toInt w), toInt_eq_signedWord]

theorem shifts_eq (n : Int) : shifts n = shiftCount n := by
  rw [shifts, toNat_word]
  exact unsignedWord_mod (a := 5) (b := 32) (by decide) n

theorem toInt_word (hn : fitsSigned 32 n) : (word n).toInt = n := by
  rw [toInt_eq_signedWord, toNat_word, signedWord_unsignedWord (by decide) hn]

/-- Shifts are products. -/
theorem toNat_word_shiftLeft (n : Int) (k : Nat) : (word n <<< k).toNat = unsignedWord 32 (n * Nat.pow 2 k) := by
  have hword : word n <<< k = word (n * Nat.pow 2 k) := by
    have hpower : BitVec.ofInt 32 (Nat.pow 2 k) = BitVec.twoPow 32 k := by
      apply BitVec.eq_of_toNat_eq
      rw [BitVec.ofInt_natCast, BitVec.toNat_twoPow, BitVec.toNat_ofNat]
      rfl
    rw [BitVec.shiftLeft_eq_mul_twoPow, word, word, BitVec.ofInt_mul, hpower]
  rw [hword, toNat_word]

/-- Folding goes by the arithmetic. -/
theorem fold?_eq (op : Opcode) {m} (hn : fitsSigned 32 n) : fold? op n m = (binary? op n m).bind Scalar.push? := by
  unfold fold? binary?
  split
  case h_1 | h_2 => rfl
  case h_3 =>
    have hsign : (n * m = 0 && (n < 0 || m < 0)) = true ↔ n * m = 0 ∧ decide (n < 0) ≠ decide (m < 0) := by
      simp only [Bool.and_eq_true, Bool.or_eq_true, decide_eq_true_eq, ne_eq, decide_eq_decide, Int.mul_eq_zero]
      omega
    rw [if_congr hsign rfl rfl, Option.bind_some]
    split <;> rfl
  case h_4 | h_5 | h_6 =>
    rw [Option.bind_some, push?_toInt]
    simp only [BitVec.toNat_and, BitVec.toNat_or, BitVec.toNat_xor, toNat_word]
    rfl
  case h_7 => rw [Option.bind_some, push?_toInt, toNat_word_shiftLeft, shifts_eq]
  case h_8 =>
    have hdiv : ((word n).sshiftRight (shifts m)).toInt = n / Nat.pow 2 (shiftCount m) := by
      rw [BitVec.toInt_sshiftRight, toInt_word hn, Int.shiftRight_eq_div_pow, shifts_eq]
      rfl
    rw [Option.bind_some, Scalar.push?, if_pos (fitsSigned_toInt _), hdiv]
  all_goals first | rfl | (split <;> first | rfl | contradiction)

/-! ## Computations -/

/-- The literals in code are 32-bit integers. -/
def Literals (code : List Instr) : Prop :=
  ∀ i ∈ code, (intLiteral? i).all (fitsSigned 32) = true

instance : DecidablePred Literals :=
  fun _ => inferInstanceAs (Decidable (∀ i ∈ _, _))

/-- A computation on 32-bit literals and the push of its value. -/
inductive Computes : List Instr → List Instr → Prop where
  | unary {op : Opcode} {a : Operand} {n : Int} {v : Scalar} {i : Instr} (fits : fitsSigned 32 n = true)
      (value : unary? op n = some v) (push : v.push? = some i) : Computes [pushInt n, .of op a] [i]
  | binary {op : Opcode} {a : Operand} {n m : Int} {v : Scalar} {i : Instr} (fits : fitsSigned 32 n = true)
      (fits' : fitsSigned 32 m = true) (value : binary? op n m = some v) (push : v.push? = some i) :
      Computes [pushInt n, pushInt m, .of op a] [i]

theorem Folds.computes (h : Folds old new) (hold : Literals old) : Computes old new := by
  cases h with
  | @neg n a zero least =>
    have hn : fitsSigned 32 n := hold (pushInt n) List.mem_cons_self
    have hneg : fitsSigned 32 (-n) := by
      have hhalf : Nat.pow 2 (32 - 1) = 0x80000000 := rfl
      simp only [fitsSigned, hhalf, Bool.and_eq_true, decide_eq_true_eq] at hn ⊢
      omega
    exact .unary hn (congrArg some (if_neg zero)) (if_pos hneg)
  | @plus n a => exact .unary (hold (pushInt n) List.mem_cons_self) rfl (if_pos (hold (pushInt n) List.mem_cons_self))
  | @binary n m op op' a b value =>
    have hn : fitsSigned 32 n := hold (pushInt n) List.mem_cons_self
    rw [fold?_eq op hn] at value
    obtain ⟨v, hvalue, hpush⟩ := Option.bind_eq_some_iff.mp value
    exact .binary hn (hold (pushInt m) (by simp)) hvalue hpush

theorem literals_of_push? {i} (h : v.push? = some i) : Literals [i] := by
  rw [Literals, List.forall_mem_singleton]
  cases v with
  | int n =>
    rw [Scalar.push?] at h
    split at h
    · cases h
      assumption
    · cases h
  | negativeZero => cases h
  | bool b => cases b <;> cases h <;> rfl

theorem Computes.literals (h : Computes old new) : Literals new := by
  cases h with
  | unary fits value push => exact literals_of_push? push
  | binary fits fits' value push => exact literals_of_push? push

theorem Computes.ne_nil (h : Computes old new) : old ≠ [] := by
  cases h <;> exact List.cons_ne_nil _ _

/-- One computation somewhere in the code is replaced. -/
def Step (code code' : List Instr) : Prop :=
  ∃ front rest rest', code = front ++ rest ∧ code' = front ++ rest' ∧ ReplacedAt Computes rest rest'

theorem step_of_rule {front code code'} (h : rule code = some code') (hcode : Literals (front ++ code)) :
    Literals (front ++ code') ∧ Step (front ++ code) (front ++ code') := by
  obtain ⟨old, new, rest, rfl, rfl, hold, hmarkers, hfolds⟩ := foldsAt_of_rule h
  simp only [Literals, List.forall_mem_append] at hcode ⊢
  have hcomputes := hfolds.computes fun i hi => hcode.2.1 i (List.mem_of_mem_filter hi)
  exact ⟨⟨hcode.1, forall_of_markers hmarkers (fun _ => hcomputes.literals) hcode.2.1, hcode.2.2⟩,
    front, _, _, rfl, rfl, old, new, rest, rfl, rfl, hold, hmarkers, hcomputes⟩

end Folding

/-! ## Machines -/

namespace Execution

open Folding

variable {υ ω ε : Type}

/-- The stack machine has the arithmetic of the language on 32-bit integers; `scalar` gives its values. -/
structure Interpretation.Calculates (D : Interpretation υ ω ε) (scalar : Scalar → υ) : Prop where
  truth : ∀ b, scalar (.bool b) = D.bool b
  literal : ∀ {n}, fitsSigned 32 n = true → ∀ slots world, D.constant (pushInt n) slots world = scalar (.int n)
  unary : ∀ {op n v}, fitsSigned 32 n = true → unary? op n = some v → ∀ a stack slots world,
    D.basic (.of op a) ⟨scalar (.int n) :: stack, slots, world⟩ = ([], .ok ⟨scalar v :: stack, slots, world⟩)
  binary : ∀ {op n m v}, fitsSigned 32 n = true → fitsSigned 32 m = true → binary? op n m = some v →
    ∀ a stack slots world, D.basic (.of op a) ⟨scalar (.int m) :: scalar (.int n) :: stack, slots, world⟩ =
      ([], .ok ⟨scalar v :: stack, slots, world⟩)

theorem isBasic_of_unary? {op} (h : unary? op n = some v) (a : Operand) : IsBasic (.of op a) := by
  unfold unary? at h
  split at h <;> first | exact ⟨rfl, rfl⟩ | cases h

theorem isBasic_of_binary? {op m} (h : binary? op n m = some v) (a : Operand) : IsBasic (.of op a) := by
  unfold binary? at h
  split at h <;> first | exact ⟨rfl, rfl⟩ | cases h

variable {D : Interpretation υ ω ε} {scalar : Scalar → υ} {old new : List Instr}

theorem isBasic_pushInt (n : Int) : IsBasic (pushInt n) := ⟨rfl, rfl⟩

variable (hD : D.Calculates scalar)
include hD

theorem basic_pushInt (hn : fitsSigned 32 n) (d : Data υ ω) : D.basic (pushInt n) d = d.push (scalar (.int n)) :=
  congrArg d.push (hD.literal hn d.slots d.world)

theorem basic_of_push? {i} (h : v.push? = some i) : IsBasic i ∧ ∀ d, D.basic i d = d.push (scalar v) := by
  cases v with
  | int n =>
    rw [Scalar.push?] at h
    split at h
    · cases h
      exact ⟨isBasic_pushInt n, basic_pushInt hD ‹_›⟩
    · cases h
  | negativeZero => cases h
  | bool b =>
    cases h
    rw [hD.truth]
    cases b <;> exact ⟨⟨rfl, rfl⟩, fun d => rfl⟩

theorem isBasic_of_computes (h : Computes old new) : (∀ i ∈ old, IsBasic i) ∧ ∀ i ∈ new, IsBasic i := by
  cases h with
  | unary fits value push => simp [isBasic_pushInt, isBasic_of_unary? value, (basic_of_push? hD push).1]
  | binary fits fits' value push => simp [isBasic_pushInt, isBasic_of_binary? value, (basic_of_push? hD push).1]

/-- A computation does what the push of its value does. -/
theorem sequence_of_computes (h : Computes old new) (d : Data υ ω) : D.sequence old d = D.sequence new d := by
  cases h with
  | unary fits value push =>
    simp only [Interpretation.sequence, basic_pushInt hD fits, (basic_of_push? hD push).2, Data.push,
      hD.unary fits value]
    rfl
  | binary fits fits' value push =>
    simp only [Interpretation.sequence, basic_pushInt hD fits, basic_pushInt hD fits', (basic_of_push? hD push).2,
      Data.push, hD.binary fits fits' value]
    rfl

end Execution

namespace Folding

open Execution

variable {υ ω ε : Type} [DecidableEq υ] {D : Interpretation υ ω ε} {scalar : Scalar → υ} {addr : Nat → υ}
  {code code' : List Instr}

/-- Step of the pass. -/
theorem Step.preserves (hD : D.Calculates scalar) (h : Step code code') :
    Preserves D.machine addr (fun _ => False) code code' := by
  obtain ⟨front, _, _, rfl, rfl, old, new, rest, rfl, rfl, hold, hmarkers, h⟩ := h
  obtain ⟨hbasic, hbasic'⟩ := isBasic_of_computes hD h
  have hcalls : ∀ {i : Instr}, IsBasic i → i.control ≠ .call := fun h hcall => nomatch h.1.symm.trans hcall
  refine preserves_of_finals (a := addr 0) hold hmarkers (fun i hi => hcalls (hbasic i hi))
    (fun i hi => hcalls (hbasic' i hi)) h.ne_nil fun d => .inr ?_
  rw [block_sequence hbasic, block_sequence hbasic', sequence_of_computes hD h]

/-- Folding replaces computations on literals by pushes of their values, one after the other, and the code has the same
runs before and after. -/
theorem sameRuns_of_calculates (hcode : Literals code) (hD : D.Calculates scalar) (d : Data υ ω) :
    Relation.ReflTransGen Step (Rule.compact code) (run code) ∧ SameRuns D.machine addr addr code (run code) d := by
  have hcompact : Preserves D.machine addr (fun _ => False) code (Rule.compact code) := preserves_compact [] code
  obtain ⟨-, hsteps, hrun⟩ : Literals (run code) ∧ Relation.ReflTransGen Step (Rule.compact code) (run code) ∧
      Preserves D.machine addr (fun _ => False) code (run code) := by
    refine Rule.repeatedly_preserves
      (P := fun code' => Literals code' ∧ Relation.ReflTransGen Step (Rule.compact code) code' ∧
        Preserves D.machine addr (fun _ => False) code code')
      (fun front rest rest' hfires h => ?_) _ [] _ ⟨fun i hi => hcode i (List.mem_of_mem_filter hi), .refl, hcompact⟩
    obtain ⟨hliterals, hstep⟩ := step_of_rule hfires h.1
    exact ⟨hliterals, h.2.1.tail hstep, h.2.2.trans (hstep.preserves hD)⟩
  exact ⟨hsteps, hrun d fun _ _ _ hbad => hbad⟩

def Scalar.same : Scalar → Scalar → Bool
  | .int n, .int m => n == m
  | v, w => v = w

/-- A machine for scalars alone. -/
def scalars : Interpretation Scalar Unit Scalar where
  undefined := .bool false
  null := .bool false
  bool := .bool
  text _ := .bool false
  constant i _ _ := .int ((intLiteral? i).getD 0)
  truthy v := v = .bool true
  truthy_bool := by decide
  typeName _ := .undefined
  strictEq := Scalar.same
  looseEq v w slots world := ⟨[], .ok [.bool (v.same w)], slots, world⟩
  looseEq_text _ _ _ _ := rfl
  count _ v slots world := ⟨[], .ok [v], slots, world⟩
  other i values slots world :=
    match i.opcode?, values with
    | some op, [.int n] => ⟨[], .ok (unary? op n).toList, slots, world⟩
    | some op, [.int m, .int n] => ⟨[], .ok (binary? op n m).toList, slots, world⟩
    | _, _ => ⟨values, .ok [], slots, world⟩
  fork _ _ slots world := (false, ⟨[], .ok [], slots, world⟩)
  call _ v _ slots world := (true, ⟨[], .ok [v], slots, world⟩)
  exit _ values slots world := (values, .returned (.bool true) slots world)

theorem calculates_scalars : scalars.Calculates id where
  truth _ := rfl
  literal _ _ _ := rfl
  unary := by
    intro op n v _ hvalue a stack slots world
    unfold unary? at hvalue
    split at hvalue <;> cases hvalue <;> rfl
  binary := by
    intro op n m v _ _ hvalue a stack slots world
    unfold binary? at hvalue
    split at hvalue <;> cases hvalue <;> rfl

/-- The difference of 7 and 3, shifted by 33, and products and signs without 32-bit values. -/
def sums : List Instr :=
  [pushInt 7, .line 2, pushInt 3, .plain .sub, pushInt 33, .plain .shl, pushInt 0, pushInt 5, .plain .neg, .plain .mul,
    pushInt (-0x80000000), .plain .neg, .plain .returnValue]

theorem sameRuns_sums : Literals sums ∧
    run sums = [pushInt 8, .line 2, pushInt 0, pushInt (-5), .plain .mul, pushInt (-0x80000000), .plain .neg,
      .plain .returnValue] ∧
    Relation.ReflTransGen Step (Rule.compact sums) (run sums) ∧
    SameRuns scalars.machine (fun n => .int n) (fun n => .int n) sums (run sums) ⟨[], fun _ => .bool false, ()⟩ := by
  have hliterals : Literals sums := by decide
  exact ⟨hliterals, by decide, sameRuns_of_calculates hliterals calculates_scalars _⟩

end Folding

end ScriptBytecode
