import Mathlib.Data.Option.Basic
import ScriptBytecode.Optimizer.Folding
import ScriptBytecode.Optimizer.Peephole
import ScriptBytecode.Proofs.Layout

/-!
# What rules replace

A rule looks at instructions of one basic block. Markers may stand between them; they do nothing and stay. What the
rules look at and what they put in its place is a relation between instructions without markers, for folding
(`Folding.Folds`) and for the peephole rules (`Peephole.Fires`).
-/

namespace ScriptBytecode

variable {code : List Instr} {i : Instr}

/-! ## Markers between instructions -/

/-- Code without markers. -/
def finals (code : List Instr) : List Instr :=
  code.filter (·.opcode?.isSome)

@[simp] theorem finals_nil : finals [] = [] := rfl

@[simp] theorem finals_append (front rest : List Instr) : finals (front ++ rest) = finals front ++ finals rest :=
  List.filter_append ..

@[simp] theorem finals_of (op : Opcode) (arg : Operand) (rest : List Instr) :
    finals (.of op arg :: rest) = .of op arg :: finals rest := rfl

theorem mem_finals {op} (h : i ∈ code) (hop : i.opcode? = some op) : i ∈ finals code :=
  List.mem_filter.mpr ⟨h, by simp [hop]⟩

/-- The markers of code. -/
def markers (code : List Instr) : List Instr :=
  code.filter (·.opcode?.isNone)

@[simp] theorem markers_append (front rest : List Instr) : markers (front ++ rest) = markers front ++ markers rest :=
  List.filter_append ..

@[simp] theorem markers_of (op : Opcode) (arg : Operand) (rest : List Instr) :
    markers (.of op arg :: rest) = markers rest := rfl

/-- Markers between the instructions of a basic block. -/
structure IsGap (gap : List Instr) : Prop where
  finals : finals gap = []
  marks : Layout.marks gap = []

theorem Rule.eq_of_next? {gap rest j} (h : next? code = some (gap, j, rest)) :
    code = gap ++ j :: rest ∧ IsGap gap ∧ ∃ op arg, j = .of op arg := by
  induction code generalizing gap with
  | nil => cases h
  | cons i code ih =>
    obtain ⟨op, arg⟩ := i
    unfold next? at h
    dsimp only at h
    split at h
    · cases h
    · rename_i p hlabel
      obtain ⟨⟨gap', j', rest'⟩, hnext, heq⟩ := Option.map_eq_some_iff.mp h
      cases heq
      obtain ⟨rfl, hgap, hj⟩ := ih hnext
      have hmark : Layout.marked? ⟨.pseudo p, arg⟩ = none :=
        if_neg fun hmark => hlabel (Op.pseudo.inj (by simpa [Instr.isMark] using hmark))
      refine ⟨rfl, ⟨hgap.finals, ?_⟩, hj⟩
      rw [Layout.marks, List.filterMap_cons_none hmark]
      exact hgap.marks
    · cases h
      exact ⟨rfl, ⟨rfl, rfl⟩, _, _, rfl⟩

/-- The beginning of the code, without a label in it, is replaced as `R` says; its markers stay. -/
def ReplacedAt (R : List Instr → List Instr → Prop) (code code' : List Instr) : Prop :=
  ∃ old new rest, code = old ++ rest ∧ code' = new ++ rest ∧ Layout.marks old = [] ∧ markers new = markers old ∧
    R (finals old) (finals new)

theorem ReplacedAt.imp {R R' code'} (h : ReplacedAt R code code') (hR : ∀ {old new}, R old new → R' old new) :
    ReplacedAt R' code code' := by
  obtain ⟨old, new, rest, hcode, hcode', hmarks, hmarkers, hold⟩ := h
  exact ⟨old, new, rest, hcode, hcode', hmarks, hmarkers, hR hold⟩

theorem marks_eq_of_markers {old new} (h : markers new = markers old) : Layout.marks new = Layout.marks old := by
  have hmarkers : ∀ code : List Instr, Layout.marks (markers code) = Layout.marks code := by
    intro code
    refine List.filterMap_filter.trans (List.filterMap_congr fun i _ => ?_)
    obtain ⟨op, arg⟩ := i
    cases op <;> rfl
  rw [← hmarkers new, h, hmarkers old]

section Replaced

variable {R : List Instr → List Instr → Prop} {op next third : Opcode} {a b c : Operand}
  {gap gap' new rest code' : List Instr}

theorem replacedAt_pair (hgap : IsGap gap) (hcode' : code' = new ++ rest) (hmarkers : markers new = markers gap)
    (h : R [.of op a, .of next b] (finals new)) : ReplacedAt R (.of op a :: (gap ++ .of next b :: rest)) code' := by
  refine ⟨.of op a :: (gap ++ [.of next b]), new, rest, by simp, hcode', by simp [hgap.marks], ?_, ?_⟩
  · rw [hmarkers, markers_of, markers_append]
    exact (List.append_nil _).symm
  · rw [finals_of, finals_append, hgap.finals]
    exact h

theorem replacedAt_triple (hgap : IsGap gap) (hgap' : IsGap gap') (hcode' : code' = new ++ rest)
    (hmarkers : markers new = markers (gap ++ gap')) (h : R [.of op a, .of next b, .of third c] (finals new)) :
    ReplacedAt R (.of op a :: (gap ++ .of next b :: (gap' ++ .of third c :: rest))) code' := by
  refine ⟨.of op a :: (gap ++ .of next b :: (gap' ++ [.of third c])), new, rest, by simp, hcode',
    by simp [hgap.marks, hgap'.marks], ?_, ?_⟩
  · rw [hmarkers, markers_of, markers_append, markers_append, markers_of, markers_append]
    exact congrArg (markers gap ++ ·) (List.append_nil _).symm
  · rw [finals_of, finals_append, finals_of, finals_append, hgap.finals, hgap'.finals]
    exact h

/-- The first instruction is replaced where it stands. -/
theorem replacedAt_first (hgap : IsGap gap) {op' c} (h : R [.of op a, .of next b] [.of op' c]) :
    ReplacedAt R (.of op a :: (gap ++ .of next b :: rest)) (.of op' c :: gap ++ rest) :=
  replacedAt_pair hgap rfl (by simp) (by simpa [hgap.finals] using h)

/-- The second instruction is replaced where it stands. -/
theorem replacedAt_second (hgap : IsGap gap) {op'} (h : R [.of op a, .of next b] [.of op' b]) :
    ReplacedAt R (.of op a :: (gap ++ .of next b :: rest)) (gap ++ .of op' b :: rest) :=
  replacedAt_pair hgap (List.append_cons ..) (by simp [markers, Instr.of, Instr.opcode?])
    (by simpa [hgap.finals] using h)

end Replaced

/-! ## Folding -/

namespace Folding

theorem intLiteral?_eq_some {n} (h : intLiteral? i = some n) : i = .of .pushI32 (.int n) := by
  obtain ⟨op, arg⟩ := i
  unfold intLiteral? at h
  split at h
  · cases h
    simp_all [Instr.of]
  · cases h

/-- A computation on literals and the push of its value. -/
inductive Folds : List Instr → List Instr → Prop where
  | neg {n : Int} {a : Operand} (zero : n ≠ 0) (least : n ≠ -0x80000000) : Folds [pushInt n, .of .neg a] [pushInt (-n)]
  | plus {n : Int} {a : Operand} : Folds [pushInt n, .of .plus a] [pushInt n]
  | binary {n m : Int} {op op' : Opcode} {a b : Operand} (value : fold? op n m = some (.of op' b)) :
      Folds [pushInt n, pushInt m, .of op a] [.of op' b]

theorem fold?_eq_of {op n m} (h : fold? op n m = some i) : (∃ k, i = pushInt k) ∨ ∃ b, i = pushBool b := by
  have hexact : ∀ {k : Int}, pushExact k = some i → ∃ k, i = pushInt k := by
    intro k h
    unfold pushExact at h
    split at h
    · exact ⟨k, (Option.some.inj h).symm⟩
    · cases h
  unfold fold? at h
  split at h
  case h_3 =>
    split at h
    · cases h
    · exact .inl (hexact h)
  case h_1 | h_2 => exact .inl (hexact h)
  case h_17 => cases h
  all_goals
    cases h
    first | exact .inl ⟨_, rfl⟩ | exact .inr ⟨_, rfl⟩

theorem foldsAt_of_rule {code'} (h : rule code = some code') : ReplacedAt Folds code code' := by
  cases code with
  | nil => cases h
  | cons first tail =>
    obtain ⟨n, hn, hrest⟩ := Option.bind_eq_some_iff.mp h
    obtain rfl := intLiteral?_eq_some hn
    obtain ⟨⟨gap, second, rest⟩, hnext, hsecond⟩ := Option.bind_eq_some_iff.mp hrest
    obtain ⟨rfl, hgap, op, arg, rfl⟩ := Rule.eq_of_next? hnext
    dsimp only at hsecond
    split at hsecond
    · rename_i hneg
      simp only [Bool.and_eq_true, decide_eq_true_eq] at hneg
      obtain rfl : op = .neg := by simpa [Instr.is, Instr.of] using hneg.1.1
      cases hsecond
      exact replacedAt_first hgap (.neg hneg.1.2 hneg.2)
    · split at hsecond
      · rename_i hplus
        obtain rfl : op = .plus := by simpa [Instr.is, Instr.of] using hplus
        cases hsecond
        exact replacedAt_first hgap .plus
      · obtain ⟨m, hm, hthird⟩ := Option.bind_eq_some_iff.mp hsecond
        obtain ⟨⟨gap', third, rest'⟩, hnext', hfold⟩ := Option.bind_eq_some_iff.mp hthird
        obtain ⟨rfl, hgap', op', arg', rfl⟩ := Rule.eq_of_next? hnext'
        obtain ⟨_, hop', hfold⟩ := Option.bind_eq_some_iff.mp hfold
        cases hop'
        obtain ⟨folded, hfolded, hcode'⟩ := Option.bind_eq_some_iff.mp hfold
        rw [intLiteral?_eq_some hm]
        cases hcode'
        obtain ⟨o, x, rfl⟩ : ∃ o x, folded = .of o x := by
          rcases fold?_eq_of hfolded with ⟨k, rfl⟩ | ⟨b, rfl⟩ <;> exact ⟨_, _, rfl⟩
        exact replacedAt_triple hgap hgap' rfl (by simp)
          (by simpa [pushInt, hgap.finals, hgap'.finals] using Folds.binary (a := arg') hfolded)

end Folding

/-! ## Peephole rules -/

namespace Peephole

/-- The branch for a truth value. -/
def branch (taken : Bool) : Opcode :=
  if taken then .ifTrue else .ifFalse

/-- The stores of `bareStore`, each with the insert before it. -/
def storePairs : List (Opcode × Opcode) :=
  [(.insert2, .putField), (.insert2, .putPrivateField), (.insert3, .putArrayEl), (.insert3, .putRefValue),
    (.insert4, .putSuperValue)]

/-- A store whose value is kept below it and then dropped, and the store alone. -/
inductive BareStore : List Instr → List Instr → Prop where
  | intro {op next : Opcode} {a b c : Operand} (pair : (op, next) ∈ storePairs) :
      BareStore [.of op a, .of next b, .of .drop c] [.of next b]

/-- The instructions that a rule looks at, and those that it puts in their place. -/
inductive Fires : List Instr → List Instr → Prop where
  | pushDrop {op : Opcode} {a b : Operand} (push : isPurePush op = true) : Fires [.of op a, .of .drop b] []
  | storeLoad {op : Opcode} {ops : SlotOps} {a : Operand} (family : slotOps? op = some ops) :
      Fires [.of ops.put a, .of ops.get a] [.of ops.set a]
  | storeDrop {op : Opcode} {ops : SlotOps} {a b : Operand} (family : slotOps? op = some ops) :
      Fires [.of ops.set a, .of .drop b] [.of ops.put a]
  | dupStore {op : Opcode} {ops : SlotOps} {a b : Operand} (family : slotOps? op = some ops) :
      Fires [.of .dup a, .of ops.put b] [.of ops.set b]
  | count (up : Bool) {a b : Operand} (fits : a.int?.getD (-1) ≤ 255) :
      Fires [.of .getLoc a, .of (if up then .inc else .dec) b, .of .putLoc a] [.of (if up then .incLoc else .decLoc) a]
  | invertBranch (taken : Bool) {a b : Operand} :
      Fires [.of .lnot a, .of (branch taken) b] [.of (branch !taken) b]
  | constantBranch (value taken : Bool) {a b : Operand} :
      Fires [.of (if value then .pushTrue else .pushFalse) a, .of (branch taken) b]
        (if value = taken then [.of .goto b] else [])
  | bareStore {old new : List Instr} (store : BareStore old new) : Fires old new
  | returnUndefined {a b : Operand} : Fires [.of .undefined a, .of .returnValue b] [.plain .returnUndef]
  | typeTest (isUndefined strict : Bool) {a c : Operand} :
      Fires [.of .typeof a, .of .pushAtomValue (.atom (if isUndefined then .undefined else .functionName)),
          .of (if strict then .strictEq else .eq) c]
        [.plain (if isUndefined then .typeofIsUndefined else .typeofIsFunction)]
  | nullTest (isNull : Bool) {a b : Operand} :
      Fires [.of (if isNull then .null else .undefined) a, .of .strictEq b]
        [.plain (if isNull then .isNull else .isUndefined)]

variable {op next : Opcode} {a b : Operand} {gap rest code code' : List Instr}

variable (hgap : IsGap gap)
include hgap

theorem firesAt_pushDrop (h : pushDrop op next gap rest = some code') :
    ReplacedAt Fires (.of op a :: (gap ++ .of next b :: rest)) code' := by
  unfold pushDrop at h
  split at h
  · rename_i hdrop
    simp only [Bool.and_eq_true, decide_eq_true_eq] at hdrop
    obtain ⟨rfl, hpush⟩ := hdrop
    cases h
    exact replacedAt_pair hgap rfl rfl (by simpa [hgap.finals] using .pushDrop hpush)
  · cases h

theorem firesAt_storeLoad (h : storeLoad (.of op a) (.of next b) op next gap rest = some code') :
    ReplacedAt Fires (.of op a :: (gap ++ .of next b :: rest)) code' := by
  obtain ⟨ops, hops, hfires⟩ := Option.bind_eq_some_iff.mp h
  split at hfires
  · rename_i hput
    simp only [Bool.and_eq_true, decide_eq_true_eq] at hput
    obtain ⟨⟨rfl, rfl⟩, hsame⟩ := hput
    obtain rfl : b = a := hsame
    cases hfires
    exact replacedAt_first hgap (.storeLoad hops)
  · split at hfires
    · rename_i hset
      simp only [Bool.and_eq_true, decide_eq_true_eq] at hset
      obtain ⟨rfl, rfl⟩ := hset
      cases hfires
      exact replacedAt_first hgap (.storeDrop hops)
    · cases hfires

theorem firesAt_dupStore (h : dupStore (.of next b) op next gap rest = some code') :
    ReplacedAt Fires (.of op a :: (gap ++ .of next b :: rest)) code' := by
  unfold dupStore at h
  split at h
  · cases h
  · rename_i hdup
    obtain rfl : op = .dup := by simpa using hdup
    obtain ⟨ops, hops, hfires⟩ := Option.bind_eq_some_iff.mp h
    split at hfires
    · rename_i hput
      subst hput
      cases hfires
      exact replacedAt_first hgap (.dupStore hops)
    · cases hfires

theorem firesAt_bump (h : bump (.of op a) op next gap rest = some code') :
    ReplacedAt Fires (.of op a :: (gap ++ .of next b :: rest)) code' := by
  have hfires : op = .getLoc ∧ ∃ fused, (a.int?.getD (-1) ≤ 255 →
        Fires [.of .getLoc a, .of next b, .of .putLoc a] [.of fused a]) ∧ ((Rule.next? rest).bind fun found =>
        if found.2.1.is .putLoc && found.2.1.arg = a && 0 ≤ a.int?.getD (-1) && a.int?.getD (-1) ≤ 255 then
          some (.of fused a :: gap ++ found.1 ++ found.2.2)
        else none) = some code' := by
    unfold bump at h
    dsimp only at h
    split at h
    · split at h <;> cases h
    · rename_i hget
      obtain rfl : op = .getLoc := by simpa using hget
      split at h
      · exact ⟨rfl, .incLoc, .count true, h⟩
      · exact ⟨rfl, .decLoc, .count false, h⟩
      · cases h
  obtain ⟨rfl, fused, hcounts, hfires⟩ := hfires
  obtain ⟨⟨gap', third, rest'⟩, hthird, hput⟩ := Option.bind_eq_some_iff.mp hfires
  obtain ⟨rfl, hgap', op', c, rfl⟩ := Rule.eq_of_next? hthird
  dsimp only at hput
  split at hput
  · rename_i hstore
    simp only [Bool.and_eq_true, decide_eq_true_eq] at hstore
    obtain rfl : op' = .putLoc := by simpa [Instr.is, Instr.of] using hstore.1.1.1
    obtain rfl : c = a := hstore.1.1.2
    cases hput
    exact replacedAt_triple hgap hgap' rfl (by simp) (by simpa [hgap.finals, hgap'.finals] using hcounts hstore.2)
  · cases hput

theorem firesAt_bareStore (h : bareStore (.of next b) op next gap rest = some code') :
    ReplacedAt Fires (.of op a :: (gap ++ .of next b :: rest)) code' := by
  have hfires : (op, next) ∈ storePairs ∧ ((Rule.next? rest).bind fun found =>
      if found.2.1.is .drop then some (gap ++ .of next b :: found.1 ++ found.2.2) else none) = some code' := by
    unfold bareStore at h
    split at h <;> first | exact ⟨by decide, h⟩ | cases h
  obtain ⟨hpair, hfires⟩ := hfires
  obtain ⟨⟨gap', third, rest'⟩, hthird, hdrop⟩ := Option.bind_eq_some_iff.mp hfires
  obtain ⟨rfl, hgap', op', c, rfl⟩ := Rule.eq_of_next? hthird
  dsimp only at hdrop
  split at hdrop
  · rename_i hop
    obtain rfl : op' = .drop := by simpa [Instr.is, Instr.of] using hop
    cases hdrop
    exact replacedAt_triple hgap hgap' rfl (by simp)
      (by simpa [hgap.finals, hgap'.finals] using .bareStore (.intro hpair))
  · cases hdrop

theorem firesAt_invertBranch (h : invertBranch (.of next b) op next gap rest = some code') :
    ReplacedAt Fires (.of op a :: (gap ++ .of next b :: rest)) code' := by
  unfold invertBranch at h
  split at h
  · cases h
    exact replacedAt_second hgap (.invertBranch false)
  · cases h
    exact replacedAt_second hgap (.invertBranch true)
  · cases h

theorem firesAt_constantBranch (h : constantBranch (.of next b) op next gap rest = some code') :
    ReplacedAt Fires (.of op a :: (gap ++ .of next b :: rest)) code' := by
  unfold constantBranch at h
  split at h
  · cases h
    exact replacedAt_second hgap (.constantBranch true true)
  · cases h
    exact replacedAt_second hgap (.constantBranch false false)
  · cases h
    exact replacedAt_pair hgap rfl rfl (by simpa [hgap.finals] using .constantBranch true false)
  · cases h
    exact replacedAt_pair hgap rfl rfl (by simpa [hgap.finals] using .constantBranch false true)
  · cases h

theorem firesAt_returnUndefined (h : returnUndefined op next gap rest = some code') :
    ReplacedAt Fires (.of op a :: (gap ++ .of next b :: rest)) code' := by
  unfold returnUndefined at h
  split at h
  · cases h
    exact replacedAt_first hgap .returnUndefined
  · cases h

theorem firesAt_typeTest (h : typeTest (.of next b) op next gap rest = some code') :
    ReplacedAt Fires (.of op a :: (gap ++ .of next b :: rest)) code' := by
  unfold typeTest at h
  split at h
  · obtain ⟨⟨gap', third, rest'⟩, hthird, hfires⟩ := Option.bind_eq_some_iff.mp h
    obtain ⟨rfl, hgap', op', c, rfl⟩ := Rule.eq_of_next? hthird
    dsimp only at hfires
    split at hfires
    · cases hfires
    · rename_i heq
      obtain ⟨strict, rfl⟩ : ∃ strict : Bool, op' = if strict then .strictEq else .eq := by
        rcases (by simpa [Instr.is, Instr.of, Decidable.or_iff_not_imp_left] using heq : op' = .strictEq ∨ op' = .eq)
          with rfl | rfl
        · exact ⟨true, rfl⟩
        · exact ⟨false, rfl⟩
      have htest : ∀ isUndefined : Bool, b = .atom (if isUndefined then .undefined else .functionName) →
          ReplacedAt Fires (.of .typeof a :: (gap ++ .of .pushAtomValue b ::
              (gap' ++ .of (if strict then .strictEq else .eq) c :: rest')))
            (.plain (if isUndefined then .typeofIsUndefined else .typeofIsFunction) :: gap ++ gap' ++ rest') := by
        rintro isUndefined rfl
        exact replacedAt_triple hgap hgap' rfl (by simp [Instr.plain])
          (by simpa [Instr.plain, hgap.finals, hgap'.finals] using .typeTest isUndefined strict)
      split at hfires
      · rename_i hname
        cases hfires
        exact htest true hname
      · split at hfires
        · rename_i hname
          cases hfires
          exact htest false hname
        · cases hfires
  · cases h

theorem firesAt_nullTest (h : nullTest op next gap rest = some code') :
    ReplacedAt Fires (.of op a :: (gap ++ .of next b :: rest)) code' := by
  unfold nullTest at h
  split at h
  · cases h
    exact replacedAt_first hgap (.nullTest true)
  · cases h
    exact replacedAt_first hgap (.nullTest false)
  · cases h

omit hgap in
theorem firesAt_of_rule (h : rule code = some code') : ReplacedAt Fires code code' := by
  cases code with
  | nil => cases h
  | cons first tail =>
    obtain ⟨op, hop, hnext⟩ := Option.bind_eq_some_iff.mp h
    obtain ⟨⟨gap, second, rest⟩, hsecond, hrule⟩ := Option.bind_eq_some_iff.mp hnext
    obtain ⟨rfl, hgap, next, b, rfl⟩ := Rule.eq_of_next? hsecond
    obtain ⟨_, hnext', hrules⟩ := Option.bind_eq_some_iff.mp hrule
    cases hnext'
    obtain ⟨op', a⟩ := first
    cases op' with
    | pseudo op' => cases hop
    | final op' =>
      cases hop
      simp only [Option.orElse_eq_some] at hrules
      rcases hrules with h | ⟨-, h | ⟨-, h | ⟨-, h | ⟨-, h | ⟨-, h | ⟨-, h | ⟨-, h | ⟨-, h | ⟨-, h⟩⟩⟩⟩⟩⟩⟩⟩⟩
      · exact firesAt_pushDrop hgap h
      · exact firesAt_storeLoad hgap h
      · exact firesAt_dupStore hgap h
      · exact firesAt_bump hgap h
      · exact firesAt_invertBranch hgap h
      · exact firesAt_constantBranch hgap h
      · exact firesAt_bareStore hgap h
      · exact firesAt_returnUndefined hgap h
      · exact firesAt_typeTest hgap h
      · exact firesAt_nullTest hgap h

end Peephole

end ScriptBytecode
