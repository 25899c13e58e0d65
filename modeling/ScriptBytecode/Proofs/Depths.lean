import ScriptBytecode.FunctionTree
import ScriptBytecode.Proofs.Flow

/-!
# Functions with depths

The labels of a function under construction are numbered from zero, so that their depths form a list. `Adds`
says what a piece of its code does to the stack.
-/

namespace ScriptBytecode

open Flow

variable {l : Nat} {depths : List (Option Nat)} {o : Opcode}

/-- Is it a placeholder with a name and a scope? -/
def Instr.isNamed (i : Instr) : Bool :=
  match i.op, i.arg with
  | .pseudo _, .atomInt _ _ => true
  | _, _ => false

/-- An operand suits its opcode as far as the stack is concerned: a jump names a label, a count fits its
field, and only an access has a name and a scope. -/
structure Instr.Encodable (i : Instr) : Prop where
  labelled : Layout.Labelled i
  counts : i.op.format.takesCount = true → i.fits = true
  named : i.isNamed = true → i.op.format = .atomU16

/-- The depth of a label, given those of all labels that have one. -/
def depthOf (depths : List (Option Nat)) (l : Nat) : Option Nat :=
  depths.getD l none

theorem depthOf_eq {d} (h : depths[l]? = some d) : depthOf depths l = d := by
  rw [depthOf, List.getD_eq_getElem?_getD, h]
  rfl

theorem depthOf_of_isPrefix {depths'} (h : depths <+: depths') :
    ∀ l < depths.length, depthOf depths l = depthOf depths' l := by
  intro l hl
  obtain ⟨more, rfl⟩ := h
  simp [depthOf, List.getD_eq_getElem?_getD, List.getElem?_append_left hl]

def Value.isFunction : Value → Bool
  | .function .. => true
  | _ => false

/-- Every function of a tree has depths, and the constants hold no other functions. -/
inductive FunctionTree.HasDepths : FunctionTree → Prop
  | mk {frame : Frame} {code : List Instr} {pool : ConstantPool} {children : List FunctionTree}
      (depths : List (Option Nat)) (labels : frame.nextLabel = depths.length)
      (flows : Flows (depthOf depths) (some 0) code)
      (instrs : ∀ i ∈ code, i.Encodable ∧ Below depths.length i)
      (constants : ∀ v, .value v ∈ pool.entries → v.isFunction = false)
      (nested : ∀ t ∈ children, HasDepths t) : HasDepths ⟨frame, code, pool, children⟩

/-! ## Added code -/

/-- Code that takes the stack from depth `d` to depth `e`, if control comes to its end. -/
structure Adds (depths : List (Option Nat)) (d : Nat) (code : List Instr) (e : Nat) : Prop where
  flows : Flows (depthOf depths) (some d) code
  instrs : ∀ i ∈ code, i.Encodable ∧ Below depths.length i
  ends : Under (through (depthOf depths) code (some d)) (some e)

theorem adds_nil (depths : List (Option Nat)) (d : Nat) : Adds depths d [] d where
  flows := trivial
  instrs := nofun
  ends := .refl _

theorem Adds.mono {depths' d e code} (h : Adds depths d code e) (hle : depths <+: depths') : Adds depths' d code e := by
  have hsame := depthOf_of_isPrefix hle
  have hbelow : ∀ i ∈ code, Below depths.length i := fun i hi => (h.instrs i hi).2
  refine ⟨h.flows.congr hsame hbelow, ?_, ?_⟩
  · intro i hi
    obtain ⟨hencodable, hlabels⟩ := h.instrs i hi
    exact ⟨hencodable, hlabels.mono hle.length_le⟩
  · rw [← through_congr hsame hbelow]
    exact h.ends

theorem Adds.append {d e f a b} (ha : Adds depths d a e) (hb : Adds depths e b f) : Adds depths d (a ++ b) f where
  flows := flows_append.mpr ⟨ha.flows, ha.ends.flows hb.flows⟩
  instrs := by
    intro i hi
    rcases List.mem_append.mp hi with hi | hi
    · exact ha.instrs i hi
    · exact hb.instrs i hi
  ends := by
    rw [through_append]
    exact ha.ends.through.trans hb.ends

/-! ## Kinds of opcodes -/

namespace Opcode

/-- Takes `p` values, puts `q` values and passes control on. -/
def isPlain (o : Opcode) (p q : Nat) : Bool :=
  o.info.pops == p && o.info.pushes == q && !o.isTerminator && !o.isJump && !o.format.takesCount

/-- Takes `p` values and never passes control on. -/
def isLast (o : Opcode) (p : Nat) : Bool :=
  o.info.pops == p && o.isTerminator && !o.isJump && !o.format.takesCount

/-- Takes `p` values and as many arguments as its operand says, and puts `q` values. -/
def isCall (o : Opcode) (p q : Nat) : Bool :=
  o.info.pops == p && o.info.pushes == q && !o.isTerminator && o.format == .count

/-- A branch that takes `p` values and puts `q` values, wherever it leads. -/
def isBranch (o : Opcode) (p q : Nat) : Bool :=
  o.info.pops == p && o.info.pushes == q && (o == .ifFalse || o == .ifTrue || o == .catchTo)

/-- The number of values that are left of `p` values after some opcodes in a row. -/
def chain? : List Opcode → Nat → Option Nat
  | [], p => some p
  | o :: os, p =>
    if o.isPlain o.info.pops o.info.pushes && o.info.pops ≤ p then
      chain? os (p - o.info.pops + o.info.pushes)
    else none

end Opcode

/-- Takes `p` values and puts `q` values. -/
def Pseudo.isPlain (o : Pseudo) (p q : Nat) : Bool :=
  o.info.pops == p && o.info.pushes == q && !o.format.hasLabel && !o.format.takesCount

/-- An access by name that takes `p` values and puts `q` values. -/
def Pseudo.isAccess (o : Pseudo) (p q : Nat) : Bool :=
  o.isPlain p q && o.format == .atomU16

namespace Instr

theorem stackEffect_of_not_count (i : Instr) (h : i.op.format.takesCount = false) :
    i.stackEffect = (i.op.info.pops, i.op.info.pushes) := by
  have hformat : i.op.info.format.takesCount = false := h
  unfold stackEffect
  dsimp only
  split
  · rename_i heq
    rw [heq] at hformat
    cases hformat
  · rename_i heq
    rw [heq] at hformat
    cases hformat
  · rename_i heq
    rw [heq] at hformat
    cases hformat
  · rfl

theorem stackEffect_of_call (h : o.format = .count) (n : Int) :
    (Instr.of o (.int n)).stackEffect = (o.info.pops + n.toNat, o.info.pushes) := by
  have hformat : (Instr.of o (.int n)).op.info.format = .count := h
  unfold stackEffect
  dsimp only
  rw [hformat]
  rfl

theorem target?_of_not_jump (h : o.isJump = false) (arg : Operand) : (Instr.of o arg).target? = none := by
  rw [Instr.of, target?_final, h]
  rfl

theorem encodable_of_plain (h : o.isJump = false) (hcount : o.format.takesCount = false) (arg : Operand) :
    (Instr.of o arg).Encodable where
  labelled := fun hlabel => absurd (h.symm.trans hlabel) (by decide)
  counts := fun htakes => absurd (hcount.symm.trans htakes) (by decide)
  named := nofun

end Instr

/-! ## Single instructions -/

section

variable {depths : List (Option Nat)} {d e k : Nat} {o : Opcode}

/-- An instruction that is reached at a depth it can do with. What is behind it counts only if control
comes there. -/
theorem adds_put {i : Instr} (hencodable : i.Encodable) (hend : i.endLabel? = none) (hpops : i.stackEffect.1 ≤ d)
    (htarget : ∀ l, i.target? = some l → depths[l]? = some (some (i.depthAtTarget d)))
    (hbehind : i.isExit = false → (i.op.format.takesCount → d ≤ StackSize.limit) →
      i.depthBehind d = e) : Adds depths d [i] e := by
  refine ⟨⟨?_, trivial⟩, ?_, ?_⟩
  · rw [allows_some (marked?_of_endLabel? hend)]
    exact ⟨hpops, fun l hl => depthOf_eq (htarget l hl)⟩
  · simp only [List.mem_singleton, forall_eq]
    refine ⟨hencodable, fun l hl => ?_⟩
    exact (List.getElem?_eq_some_iff.mp (htarget l hl)).1
  · rw [through_cons, through_nil, pass_some hend]
    split
    · exact under_none _
    · rename_i hpass
      simp only [Bool.or_eq_true, Bool.and_eq_true, decide_eq_true_eq, not_or, not_and,
        Bool.not_eq_true] at hpass
      rw [hbehind hpass.1 fun hcount => by have := hpass.2 hcount; omega]
      exact .refl _

/-- Opcodes with any operand that has no label. -/
theorem adds_plain (p q : Nat) (arg : Operand) (h : o.isPlain p q) : Adds depths (k + p) [.of o arg] (k + q) := by
  simp only [Opcode.isPlain, Bool.and_eq_true, beq_iff_eq, Bool.not_eq_true'] at h
  obtain ⟨⟨⟨⟨rfl, rfl⟩, hexit⟩, hjump⟩, hcount⟩ := h
  have heffect := (Instr.of o arg).stackEffect_of_not_count hcount
  refine adds_put (Instr.encodable_of_plain hjump hcount arg) rfl ?_ ?_ ?_
  · rw [heffect]
    exact Nat.le_add_left _ _
  · intro l hl
    rw [Instr.target?_of_not_jump hjump] at hl
    cases hl
  · intro _ _
    rw [Instr.depthBehind, heffect]
    exact congrArg (· + _) (Nat.add_sub_cancel _ _)

/-- Behind an opcode that never passes control on, any depth will do. -/
theorem adds_last (p : Nat) (arg : Operand) (h : o.isLast p) (e : Nat) : Adds depths (k + p) [.of o arg] e := by
  simp only [Opcode.isLast, Bool.and_eq_true, beq_iff_eq, Bool.not_eq_true'] at h
  obtain ⟨⟨⟨rfl, hexit⟩, hjump⟩, hcount⟩ := h
  have heffect := (Instr.of o arg).stackEffect_of_not_count hcount
  refine adds_put (Instr.encodable_of_plain hjump hcount arg) rfl ?_ ?_ ?_
  · rw [heffect]
    exact Nat.le_add_left _ _
  · intro l hl
    rw [Instr.target?_of_not_jump hjump] at hl
    cases hl
  · intro hpasses
    rw [show (Instr.of o arg).isExit = true from hexit] at hpasses
    cases hpasses

/-- An instruction that takes `n` arguments above its other values. -/
theorem adds_call (p q n : Nat) (h : o.isCall p q) :
    Adds depths (k + p + n) [.of o (.int (n % 0x10000 : Nat))] (k + q) := by
  simp only [Opcode.isCall, Bool.and_eq_true, beq_iff_eq, Bool.not_eq_true'] at h
  obtain ⟨⟨⟨rfl, rfl⟩, hexit⟩, hformat⟩ := h
  have hjump : o.isJump = false := by rw [Opcode.isJump, hformat]; rfl
  have heffect := Instr.stackEffect_of_call hformat (n % 0x10000 : Nat)
  have hle : n % 0x10000 ≤ n := Nat.mod_le n _
  refine adds_put ⟨?_, ?_, fun h => by cases h⟩ rfl ?_ ?_ ?_
  · intro h
    rw [show (Instr.of o (.int (n % 0x10000 : Nat))).op.format.hasLabel = o.isJump from rfl, hjump] at h
    cases h
  · intro _
    have hlt : n % 0x10000 < 0x10000 := Nat.mod_lt n (by decide)
    change o.format.shape.fits (.int (n % 0x10000 : Nat)) = true
    have hpow : Nat.pow 256 2 = 0x10000 := rfl
    simp only [hformat, Format.shape, Shape.fits, hpow, Bool.and_eq_true, decide_eq_true_eq]
    omega
  · rw [heffect]
    simp only [Int.toNat_natCast]
    omega
  · intro l hl
    rw [Instr.target?_of_not_jump hjump] at hl
    cases hl
  · -- a stack that is deeper than the operand can count has no depth behind the call
    intro _ hlimit
    have hlimit : k + o.info.pops + n ≤ 65535 :=
      hlimit (by rw [show (Instr.of o (.int (n % 0x10000 : Nat))).op.format = o.format from rfl, hformat]; rfl)
    rw [Instr.depthBehind, heffect, Nat.mod_eq_of_lt (by omega)]
    simp only [Int.toNat_natCast]
    omega

/-- A branch, to a label that has the depth behind it. -/
theorem adds_branch (p q : Nat) (h : o.isBranch p q) (hl : depths[l]? = some (some (k + q))) :
    Adds depths (k + p) [.of o (.label l)] (k + q) := by
  have hop : o.info.pops = p ∧ o.info.pushes = q ∧ o.isTerminator = false ∧ o.isJump = true ∧
      o.format.takesCount = false ∧ ∀ d, StackSize.atTarget o d = d := by
    simp only [Opcode.isBranch, Bool.and_eq_true, Bool.or_eq_true, beq_iff_eq] at h
    obtain ⟨⟨rfl, rfl⟩, (rfl | rfl) | rfl⟩ := h
    all_goals exact ⟨rfl, rfl, rfl, rfl, rfl, fun _ => rfl⟩
  obtain ⟨rfl, rfl, hexit, hjump, hcount, htarget⟩ := hop
  have heffect := (Instr.of o (.label l)).stackEffect_of_not_count hcount
  have hbehind : (Instr.of o (.label l)).depthBehind (k + o.info.pops) = k + o.info.pushes := by
    rw [Instr.depthBehind, heffect]
    exact congrArg (· + _) (Nat.add_sub_cancel _ _)
  refine adds_put ⟨fun _ => rfl, fun h => absurd (hcount.symm.trans h) (by decide), nofun⟩ rfl ?_ ?_ ?_
  · rw [heffect]
    exact Nat.le_add_left _ _
  · intro l' hl'
    rw [Instr.of, Instr.target?_final, hjump] at hl'
    cases hl'
    have hat : (Instr.of o (.label l)).depthAtTarget (k + o.info.pops) = k + o.info.pushes := by
      change StackSize.atTarget o ((Instr.of o (.label l)).depthBehind (k + o.info.pops)) = _
      rw [hbehind, htarget]
    rwa [hat]
  · exact fun _ _ => hbehind

/-- Behind a jump, any depth will do. -/
theorem adds_goto (hl : depths[l]? = some (some d)) (e : Nat) : Adds depths d [.of .goto (.label l)] e := by
  refine adds_put ⟨fun _ => rfl, nofun, nofun⟩ rfl (Nat.zero_le d) ?_ ?_
  · intro l' hl'
    cases hl'
    exact hl
  · intro h
    cases h

/-- A label is marked where its depth is reached. -/
theorem adds_mark (hl : depths[l]? = some (some d)) : Adds depths d [.mark l] d := by
  refine ⟨⟨?_, trivial⟩, ?_, ?_⟩
  · rw [allows_mark (i := .mark l) rfl, depthOf_eq hl]
    exact fun _ h => h
  · simp only [List.mem_singleton, forall_eq]
    refine ⟨⟨fun _ => rfl, nofun, nofun⟩, fun l' hl' => ?_⟩
    cases hl'
    exact (List.getElem?_eq_some_iff.mp hl).1
  · rw [through_cons, through_nil, pass_end (i := .mark l) rfl, depthOf_eq hl]
    exact .refl _

/-- The placeholder of a reference, whose code ends with a label. -/
theorem adds_makeRef {name scope} (hl : depths[l]? = some (some (d + 2))) :
    Adds depths d [⟨.pseudo .makeRef, .atomLabel name l scope⟩] (d + 2) := by
  refine ⟨⟨?_, trivial⟩, ?_, ?_⟩
  · rw [allows_some rfl]
    refine ⟨Nat.zero_le d, fun l' hl' => ?_⟩
    cases hl'
    exact depthOf_eq hl
  · simp only [List.mem_singleton, forall_eq]
    refine ⟨⟨fun _ => rfl, nofun, nofun⟩, fun l' hl' => ?_⟩
    cases hl'
    exact (List.getElem?_eq_some_iff.mp hl).1
  · rw [through_cons, through_nil, pass_end (l := l) rfl, depthOf_eq hl]
    exact .refl _

end

end ScriptBytecode
