import ScriptBytecode.Proofs.FinishedCode
import ScriptBytecode.Proofs.Operands
import ScriptBytecode.Proofs.Optimizer.Firing

/-!
# Rules keep depths

A rule replaces instructions by others with the same effect on the stack, which refer to nothing new (`Exchanges`).
Line markers between them do not matter. What straight code does to the stack is summed up by the number of values that
it takes and the number that it puts in their place.
-/

namespace ScriptBytecode

open Flow

variable {L : Nat → Option Nat} {cur : Option Nat}

variable {R : Referents}

/-! ## Line markers -/

def Instr.isLine (i : Instr) : Bool :=
  i.op == .pseudo .lineNum

/-- Code without its line markers. -/
def bare (code : List Instr) : List Instr :=
  code.filter fun i => !i.isLine

@[simp] theorem bare_append (a b : List Instr) : bare (a ++ b) = bare a ++ bare b :=
  List.filter_append ..

@[simp] theorem bare_of (op : Opcode) (arg : Operand) (rest : List Instr) :
    bare (.of op arg :: rest) = .of op arg :: bare rest := rfl

variable {i : Instr}

theorem bare_cons_line (h : i.isLine) (rest : List Instr) : bare (i :: rest) = bare rest :=
  List.filter_cons_of_neg (by simp [h])

theorem bare_cons (h : i.isLine = false) (rest : List Instr) : bare (i :: rest) = i :: bare rest :=
  List.filter_cons_of_pos (by simp [h])

@[simp] theorem Instr.arg_of (op : Opcode) (arg : Operand) : (Instr.of op arg).arg = arg := rfl

/-- Code whose last instruction does not pass control on; only line markers stand behind it. -/
def EndsInExit (code : List Instr) : Prop :=
  ∃ i, (bare code).getLast? = some i ∧ i.isExit = true

/-- Where code ends with more than line markers, its end decides. -/
theorem endsInExit_append {front code} (h : bare code ≠ []) : EndsInExit (front ++ code) ↔ EndsInExit code := by
  unfold EndsInExit
  rw [bare_append, List.getLast?_append_of_ne_nil _ h]

variable {rest : List Instr}

theorem endsInExit_append_cons {front} (i : Instr) (h : bare rest ≠ []) :
    EndsInExit (front ++ i :: rest) ↔ EndsInExit rest := by
  rw [← List.singleton_append, ← List.append_assoc, endsInExit_append h]

variable {code : List Instr}

theorem EndsInExit.append (h : EndsInExit code) (front : List Instr) : EndsInExit (front ++ code) := by
  obtain ⟨i, hi, hexit⟩ := h
  exact ⟨i, by rw [bare_append, List.getLast?_append, hi, Option.some_or], hexit⟩

theorem endsInExit_append_lines {front} (h : bare code = []) : EndsInExit (front ++ code) ↔ EndsInExit front := by
  unfold EndsInExit
  rw [bare_append, h, List.append_nil]

theorem Instr.isLine_of_isExit (h : i.isExit) : i.isLine = false := by
  obtain ⟨op, arg⟩ := i
  cases op with
  | final op => rfl
  | pseudo op => cases h

/-- The first instruction is the exit, or the code behind it ends with one. -/
theorem endsInExit_cons : EndsInExit (i :: rest) ↔ i.isExit ∧ bare rest = [] ∨ EndsInExit rest := by
  constructor
  · intro h
    by_cases hbare : bare rest = []
    · obtain ⟨j, hj, hexit⟩ := h
      cases hline : i.isLine with
      | true =>
        rw [bare_cons_line hline, hbare] at hj
        cases hj
      | false =>
        rw [bare_cons hline, hbare] at hj
        cases hj
        exact .inl ⟨hexit, hbare⟩
    · exact .inr ((@endsInExit_append [i] rest hbare).mp h)
  · rintro (⟨hexit, hbare⟩ | h)
    · exact ⟨i, by rw [bare_cons (Instr.isLine_of_isExit hexit), hbare]; rfl, hexit⟩
    · exact h.append [i]

/-! ## Replacing code -/

/-- All instructions can be laid out. -/
def Workable (code : List Instr) : Prop :=
  ∀ i ∈ code, i.Encodable ∧ Layout.Placeable i

/-- The second code can stand in the place of the first. -/
structure Replaces (code code' : List Instr) : Prop where
  flows : ∀ {L cur}, Flows L cur code → Flows L cur code'
  workable : Workable code → Workable code'
  marks : (Layout.marks code').Sublist (Layout.marks code)
  refers : ∀ {R}, (∀ i ∈ code, i.Refers R) → ∀ i ∈ code', i.Refers R
  exits : ∀ {front}, EndsInExit (front ++ code) → EndsInExit (front ++ code')

namespace Replaces

theorem refl (code : List Instr) : Replaces code code :=
  ⟨fun h => h, fun h => h, List.Sublist.refl _, fun h => h, fun h => h⟩

theorem trans {a b c} (h : Replaces a b) (h' : Replaces b c) : Replaces a c :=
  ⟨fun ha => h'.flows (h.flows ha), fun ha => h'.workable (h.workable ha), h'.marks.trans h.marks,
    fun ha => h'.refers (h.refers ha), fun ha => h'.exits (h.exits ha)⟩

theorem append {a b} (front : List Instr) (h : Replaces a b) : Replaces (front ++ a) (front ++ b) where
  flows := by
    intro L cur hflows
    rw [flows_append] at hflows ⊢
    exact ⟨hflows.1, h.flows hflows.2⟩
  workable := by
    intro ha
    unfold Workable at *
    rw [List.forall_mem_append] at ha ⊢
    exact ⟨ha.1, h.workable ha.2⟩
  marks := by
    unfold Layout.marks
    rw [List.filterMap_append, List.filterMap_append]
    exact (List.Sublist.refl _).append h.marks
  refers := by
    intro R ha
    rw [List.forall_mem_append] at ha ⊢
    exact ⟨ha.1, h.refers ha.2⟩
  exits := by
    intro front' ha
    rw [← List.append_assoc] at ha ⊢
    exact h.exits ha

end Replaces

theorem Tidy.workable (h : Tidy code) : Workable code :=
  fun i hi => ⟨h.instrs i hi, h.placeable i hi⟩

theorem Tidy.replace {code'} (h : Tidy code) (h' : Replaces code code') : Tidy code' := by
  have hworkable := h'.workable h.workable
  obtain ⟨L, hflows⟩ := h.flows
  exact ⟨⟨⟨L, h'.flows hflows⟩, fun i hi => (hworkable i hi).1⟩, fun i hi => (hworkable i hi).2,
    h'.marks.nodup h.marks⟩

/-- An instruction that does nothing may be left out. -/
theorem Flow.flows_idle (hend : i.endLabel? = none) (heffect : i.stackEffect = (0, 0)) (htarget : i.target? = none)
    (hexit : i.isExit = false) (hcount : i.op.format.takesCount = false) :
    Flows L cur (i :: rest) ↔ Flows L cur rest := by
  have hpass : pass L i cur = cur := by
    cases cur with
    | none => exact pass_none hend
    | some d =>
      rw [pass_some hend, hexit, hcount, Instr.depthBehind, heffect]
      rfl
  have hallows : Allows L i cur := by
    cases cur with
    | none => exact allows_none i
    | some d =>
      rw [allows_some (marked?_of_endLabel? hend), heffect, htarget]
      refine ⟨Nat.zero_le d, fun l hl => ?_⟩
      cases hl
  rw [Flows, hpass]
  exact ⟨fun h => h.2, fun h => ⟨hallows, h⟩⟩

theorem flows_line (h : i.isLine) : Flows L cur (i :: rest) ↔ Flows L cur rest := by
  obtain ⟨op, arg⟩ := i
  obtain rfl : op = .pseudo .lineNum := by simpa [Instr.isLine] using h
  exact flows_idle rfl rfl rfl rfl rfl

theorem flows_bare : Flows L cur (bare code) ↔ Flows L cur code := by
  induction code generalizing cur with
  | nil => exact Iff.rfl
  | cons i rest ih =>
    cases hline : i.isLine with
    | true =>
      rw [flows_line hline, ← ih, bare_cons_line hline]
    | false =>
      rw [bare_cons hline, Flows, Flows]
      exact and_congr_right fun _ => ih

theorem marks_bare (code : List Instr) : Layout.marks (bare code) = Layout.marks code := by
  induction code with
  | nil => rfl
  | cons i rest ih =>
    unfold Layout.marks at *
    cases hline : i.isLine with
    | true =>
      have hmark : Layout.marked? i = none := by
        obtain ⟨op, arg⟩ := i
        obtain rfl : op = .pseudo .lineNum := by simpa [Instr.isLine] using hline
        rfl
      rw [List.filterMap_cons, hmark, ← ih, bare_cons_line hline]
    | false =>
      rw [bare_cons hline, List.filterMap_cons, List.filterMap_cons]
      exact ih ▸ rfl

variable {old new : List Instr}

/-- What holds of all instructions is looked at apart from the markers, which stay. -/
theorem forall_of_markers {P : Instr → Prop} (hmarkers : markers new = markers old)
    (hnew : (∀ i ∈ finals old, P i) → ∀ i ∈ finals new, P i) (h : ∀ i ∈ old, P i) : ∀ i ∈ new, P i := by
  intro i hi
  cases hop : i.opcode? with
  | none =>
    have hmem : i ∈ markers new := List.mem_filter.mpr ⟨hi, by simp [hop]⟩
    rw [hmarkers] at hmem
    exact h i (List.mem_of_mem_filter hmem)
  | some op => exact hnew (fun j hj => h j (List.mem_of_mem_filter hj)) i (mem_finals hi hop)

/-- Of all placeholders only markers can be laid out. -/
theorem isLine_of_workable (hcode : Workable code) (hmarks : Layout.marks code = []) :
    ∀ i ∈ markers code, i.isLine := by
  rintro ⟨op, arg⟩ hi
  obtain ⟨hmem, hop⟩ := List.mem_filter.mp hi
  obtain ⟨hencodable, hplaceable⟩ := hcode _ hmem
  have hmark : Layout.marked? ⟨op, arg⟩ = none := List.filterMap_eq_nil_iff.mp hmarks _ hmem
  rcases hplaceable with hmarker | ⟨op', rfl⟩
  · unfold Instr.isMarker at hmarker
    split at hmarker
    · rename_i heq
      obtain rfl : op = .pseudo .label := heq
      have hlabel := hencodable.labelled rfl
      rw [show arg.label? = none from hmark] at hlabel
      cases hlabel
    · rename_i heq
      obtain rfl : op = .pseudo .lineNum := heq
      rfl
    · cases hmarker
  · cases hop

theorem bare_eq_finals (h : ∀ i ∈ markers code, i.isLine) : bare code = finals code := by
  refine List.filter_congr fun i hi => ?_
  obtain ⟨op, arg⟩ := i
  cases op with
  | final op => rfl
  | pseudo op => rw [h _ (List.mem_filter.mpr ⟨hi, rfl⟩)]; rfl

/-- The second instructions can stand in the place of the first, whatever follows. -/
structure Exchanges (old new : List Instr) : Prop where
  flows : ∀ {L cur rest}, Flows L cur (old ++ rest) → Flows L cur (new ++ rest)
  workable : Workable old → Workable new
  refers : ∀ {R}, (∀ i ∈ old, i.Refers R) → ∀ i ∈ new, i.Refers R
  exits : ∃ i, old.getLast? = some i ∧ (i.isExit = true → ∃ j, new.getLast? = some j ∧ j.isExit = true)

/-- Instructions are replaced somewhere between line markers, which stay as they are. -/
theorem replaces_of_exchanges {code'} (hcode : Workable code) (h : ReplacedAt Exchanges code code') :
    Replaces code code' := by
  obtain ⟨old, new, rest, rfl, rfl, hmarks, hmarkers, h⟩ := h
  have hlines := isLine_of_workable (fun i hi => hcode i (List.mem_append_left _ hi)) hmarks
  have hold : bare (old ++ rest) = finals old ++ bare rest := by rw [bare_append, bare_eq_finals hlines]
  have hnew : bare (new ++ rest) = finals new ++ bare rest := by rw [bare_append, bare_eq_finals (hmarkers ▸ hlines)]
  have hforall : ∀ {P : Instr → Prop}, ((∀ i ∈ finals old, P i) → ∀ i ∈ finals new, P i) →
      (∀ i ∈ old ++ rest, P i) → ∀ i ∈ new ++ rest, P i := by
    intro P hP hall
    rw [List.forall_mem_append] at hall ⊢
    exact ⟨forall_of_markers hmarkers hP hall.1, hall.2⟩
  refine ⟨fun {L cur} hflows => ?_, hforall h.workable, ?_, hforall h.refers, ?_⟩
  · rw [← flows_bare, hold] at hflows
    rw [← flows_bare, hnew]
    exact h.flows hflows
  · rw [Layout.marks_append, Layout.marks_append, marks_eq_of_markers hmarkers]
  · rintro front ⟨i, hi, hexit⟩
    unfold EndsInExit
    rw [bare_append, hold] at hi
    rw [bare_append, hnew]
    generalize bare rest = rest at hi ⊢
    cases rest with
    | nil =>
      -- the end itself is replaced
      obtain ⟨i', hi', hlast⟩ := h.exits
      rw [List.append_nil] at hi ⊢
      rw [List.getLast?_append, hi', Option.some_or] at hi
      cases hi
      obtain ⟨j, hj, hexit'⟩ := hlast hexit
      exact ⟨j, by rw [List.getLast?_append, hj, Option.some_or], hexit'⟩
    | cons k rest =>
      rw [← List.append_assoc, List.getLast?_append_of_ne_nil _ (List.cons_ne_nil k rest)] at hi ⊢
      exact ⟨i, hi, hexit⟩

/-! ## Straight code -/

namespace Opcode

/-- Passes control on and has neither a label nor a count. -/
def isStraight (o : Opcode) : Bool :=
  o.isPlain o.info.pops o.info.pushes

/-- How many values opcodes in a row take, and how many they put in their place. -/
def summary : List Opcode → Nat × Nat
  | [] => (0, 0)
  | o :: os =>
    let (p, q) := summary os
    if p ≤ o.info.pushes then (o.info.pops, o.info.pushes - p + q)
    else (o.info.pops + (p - o.info.pushes), q)

/-- The second opcodes leave the stack as deep as the first, and take no more values. -/
def fuses (os os' : List Opcode) : Bool :=
  !os.isEmpty && os.all isStraight && os'.all isStraight && (summary os').1 ≤ (summary os).1 &&
    (summary os).1 + (summary os').2 == (summary os').1 + (summary os).2

end Opcode

open Opcode (isStraight summary fuses)

/-- Straight code as instructions. -/
def straight (code : List (Opcode × Operand)) : List Instr :=
  code.map fun (o, arg) => .of o arg

variable {o : Opcode}

theorem flows_of_straight (h : o.isStraight) (arg : Operand) (rest : List Instr) (d : Nat) :
    Flows L (some d) (.of o arg :: rest) ↔
      o.info.pops ≤ d ∧ Flows L (some (d - o.info.pops + o.info.pushes)) rest := by
  simp only [isStraight, Opcode.isPlain, Bool.and_eq_true, Bool.not_eq_true'] at h
  obtain ⟨⟨⟨-, hexit⟩, hjump⟩, hcount⟩ := h
  have heffect := (Instr.of o arg).stackEffect_of_not_count hcount
  have hpass : pass L (.of o arg) (some d) = some (d - o.info.pops + o.info.pushes) := by
    rw [pass_some rfl, show (Instr.of o arg).isExit = false from hexit,
      show (Instr.of o arg).op.format.takesCount = false from hcount, Instr.depthBehind, heffect]
    rfl
  rw [Flows, hpass, allows_some rfl, heffect, Instr.target?_of_not_jump hjump]
  refine and_congr_left fun _ => ⟨fun h => h.1, fun h => ⟨h, fun l hl => ?_⟩⟩
  cases hl

theorem flows_straight {code : List (Opcode × Operand)} (h : (code.map (·.1)).all isStraight)
    (rest : List Instr) (d : Nat) :
    Flows L (some d) (straight code ++ rest) ↔ (summary (code.map (·.1))).1 ≤ d ∧
      Flows L (some (d - (summary (code.map (·.1))).1 + (summary (code.map (·.1))).2))
        rest := by
  induction code generalizing d with
  | nil => simp [straight, summary]
  | cons first code ih =>
    obtain ⟨o, arg⟩ := first
    rw [List.map_cons, List.all_cons, Bool.and_eq_true] at h
    have hcons : straight ((o, arg) :: code) ++ rest = .of o arg :: (straight code ++ rest) := rfl
    rw [hcons, flows_of_straight h.1, ih h.2]
    rw [List.map_cons]
    generalize hs : summary (code.map (·.1)) = s
    obtain ⟨p, q⟩ := s
    simp only [summary, hs]
    split
    · have heq : o.info.pops ≤ d → d - o.info.pops + o.info.pushes - p + q =
          d - o.info.pops + (o.info.pushes - p + q) := by omega
      constructor
      · rintro ⟨hpops, -, hrest⟩
        exact ⟨hpops, heq hpops ▸ hrest⟩
      · rintro ⟨hpops, hrest⟩
        exact ⟨hpops, by omega, heq hpops ▸ hrest⟩
    · have heq : o.info.pops + (p - o.info.pushes) ≤ d → d - o.info.pops + o.info.pushes - p + q =
          d - (o.info.pops + (p - o.info.pushes)) + q := by omega
      constructor
      · rintro ⟨hpops, hp, hrest⟩
        have hle : o.info.pops + (p - o.info.pushes) ≤ d := by omega
        exact ⟨hle, heq hle ▸ hrest⟩
      · rintro ⟨hle, hrest⟩
        exact ⟨by omega, by omega, heq hle ▸ hrest⟩

theorem flows_none_straight (code : List (Opcode × Operand)) (rest : List Instr) :
    Flows L none (straight code ++ rest) ↔ Flows L none rest := by
  induction code with
  | nil => exact Iff.rfl
  | cons first code ih =>
    rw [← ih]
    exact ⟨fun h => h.2, fun h => ⟨allows_none _, h⟩⟩

/-- Straight code may be replaced by code with the same effect. -/
theorem flows_fuse {old new : List (Opcode × Operand)} (h : fuses (old.map (·.1)) (new.map (·.1)))
    (hflows : Flows L cur (straight old ++ rest)) : Flows L cur (straight new ++ rest) := by
  simp only [fuses, Bool.and_eq_true, decide_eq_true_eq, beq_iff_eq] at h
  obtain ⟨⟨⟨⟨-, hold⟩, hnew⟩, hle⟩, hsame⟩ := h
  cases cur with
  | none =>
    rw [flows_none_straight] at hflows ⊢
    exact hflows
  | some d =>
    rw [flows_straight hold] at hflows
    rw [flows_straight hnew]
    obtain ⟨hpops, hrest⟩ := hflows
    generalize summary (old.map (·.1)) = s at *
    generalize summary (new.map (·.1)) = s' at *
    have heq : d - s.1 + s.2 = d - s'.1 + s'.2 := by omega
    exact ⟨by omega, heq ▸ hrest⟩

theorem workable_straight {code : List (Opcode × Operand)}
    (h : (code.map (·.1)).all isStraight) : Workable (straight code) := by
  intro i hi
  obtain ⟨⟨o, arg⟩, hmem, rfl⟩ := List.mem_map.mp hi
  have ho := List.all_eq_true.mp h o (List.mem_map_of_mem hmem)
  simp only [isStraight, Opcode.isPlain, Bool.and_eq_true, Bool.not_eq_true'] at ho
  exact ⟨Instr.encodable_of_plain ho.1.2 ho.2 arg, .inr ⟨o, rfl⟩⟩

theorem not_isExit_straight {code : List (Opcode × Operand)} (h : (code.map (·.1)).all isStraight) :
    ∀ i ∈ straight code, i.isExit = false := by
  intro i hi
  obtain ⟨⟨o, arg⟩, hmem, rfl⟩ := List.mem_map.mp hi
  have ho := List.all_eq_true.mp h o (List.mem_map_of_mem hmem)
  simp only [isStraight, Opcode.isPlain, Bool.and_eq_true, Bool.not_eq_true'] at ho
  exact ho.1.1.2

/-- Refers to no table and no atom. -/
def Opcode.isClosed (o : Opcode) : Bool :=
  o.table?.isNone && !o.format.hasAtom

theorem refers_of_isClosed (h : o.isClosed) (arg : Operand) : (Instr.of o arg).Refers R := by
  simp only [Opcode.isClosed, Bool.and_eq_true, Option.isNone_iff_eq_none, Bool.not_eq_true'] at h
  exact Instr.refers_of_closed h.1 h.2 arg

/-- What replaces instructions refers to nothing or to what they referred to. -/
def Keeps (old new : List (Opcode × Operand)) : Prop :=
  ∀ x ∈ new, x.1.isClosed = true ∨ ∃ y ∈ old, ∀ R, (Instr.of y.1 y.2).Refers R → (Instr.of x.1 x.2).Refers R

/-- One instruction that refers to what another referred to. -/
theorem keeps_of_refers {old o' arg arg'} (hmem : (o, arg) ∈ old)
    (h : ∀ R, (Instr.of o arg).Refers R → (Instr.of o' arg').Refers R) : Keeps old [(o', arg')] :=
  List.forall_mem_singleton.mpr (.inr ⟨_, hmem, h⟩)

/-- One instruction that refers to nothing. -/
theorem keeps_of_isClosed {old arg} (h : o.isClosed) : Keeps old [(o, arg)] :=
  List.forall_mem_singleton.mpr (.inl h)

theorem Keeps.refers {old new} (h : Keeps old new) (R : Referents) (hold : ∀ i ∈ straight old, i.Refers R) :
    ∀ i ∈ straight new, i.Refers R := by
  intro i hi
  obtain ⟨⟨o, arg⟩, hmem, rfl⟩ := List.mem_map.mp hi
  rcases h _ hmem with hclosed | ⟨y, hy, hrefers⟩
  · exact refers_of_isClosed hclosed arg
  · exact hrefers R (hold _ (List.mem_map.mpr ⟨y, hy, rfl⟩))

/-- Straight code is replaced. -/
theorem exchanges_of_fuse (old new : List (Opcode × Operand))
    (h : fuses (old.map (·.1)) (new.map (·.1))) (hkeeps : Keeps old new) :
    Exchanges (straight old) (straight new) := by
  have hstraight := h
  simp only [fuses, Bool.and_eq_true] at hstraight
  obtain ⟨⟨⟨⟨hne, hold⟩, hnew⟩, -⟩, -⟩ := hstraight
  refine ⟨flows_fuse h, fun _ => workable_straight hnew, fun {R} => hkeeps.refers R, ?_⟩
  -- straight code passes control on
  have hne : straight old ≠ [] := by
    cases old with
    | nil => cases hne
    | cons first old => exact List.cons_ne_nil _ _
  refine ⟨_, List.getLast?_eq_some_getLast hne, fun hexit => ?_⟩
  cases (not_isExit_straight hold _ (List.getLast_mem hne)).symm.trans hexit

/-! ## The search for places -/

namespace Rule

/-- A rule replaces code by code that can stand in its place. -/
def Sound (rule : Rule) : Prop :=
  ∀ code code', Workable code → rule code = some code' → Replaces code code'

theorem search_eq {rule left right left' found} (h : search rule left right = (left', found)) :
    ∃ rest, left.reverse ++ right = left'.reverse ++ rest ∧
      found.elim (rest = []) (rule rest = some ·) := by
  induction right generalizing left with
  | nil =>
    cases h
    exact ⟨[], rfl, rfl⟩
  | cons i right ih =>
    unfold search at h
    split at h
    · rename_i right' hrule
      cases h
      exact ⟨i :: right, rfl, hrule⟩
    · obtain ⟨rest, hrest, hfound⟩ := ih h
      exact ⟨rest, by simpa using hrest, hfound⟩

theorem back?_eq_some {moved left left' moved'} (h : back? moved left = some (left', moved')) :
    left'.reverse ++ moved' = left.reverse ++ moved := by
  induction left generalizing moved with
  | nil => cases h
  | cons i left ih =>
    unfold back? at h
    split at h
    · cases h
    · simpa using ih h
    · cases h
      simp

/-- What holds of code wherever a rule fires in it holds at the end. -/
theorem repeatedly_preserves {rule} {P : List Instr → Prop}
    (hfires : ∀ front code code', rule code = some code' → P (front ++ code) → P (front ++ code')) (times : Nat)
    (left right : List Instr) (h : P (left.reverse ++ right)) : P (repeatedly rule times left right) := by
  induction times generalizing left right with
  | zero => rwa [Rule.repeatedly, List.reverseAux_eq]
  | succ times ih =>
    unfold Rule.repeatedly
    split
    · rename_i left' hsearch
      obtain ⟨rest, hrest, hnone⟩ := search_eq hsearch
      obtain rfl : rest = [] := hnone
      rwa [hrest, List.append_nil] at h
    · rename_i left' right' hsearch
      obtain ⟨rest, hrest, hsome⟩ := search_eq hsearch
      rw [hrest] at h
      have hstep := hfires _ rest right' hsome h
      split
      · rename_i left'' moved hback
        have heq := back?_eq_some hback
        rw [List.append_nil] at heq
        rw [← heq, List.append_assoc] at hstep
        exact ih _ _ hstep
      · exact ih _ _ hstep

/-- Run of a sound rule. -/
theorem Sound.repeatedly {rule : Rule} (hrule : rule.Sound) (times : Nat) (left right : List Instr)
    (hcode : Workable (left.reverse ++ right)) :
    Replaces (left.reverse ++ right) (repeatedly rule times left right) := by
  refine repeatedly_preserves (fun front code code' hfires h => ?_) times left right (.refl _)
  have hcode' : Workable code := fun i hi => h.workable hcode i (List.mem_append_right _ hi)
  exact h.trans ((hrule code code' hcode' hfires).append front)

/-- A last element that is kept stays the last one. -/
theorem getLast?_filter_of_last {p} (h : code.getLast? = some i) (hi : p i) : (code.filter p).getLast? = some i := by
  obtain ⟨before, rfl⟩ := List.getLast?_eq_some_iff.mp h
  rw [List.filter_append, List.filter_cons_of_pos hi, List.filter_nil, List.getLast?_concat]

theorem replaces_compact (code : List Instr) : Replaces code (compact code) where
  flows := by
    intro L cur h
    induction code generalizing cur with
    | nil => exact h
    | cons i rest ih =>
      unfold compact at *
      cases hnop : i.is .nop with
      | true =>
        rw [List.filter_cons_of_neg (by simp [hnop])]
        obtain ⟨op, arg⟩ := i
        obtain rfl : op = .final .nop := by simpa [Instr.is] using hnop
        exact ih ((flows_idle rfl rfl rfl rfl rfl).mp h)
      | false =>
        rw [List.filter_cons_of_pos (by simp [hnop])]
        exact ⟨h.1, ih h.2⟩
  workable := fun h i hi => h i (List.mem_filter.mp hi).1
  marks := (List.filter_sublist).filterMap _
  refers := fun h i hi => h i (List.mem_filter.mp hi).1
  exits := by
    rintro front ⟨i, hi, hexit⟩
    unfold EndsInExit
    rw [bare_append] at hi ⊢
    have hbare : bare (compact code) = (bare code).filter fun i => !i.is .nop := List.filter_comm ..
    rw [hbare]
    -- an exit is no `nop`
    have hkept : (!i.is .nop) := by
      obtain ⟨op, arg⟩ := i
      cases h : Instr.is ⟨op, arg⟩ .nop with
      | false => rfl
      | true =>
        obtain rfl : op = .final .nop := by simpa [Instr.is] using h
        cases hexit
    rw [List.getLast?_append] at hi ⊢
    cases hlast : (bare code).getLast? with
    | none =>
      rw [List.getLast?_eq_none_iff.mp hlast] at hi ⊢
      exact ⟨i, hi, hexit⟩
    | some j =>
      rw [hlast, Option.some_or] at hi
      cases hi
      exact ⟨i, by rw [getLast?_filter_of_last hlast hkept, Option.some_or], hexit⟩

theorem Sound.apply {rule : Rule} (hrule : rule.Sound) (hcode : Workable code) : Replaces code (apply rule code) := by
  have hcompact := replaces_compact code
  exact hcompact.trans (hrule.repeatedly _ [] _ (hcompact.workable hcode))

end Rule

/-! ## Folding -/

namespace Folding

theorem fuses_of_fold? {op n m} (h : fold? op n m = some i) (ho : o ∈ [.pushI32, .pushTrue, .pushFalse]) :
    fuses [.pushI32, .pushI32, op] [o] := by
  simp only [List.mem_cons, List.not_mem_nil, or_false] at ho
  unfold fold? at h
  split at h
  case h_17 => cases h
  all_goals rcases ho with rfl | rfl | rfl <;> rfl

theorem Folds.exchanges (h : Folds old new) : Exchanges old new := by
  cases h with
  | @neg n a _ _ =>
    exact exchanges_of_fuse [(.pushI32, .int n), (.neg, a)] [(.pushI32, .int (-n))] rfl (keeps_of_isClosed rfl)
  | @plus n a =>
    exact exchanges_of_fuse [(.pushI32, .int n), (.plus, a)] [(.pushI32, .int n)] rfl (keeps_of_isClosed rfl)
  | @binary n m op op' a b value =>
    have hpush : op' ∈ [.pushI32, .pushTrue, .pushFalse] := by
      rcases fold?_eq_of value with ⟨k, hk⟩ | ⟨truth, hk⟩
      · cases hk
        decide
      · cases truth <;> cases hk <;> decide
    have hclosed : ∀ o ∈ [Opcode.pushI32, .pushTrue, .pushFalse], o.isClosed := by decide
    exact exchanges_of_fuse [(.pushI32, .int n), (.pushI32, .int m), (op, a)] [(op', b)] (fuses_of_fold? value hpush)
      (keeps_of_isClosed (hclosed op' hpush))

theorem sound_rule : Rule.Sound rule :=
  fun _ _ hcode h => replaces_of_exchanges hcode ((foldsAt_of_rule h).imp Folds.exchanges)

end Folding

/-! ## Neighbours -/

namespace Peephole

variable {op : Opcode} {a b : Operand} {rest : List Instr}

theorem exchanges_pushDrop (h : isPurePush op) : Exchanges [.of op a, .of .drop b] [] := by
  refine exchanges_of_fuse [(op, a), (.drop, b)] [] ?_ nofun
  unfold isPurePush at h
  split at h <;> first | rfl | cases h

theorem slotOps?_eq_some {ops} (h : slotOps? op = some ops) :
    fuses [ops.put, ops.get] [ops.set] ∧ fuses [ops.set, .drop] [ops.put] ∧
      fuses [.dup, ops.put] [ops.set] := by
  unfold slotOps? at h
  split at h <;> first | cases h; exact ⟨rfl, rfl, rfl⟩ | cases h

/-- Writes of either kind take the same operands. -/
theorem refers_slotOps? {ops} (h : slotOps? op = some ops) (arg : Operand) :
    (Instr.of ops.put arg).Refers R ↔ (Instr.of ops.set arg).Refers R := by
  unfold slotOps? at h
  split at h
  case h_10 => cases h
  all_goals
    cases h
    exact ⟨fun h => h.restate rfl (fun _ _ hn hlt => ⟨hn, hlt⟩) nofun,
      fun h => h.restate rfl (fun _ _ hn hlt => ⟨hn, hlt⟩) nofun⟩

/-- The field of the fused opcode has one byte. -/
theorem refers_count (up : Bool) (ha : a.int?.getD (-1) ≤ 255) (hget : (Instr.of .getLoc a).Refers R) :
    (Instr.of (if up then .incLoc else .decLoc) a).Refers R := by
  have hfits : ∀ n : Nat, a.int? = some (n : Int) → n < 0x100 := by
    intro n hn
    rw [hn, Option.getD_some] at ha
    omega
  cases up
  all_goals exact hget.restate rfl (fun n _ hn _ => ⟨hn, hfits n hn⟩) nofun

theorem exchanges_bareStore (h : BareStore old new) : Exchanges old new := by
  obtain @⟨op, next, a, b, c, pair⟩ := h
  refine exchanges_of_fuse [(op, a), (next, b), (.drop, c)] [(next, b)] ?_
    (keeps_of_refers (List.mem_cons_of_mem _ List.mem_cons_self) fun R h => h)
  simp only [storePairs, List.mem_cons, List.not_mem_nil, or_false, Prod.mk.injEq] at pair
  rcases pair with ⟨rfl, rfl⟩ | ⟨rfl, rfl⟩ | ⟨rfl, rfl⟩ | ⟨rfl, rfl⟩ | ⟨rfl, rfl⟩ <;> rfl

/-! ## Branches -/

/-- A branch on the value on top of the stack. -/
theorem flows_branch (taken : Bool) (d : Nat) :
    Flows L (some d) (.of (branch taken) b :: rest) ↔
      (1 ≤ d ∧ ∀ l, b.label? = some l → L l = some (d - 1)) ∧ Flows L (some (d - 1)) rest := by
  cases taken
  all_goals
    rw [Flows, allows_some rfl, pass_some rfl]
    exact Iff.rfl

theorem flows_goto (d : Nat) :
    Flows L (some d) (.of .goto b :: rest) ↔
      (∀ l, b.label? = some l → L l = some d) ∧ Flows L none rest := by
  rw [Flows, allows_some rfl, pass_some rfl]
  exact and_congr_left fun _ => ⟨fun h => h.2, fun h => ⟨Nat.zero_le d, h⟩⟩

/-- A branch has the operand of the branch that it replaces. -/
theorem workable_branch (taken : Bool) (ho : o.isJump) (h : Workable [.of (branch taken) b]) : Workable [.of o b] := by
  have hi := (h (.of (branch taken) b) (by simp)).1
  simp only [Workable, List.mem_singleton, forall_eq]
  refine ⟨⟨fun _ => hi.labelled (by cases taken <;> rfl), fun hcount => ?_, nofun⟩, .inr ⟨o, rfl⟩⟩
  exact absurd (ho.symm.trans (Layout.hasLabel_of_takesCount hcount)) (by decide)

/-- Two neighbours of which the second may not pass control on. -/
theorem exchanges_of_branch {next} (new : List (Opcode × Operand))
    (hflows : ∀ {L d rest}, Flows L (some d) (.of op a :: .of next b :: rest) →
      Flows L (some d) (straight new ++ rest)) (hnew : Workable [.of next b] → Workable (straight new))
    (hclosed : (new.map (·.1)).all Opcode.isClosed)
    (hexits : next.isTerminator → ∃ j, (straight new).getLast? = some j ∧ j.isExit) :
    Exchanges [.of op a, .of next b] (straight new) := by
  refine ⟨fun {L cur rest} hold => ?_, fun hold => hnew fun i hi => hold i (List.mem_cons_of_mem _ hi),
    fun {R} _ i hi => ?_, ⟨_, rfl, hexits⟩⟩
  · cases cur with
    | none => exact (flows_none_straight new rest).mpr ((flows_none_straight [(op, a), (next, b)] rest).mp hold)
    | some d => exact hflows hold
  · obtain ⟨⟨o, arg⟩, hmem, rfl⟩ := List.mem_map.mp hi
    exact refers_of_isClosed (List.all_eq_true.mp hclosed o (List.mem_map_of_mem hmem)) arg

theorem exchanges_invertBranch (taken : Bool) :
    Exchanges [.of .lnot a, .of (branch taken) b] [.of (branch !taken) b] := by
  refine exchanges_of_branch [(branch !taken, b)] (fun {L d rest} hold => ?_) (workable_branch taken ?_) ?_
    fun hexit => ?_
  · rw [flows_of_straight rfl] at hold
    obtain ⟨hpops, hold⟩ := hold
    have hdepth : d - Opcode.lnot.info.pops + Opcode.lnot.info.pushes = d := Nat.sub_add_cancel hpops
    rw [hdepth, flows_branch] at hold
    exact (flows_branch _ d).mpr hold
  · cases taken <;> rfl
  · cases taken <;> rfl
  · cases taken <;> cases hexit

theorem exchanges_constantBranch (value taken : Bool) :
    Exchanges [.of (if value then .pushTrue else .pushFalse) a, .of (branch taken) b]
      (if value = taken then [.of .goto b] else []) := by
  -- the value that is tested is put right before
  have hpush : ∀ {L d rest},
      Flows L (some d) (.of (if value then .pushTrue else .pushFalse) a :: .of (branch taken) b :: rest) →
      (∀ l, b.label? = some l → L l = some d) ∧ Flows L (some d) rest := by
    intro L d rest hold
    have hold : Flows L (some (d + 1)) (.of (branch taken) b :: rest) := by
      cases value
      all_goals exact ((flows_of_straight rfl _ _ _).mp hold).2
    rw [flows_branch] at hold
    exact ⟨hold.1.2, hold.2⟩
  by_cases hvalue : value = taken
  · rw [if_pos hvalue]
    exact exchanges_of_branch [(.goto, b)]
      (fun {L d rest} hold => (flows_goto d).mpr ⟨(hpush hold).1, (under_none _).flows (hpush hold).2⟩)
      (workable_branch taken rfl) rfl fun _ => ⟨_, rfl, rfl⟩
  · rw [if_neg hvalue]
    refine exchanges_of_branch [] (fun hold => (hpush hold).2) nofun rfl fun hexit => ?_
    cases taken <;> cases hexit

theorem exchanges_returnUndefined : Exchanges [.of .undefined a, .of .returnValue b] [.plain .returnUndef] := by
  refine exchanges_of_branch [(.returnUndef, .none)] (fun {L d rest} hold => ?_) (fun _ => ?_) rfl
    fun _ => ⟨_, rfl, rfl⟩
  · have hrest := hold.2.2
    rw [pass_exit rfl rfl] at hrest
    refine ⟨(allows_some rfl d).mpr ⟨Nat.zero_le d, nofun⟩, ?_⟩
    rwa [pass_exit rfl rfl]
  · simp only [Workable, straight, List.map_cons, List.map_nil, List.mem_singleton, forall_eq]
    exact ⟨Instr.encodable_of_plain rfl rfl _, .inr ⟨_, rfl⟩⟩

theorem Fires.exchanges (h : Fires old new) : Exchanges old new := by
  cases h with
  | pushDrop push => exact exchanges_pushDrop push
  | @storeLoad op ops a family =>
    exact exchanges_of_fuse [(ops.put, a), (ops.get, a)] [(ops.set, a)] (slotOps?_eq_some family).1
      (keeps_of_refers List.mem_cons_self fun R => (refers_slotOps? family a).mp)
  | @storeDrop op ops a b family =>
    exact exchanges_of_fuse [(ops.set, a), (.drop, b)] [(ops.put, a)] (slotOps?_eq_some family).2.1
      (keeps_of_refers List.mem_cons_self fun R => (refers_slotOps? family a).mpr)
  | @dupStore op ops a b family =>
    exact exchanges_of_fuse [(.dup, a), (ops.put, b)] [(ops.set, b)] (slotOps?_eq_some family).2.2
      (keeps_of_refers (List.mem_cons_of_mem _ List.mem_cons_self) fun R => (refers_slotOps? family b).mp)
  | @count up a b fits =>
    exact exchanges_of_fuse [(.getLoc, a), (if up then .inc else .dec, b), (.putLoc, a)]
      [(if up then .incLoc else .decLoc, a)] (by cases up <;> rfl)
      (keeps_of_refers List.mem_cons_self fun R => refers_count up fits)
  | invertBranch taken => exact exchanges_invertBranch taken
  | constantBranch value taken => exact exchanges_constantBranch value taken
  | bareStore store => exact exchanges_bareStore store
  | returnUndefined => exact exchanges_returnUndefined
  | @typeTest isUndefined strict a c =>
    exact exchanges_of_fuse [(.typeof, a), (.pushAtomValue, _), (if strict then .strictEq else .eq, c)]
      [(if isUndefined then .typeofIsUndefined else .typeofIsFunction, .none)]
      (by cases isUndefined <;> cases strict <;> rfl) (keeps_of_isClosed (by cases isUndefined <;> rfl))
  | @nullTest isNull a b =>
    exact exchanges_of_fuse [(if isNull then .null else .undefined, a), (.strictEq, b)]
      [(if isNull then .isNull else .isUndefined, .none)] (by cases isNull <;> rfl)
      (keeps_of_isClosed (by cases isNull <;> rfl))

theorem sound_rule : Rule.Sound rule :=
  fun _ _ hcode h => replaces_of_exchanges hcode ((firesAt_of_rule h).imp Fires.exchanges)

end Peephole

end ScriptBytecode
