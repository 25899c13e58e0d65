import ScriptBytecode.Compiler.Build
import ScriptBytecode.Proofs.Labels
import ScriptBytecode.Proofs.Optimizer.Jumps

/-!
# Optimized code keeps depths

Each pass replaces code by code that flows as well, and so do the changes between long and short forms in
front of the first pass and behind the last. Code that is laid out and optimized has depths at its offsets
whenever its labels had depths before.
-/

namespace ScriptBytecode

open Flow

variable {code : List Instr}

/-! ## Long and short forms -/

/-- Opcodes that differ only in how their operand is written. -/
def Opcode.restates (o o' : Opcode) : Bool :=
  o.info.pops == o'.info.pops && o.info.pushes == o'.info.pushes && o.isTerminator == o'.isTerminator
    && o.isJump == o'.isJump && o.longForm.1 == o'.longForm.1
    && !o.format.takesCount && !o'.format.takesCount

variable {o : Opcode}

namespace Instr

/-- The second instruction can stand in the place of the first. -/
structure Restates (i j : Instr) : Prop extends Alike i j where
  workable : i.Encodable ∧ Layout.Placeable i → j.Encodable ∧ Layout.Placeable j
  isLine : i.isLine = j.isLine
  isFinal : i.opcode?.isSome = j.opcode?.isSome

theorem Restates.refl (i : Instr) : Restates i i :=
  ⟨.refl i, fun h => h, rfl, rfl⟩

theorem Restates.of_opcode {o' arg arg'} (h : o.restates o') (harg : o.isJump → arg = arg') :
    Restates ⟨.final o, arg⟩ ⟨.final o', arg'⟩ := by
  simp only [Opcode.restates, Bool.and_eq_true, beq_iff_eq, Bool.not_eq_true'] at h
  obtain ⟨⟨⟨⟨⟨⟨hpops, hpushes⟩, hexit⟩, hjump⟩, hlong⟩, hcount⟩, hcount'⟩ := h
  have heffect : stackEffect ⟨.final o, arg⟩ = stackEffect ⟨.final o', arg'⟩ := by
    rw [stackEffect_of_not_count ⟨.final o, arg⟩ hcount, stackEffect_of_not_count ⟨.final o', arg'⟩ hcount']
    exact Prod.ext hpops hpushes
  refine ⟨⟨⟨heffect, hexit, hcount.trans hcount'.symm, fun d => ?_⟩, ?_, rfl, rfl⟩, fun h => ⟨?_, .inr ⟨_, rfl⟩⟩, rfl,
    rfl⟩
  · simp only [depthAtTarget, opcode?, StackSize.atTarget, depthBehind, heffect, hlong]
  · simp only [target?_final, ← hjump]
    cases hj : o.isJump with
    | true => rw [harg hj]
    | false => rfl
  · refine ⟨fun hjump' => ?_, fun h => ?_, fun h => ?_⟩
    · have hj : o.isJump := hjump.trans hjump'
      exact harg hj ▸ h.1.labelled hj
    · cases hcount'.symm.trans h
    · cases h

/-- Where the operand counts values, the opcode is its own long form or one of the calls with few arguments. -/
theorem longForm_of_count (h : o.format.takesCount) :
    o.longForm = (o, none) ∨ o ∈ [.call0, .call1, .call2, .call3] := by
  revert h
  cases o <;> first | exact fun _ => .inl rfl | exact fun _ => .inr (by decide) | exact nofun

theorem restates_longForm (h : o.format.takesCount = false) :
    o.restates o.longForm.1 ∧ (o.isJump → o.longForm.2 = none) := by
  revert h
  cases o <;> first
    | exact fun _ => ⟨rfl, fun _ => rfl⟩
    | exact fun _ => ⟨rfl, nofun⟩
    | exact nofun

/-- A call with few arguments has an opcode of its own. -/
theorem restates_call (h : o ∈ [.call0, .call1, .call2, .call3]) (arg : Operand) :
    Restates ⟨.final o, arg⟩ (.of .call (.int (o.byte - Opcode.call0.byte))) ∧
      Restates (.of .call (.int (o.byte - Opcode.call0.byte))) (.plain o) := by
  simp only [List.mem_cons, List.not_mem_nil, or_false] at h
  rcases h with rfl | rfl | rfl | rfl <;>
    exact ⟨⟨⟨⟨rfl, rfl, rfl, fun _ => rfl⟩, rfl, rfl, rfl⟩, fun _ =>
        ⟨⟨nofun, fun _ => rfl, nofun⟩, .inr ⟨_, rfl⟩⟩, rfl, rfl⟩,
      ⟨⟨⟨rfl, rfl, rfl, fun _ => rfl⟩, rfl, rfl, rfl⟩, fun _ =>
        ⟨⟨nofun, fun _ => rfl, nofun⟩, .inr ⟨_, rfl⟩⟩, rfl, rfl⟩⟩

theorem longForm_of_call (h : o ∈ [.call0, .call1, .call2, .call3]) :
    o.longForm = (.call, some (o.byte - Opcode.call0.byte : Int)) := by
  simp only [List.mem_cons, List.not_mem_nil, or_false] at h
  rcases h with rfl | rfl | rfl | rfl <;> rfl

theorem restates_lengthen (i : Instr) : Restates i i.lengthen := by
  obtain ⟨op, arg⟩ := i
  cases op with
  | pseudo op => exact .refl _
  | final o =>
    rcases lengthen_cases o arg with ⟨rfl, heq⟩ | ⟨rfl, heq⟩ | ⟨-, -, heq⟩
    · exact heq ▸ .of_opcode rfl nofun
    · exact heq ▸ .of_opcode rfl nofun
    · rw [heq]
      cases hcount : o.format.takesCount with
      | true =>
        rcases longForm_of_count hcount with hlong | hcall
        · rw [hlong]
          exact .refl _
        · rw [longForm_of_call hcall]
          exact (restates_call hcall arg).1
      | false =>
        obtain ⟨hrestates, hjump⟩ := restates_longForm hcount
        refine .of_opcode hrestates fun h => ?_
        rw [hjump h]
        rfl

/-- A short form restates its long form as well as the other way round. -/
theorem restates_of_longForm {short : Opcode} (hcount : short.format.takesCount = false) (arg arg' : Operand)
    (harg : short.isJump → arg = arg') : Restates ⟨.final short.longForm.1, arg⟩ ⟨.final short, arg'⟩ := by
  have hrestates := (restates_longForm hcount).1
  refine .of_opcode ?_ fun hjump => harg ?_
  all_goals
    simp only [Opcode.restates, Bool.and_eq_true, beq_iff_eq, Bool.not_eq_true'] at hrestates ⊢
    obtain ⟨⟨⟨⟨⟨⟨hpops, hpushes⟩, hexit⟩, hjump'⟩, hlong⟩, hcount⟩, hcount'⟩ := hrestates
  · exact ⟨⟨⟨⟨⟨⟨hpops.symm, hpushes.symm⟩, hexit.symm⟩, hjump'.symm⟩, hlong.symm⟩, hcount'⟩, hcount⟩
  · exact hjump'.trans hjump

theorem restates_shortens {arg j} (h : ShortForm.Shortens o arg j) : Restates ⟨.final o, arg⟩ j := by
  cases h with
  | @narrow short _ long =>
    cases hcount : short.format.takesCount with
    | true =>
      -- counts have no narrower fields
      rcases longForm_of_count hcount with hlong | hcall
      · obtain rfl : short = o := congrArg Prod.fst (hlong.symm.trans long)
        exact .refl _
      · cases (longForm_of_call hcall).symm.trans long
    | false =>
      have hrestates := restates_of_longForm hcount arg arg fun _ => rfl
      rwa [long] at hrestates
  | @implied short n long =>
    cases hcount : short.format.takesCount with
    | true =>
      rcases longForm_of_count hcount with hlong | hcall
      · cases hlong.symm.trans long
      · cases (longForm_of_call hcall).symm.trans long
        exact (restates_call hcall .none).2
    | false =>
      have hjump := (restates_longForm hcount).2
      have hrestates := restates_of_longForm hcount (.int n) .none fun h => by
        cases (hjump h).symm.trans (congrArg Prod.snd long)
      rwa [long] at hrestates
  | emptyString isPush =>
    subst isPush
    exact .of_opcode rfl nofun
  | length isGet =>
    subst isGet
    exact .of_opcode rfl nofun

theorem restates_shorten (i : Instr) : Restates i i.shorten := by
  obtain ⟨op, arg⟩ := i
  cases op with
  | pseudo op => exact .refl _
  | final o =>
    rcases shorten_cases o arg with heq | hshort
    · rw [heq]
      exact .refl _
    · exact restates_shortens hshort

end Instr

theorem marks_map {f} (hf : ∀ i : Instr, i.Restates (f i)) (code : List Instr) :
    Layout.marks (code.map f) = Layout.marks code := by
  rw [Layout.marks, Layout.marks, List.filterMap_map]
  exact List.filterMap_congr fun i _ => (hf i).marked.symm

theorem replaces_map {f} (hf : ∀ i : Instr, i.Restates (f i))
    (hrefers : ∀ (R : Referents) (i : Instr), i.Refers R → (f i).Refers R) (code : List Instr) :
    Replaces code (code.map f) where
  flows := flows_alike (List.forall₂_map_right_iff.mpr (List.forall₂_same.mpr fun i _ => (hf i).toAlike))
  workable := by
    intro h i hi
    obtain ⟨j, hj, rfl⟩ := List.mem_map.mp hi
    exact (hf j).workable (h j hj)
  marks := by rw [marks_map hf]
  refers := by
    intro R h i hi
    obtain ⟨j, hj, rfl⟩ := List.mem_map.mp hi
    exact hrefers R j (h j hj)
  exits := by
    rintro front ⟨i, hi, hexit⟩
    have hbare : bare (code.map f) = (bare code).map f := by
      rw [bare, List.filter_map]
      exact congrArg (List.map f) (List.filter_congr fun i _ => congrArg not (hf i).isLine.symm)
    unfold EndsInExit
    rw [bare_append, List.getLast?_append] at hi ⊢
    rw [hbare, List.getLast?_map]
    cases hlast : (bare code).getLast? with
    | none => exact ⟨i, by simpa [hlast] using hi, hexit⟩
    | some j =>
      rw [hlast, Option.some_or] at hi
      cases hi
      exact ⟨f i, rfl, (hf i).isExit ▸ hexit⟩

/-! ## Rounds -/

namespace Optimizer

open Threading (Survives)

variable {P : List Instr → Prop}

/-- What each pass keeps is kept by all rounds. -/
theorem rounds_preserves (hfold : ∀ {code}, P code → P (Folding.run code))
    (hpeep : ∀ {code}, P code → P (Peephole.run code)) (hthread : ∀ {code}, P code → P (Threading.run code))
    (hdead : ∀ {code}, P code → P (DeadCode.run code)) (c : OptimizerConfig) (n : Nat) (h : P code) :
    P (rounds c n code) := by
  have hpass : ∀ {b : Bool} {pass : List Instr → List Instr}, (∀ {code}, P code → P (pass code)) →
      ∀ {code}, P code → P (if b then pass code else code) := by
    intro b pass hpass code h
    cases b with
    | true => exact hpass h
    | false => exact h
  induction n generalizing code with
  | zero => exact h
  | succ n ih =>
    unfold rounds
    dsimp only
    split
    · exact h
    · exact ih (hpass hdead (hpass hthread (hpass hpeep (hpass hfold h))))

/-- What survives the steps survives optimizing. -/
theorem survives_optimizeInstrs (hP : Survives P) (c : OptimizerConfig) (h : P code) : P (optimizeInstrs c code) := by
  have hlong : P (code.map Instr.lengthen) :=
    hP.replace h (replaces_map Instr.restates_lengthen (fun _ _ => Instr.refers_lengthen) code)
  have hrounds := rounds_preserves (fun h => hP.replace h (Folding.sound_rule.apply (hP.workable h)))
    (fun h => hP.replace h (Peephole.sound_rule.apply (hP.workable h))) hP.run
    (fun h => hP.replace h (DeadCode.replaces_run (hP.workable h))) c 10 hlong
  unfold optimizeInstrs
  dsimp only
  split
  · exact hP.replace hrounds (replaces_map Instr.restates_shorten (fun _ _ => Instr.refers_shorten) _)
  · exact hrounds

end Optimizer

/-- Finished code has depths at its offsets, whatever the optimizer did to it. -/
theorem depthsAt_finishCode {config a} (h : Consistent code) (ha : finishCode config code = .ok a) :
    ∃ read D, decodeFinal a.code = .ok read ∧ DepthsAt D read := by
  obtain ⟨first, hfirst, ha⟩ := bind_eq_ok.mp ha
  obtain ⟨read, D, hread, hD, hinstrs⟩ := depthsAt_of_assemble h hfirst
  split at ha
  · cases ha
    exact ⟨read, D, hread, hD⟩
  · obtain ⟨read', hread', ha⟩ := bind_eq_ok.mp ha
    cases hread.symm.trans hread'
    have htidy := Optimizer.survives_optimizeInstrs Threading.survives_tidy config
      (tidy_labelize first.lines hread hD hinstrs)
    obtain ⟨read', D', hread', hD', -⟩ := depthsAt_of_assemble htidy.toConsistent ha
    exact ⟨read', D', hread', hD'⟩

end ScriptBytecode
