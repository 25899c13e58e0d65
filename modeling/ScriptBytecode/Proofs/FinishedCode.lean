import ScriptBytecode.Instr.Labels
import ScriptBytecode.Proofs.Depths

/-!
# Depths in finished code

In finished code depths belong to offsets. Layout turns the depths of labels into depths of offsets, and
recovering labels turns these back.
-/

namespace ScriptBytecode

open Flow

variable {L : Nat → Option Nat}

variable {i j : Instr} {pc : Nat} {code : List Instr} {arg : Operand} {cur : Option Nat} {op : Opcode}

/-! ## Instructions with the same effect -/

namespace Instr

/-- Two instructions do the same to the stack. -/
structure SameEffect (i j : Instr) : Prop where
  stackEffect : i.stackEffect = j.stackEffect
  isExit : i.isExit = j.isExit
  takesCount : i.op.format.takesCount = j.op.format.takesCount
  depthAtTarget : ∀ d, i.depthAtTarget d = j.depthAtTarget d

/-- Two instructions can stand for each other as far as depths are concerned. -/
structure Alike (i j : Instr) : Prop extends SameEffect i j where
  target : i.target? = j.target?
  endLabel : i.endLabel? = j.endLabel?
  marked : Layout.marked? i = Layout.marked? j

theorem SameEffect.refl (i : Instr) : i.SameEffect i :=
  ⟨rfl, rfl, rfl, fun _ => rfl⟩

theorem SameEffect.trans {k} (h : i.SameEffect j) (h' : j.SameEffect k) : i.SameEffect k :=
  ⟨h.1.trans h'.1, h.2.trans h'.2, h.3.trans h'.3, fun d => (h.4 d).trans (h'.4 d)⟩

theorem SameEffect.depthBehind (h : i.SameEffect j) (d : Nat) : i.depthBehind d = j.depthBehind d := by
  rw [Instr.depthBehind, Instr.depthBehind, h.stackEffect]

theorem Alike.refl (i : Instr) : i.Alike i :=
  ⟨.refl i, rfl, rfl, rfl⟩

/-- The operand matters only where it counts values. -/
theorem sameEffect_of_op {op : Op} {arg'}
    (h : op.format.takesCount → Instr.stackEffect ⟨op, arg⟩ = Instr.stackEffect ⟨op, arg'⟩) :
    SameEffect ⟨op, arg⟩ ⟨op, arg'⟩ := by
  have heffect : Instr.stackEffect ⟨op, arg⟩ = Instr.stackEffect ⟨op, arg'⟩ := by
    cases hcount : op.format.takesCount with
    | true => exact h hcount
    | false => rw [stackEffect_of_not_count _ hcount, stackEffect_of_not_count _ hcount]
  refine ⟨heffect, rfl, rfl, fun d => ?_⟩
  unfold depthAtTarget Instr.depthBehind
  rw [heffect]
  rfl

theorem Widens.alike (h : i.Widens j) : i.Alike j := by
  cases h with
  | refl => exact .refl i
  | @wider op op' hop arg =>
    refine ⟨?_, (Widens.wider hop arg).target?_eq, rfl, rfl⟩
    induction hop with
    | refl => exact .refl _
    | step head tail ih =>
      refine .trans ?_ ih
      unfold Opcode.wider? at head
      split at head <;> cases head <;> exact ⟨rfl, rfl, rfl, fun _ => rfl⟩

end Instr

namespace Flow

theorem pass_alike (h : i.Alike j) (cur : Option Nat) : pass L i cur = pass L j cur := by
  unfold pass
  rw [h.endLabel, h.isExit, h.takesCount, funext h.depthBehind]

theorem allows_alike (h : i.Alike j) (hi : Allows L i cur) : Allows L j cur := by
  cases cur with
  | none => exact allows_none j
  | some d =>
    cases hm : Layout.marked? i with
    | some l =>
      rw [allows_mark hm] at hi
      rwa [allows_mark (h.marked ▸ hm)]
    | none =>
      rw [allows_some hm] at hi
      rw [allows_some (h.marked ▸ hm), ← h.stackEffect, ← h.target, ← h.depthAtTarget]
      exact hi

theorem flows_alike {a b} (h : List.Forall₂ Instr.Alike a b) (ha : Flows L cur a) : Flows L cur b := by
  induction h generalizing cur with
  | nil => exact trivial
  | cons hi _ ih => exact ⟨allows_alike hi ha.1, ih (pass_alike hi cur ▸ ha.2)⟩

end Flow

/-! ## Depths of offsets -/

/-- Control that comes to an instruction at the depth of its offset comes to the next one, and to the target of
a jump, at the depth of theirs. -/
structure Located.Respects (D : Nat → Option Nat) (here : Located) (d : Nat) : Prop where
  pops : here.instr.stackEffect.1 ≤ d
  target : ∀ pos, here.instr.target? = some pos → D pos = some (here.instr.depthAtTarget d)
  next : here.instr.isExit = false → (here.instr.op.format.takesCount = true → d ≤ StackSize.limit) →
    D (here.pos + here.instr.size) = some (here.instr.depthBehind d)

/-- Offsets with depths, from the first instruction on. -/
structure DepthsAt (D : Nat → Option Nat) (code : List Located) : Prop where
  start : D 0 = some 0
  steps : ∀ here ∈ code, ∀ d, D here.pos = some d → here.Respects D d

/-- Code whose labels have depths. -/
structure Consistent (code : List Instr) : Prop where
  flows : ∃ L, Flows L (some 0) code
  instrs : ∀ i ∈ code, i.Encodable

/-- Code with depths, made of finished instructions and markers, each label marked once at most. -/
structure Tidy (code : List Instr) : Prop extends Consistent code where
  placeable : ∀ i ∈ code, Layout.Placeable i
  marks : (Layout.marks code).Nodup

/-- The depth at an offset, in code that starts at `pc` and is reached at depth `cur`. Markers stand in front of
the offset. -/
def depthAt (L : Nat → Option Nat) (pos : Nat) : Nat → Option Nat → List Instr → Option Nat
  | pc, cur, [] => if pc = pos then cur else none
  | pc, cur, i :: rest =>
    if !i.isMarker && pc = pos then cur else depthAt L pos (pc + i.size) (pass L i cur) rest

namespace Layout

theorem depthAt_marker (h : i.isMarker) (pos pc : Nat) (cur : Option Nat) (rest : List Instr) :
    depthAt L pos pc cur (i :: rest) = depthAt L pos pc (pass L i cur) rest := by
  have hsize : i.size = 0 := by simp [Instr.size, h]
  simp [depthAt, h, hsize]

theorem depthAt_next {pos} (h : pc + i.size ≤ pos) (cur : Option Nat) (rest : List Instr) :
    depthAt L pos pc cur (i :: rest) = depthAt L pos (pc + i.size) (pass L i cur) rest := by
  cases hm : i.isMarker with
  | true => rw [depthAt_marker hm, Instr.size, hm]; rfl
  | false =>
    have hsize : 0 < i.size := by simp [Instr.size, hm, Nat.add_comm 1]
    rw [depthAt, if_neg]
    simp only [hm, Bool.not_false, Bool.true_and, decide_eq_true_eq]
    omega

theorem pass_marker (h : i.isMarker) {e} (hallows : Allows L i (some e)) : pass L i (some e) = some e := by
  obtain ⟨op, arg⟩ := i
  unfold Instr.isMarker at h
  dsimp only at h
  split at h
  · cases hl : arg.label? with
    | some l =>
      have hend : Instr.endLabel? ⟨.pseudo .label, arg⟩ = some l := hl
      have hmark : marked? ⟨.pseudo .label, arg⟩ = some l := hl
      rw [pass_end hend]
      exact (allows_mark hmark _).mp hallows e rfl
    | none =>
      have hend : Instr.endLabel? ⟨.pseudo .label, arg⟩ = none := hl
      rw [pass_some hend]
      rfl
  · rw [pass_some rfl]
    rfl
  · cases h

/-- Behind markers control comes to the same offset. -/
theorem depthAt_here {e} (hflows : Flows L (some e) code) : depthAt L pc pc (some e) code = some e := by
  induction code with
  | nil => simp [depthAt]
  | cons i rest ih =>
    cases hm : i.isMarker with
    | true =>
      have hpass := pass_marker hm hflows.1
      rw [depthAt_marker hm, hpass]
      exact ih (hpass ▸ hflows.2)
    | false => simp [depthAt, hm]

/-- A label that is marked at an offset has the depth of the offset. -/
theorem depthAt_of_offset? {l target d} (hflows : Flows L cur code) (hoffset : offset? l pc code = some target)
    (hl : L l = some d) : depthAt L target pc cur code = some d := by
  induction code generalizing pc cur with
  | nil => cases hoffset
  | cons i rest ih =>
    unfold offset? at hoffset
    split at hoffset
    · rename_i hmark
      cases hoffset
      have hmarker : i.isMarker := by
        unfold marked? at hmark
        split at hmark
        · rename_i h
          have hop : i.op = .pseudo .label := by simpa [Instr.isMark] using h
          rw [Instr.isMarker, hop]
        · cases hmark
      have hpass : pass L i cur = some d := (pass_end (endLabel?_of_marked? hmark) cur).trans hl
      rw [depthAt_marker hmarker, hpass]
      exact depthAt_here (hpass ▸ hflows.2)
    · rw [depthAt_next (offset?_le hoffset).1]
      exact ih hflows.2 hoffset

/-! ## What is read back -/

theorem hasLabel_of_takesCount {f : Format} (h : f.takesCount) : f.hasLabel = false := by
  revert h
  cases f <;> decide

theorem label?_readBack {shape : Shape} (h : shape.hasLabel) (arg : Operand) (target : Nat) :
    (shape.readBack arg target).label? = some target := by
  revert h
  cases shape <;> first | exact fun _ => rfl | exact nofun

/-- A count is read back as it is. -/
theorem readBack_count (h : Instr.Encodable ⟨.final op, arg⟩) (hcount : op.format.takesCount) (target : Nat) :
    op.format.shape.readBack arg target = arg := by
  have hfits : op.format.shape.fits arg := h.counts hcount
  have hlabel : arg.label?.isSome = false :=
    (Shape.isSome_label?_of_fits hfits).trans (hasLabel_of_takesCount hcount)
  rw [Format.readBack_of_fits target hfits,
    Operand.withLabel_of_label?_none (Option.isSome_eq_false_iff.mp hlabel |> Option.isNone_iff_eq_none.mp)]

/-- An instruction that is read back does the same to the stack. -/
theorem sameEffect_readBack (h : Instr.Encodable ⟨.final op, arg⟩) (target : Nat) :
    Instr.SameEffect ⟨.final op, arg⟩ ⟨.final op, op.format.shape.readBack arg target⟩ :=
  Instr.sameEffect_of_op fun hcount => by rw [readBack_count h hcount]

/-- The count that a field holds fits it. -/
theorem fits_readBack_count {f : Format} (h : f.takesCount) (arg : Operand) (target : Nat) :
    f.shape.fits (f.shape.readBack arg target) := by
  have hnumber : arg.number 2 < Nat.pow 256 2 := unsignedWord_lt _ _
  unfold Format.takesCount at h
  split at h
  · simp only [Format.shape, Shape.readBack, Bool.false_eq_true, if_false, Shape.fits, Bool.and_eq_true,
      decide_eq_true_eq]
    exact ⟨Int.natCast_nonneg _, Int.ofNat_lt.mpr hnumber⟩
  · cases arg with
    | intPair a b =>
      simp only [Format.shape, Shape.readBack, Shape.fits, Bool.and_eq_true, decide_eq_true_eq]
      exact ⟨Nat.mod_lt _ (by decide), Nat.mod_lt _ (by decide)⟩
    | _ => rfl
  · rfl
  · cases h

/-- Whatever is read back suits its opcode. -/
theorem encodable_readBack (op : Opcode) (arg : Operand) (target : Nat) :
    Instr.Encodable ⟨.final op, op.format.shape.readBack arg target⟩ where
  labelled := fun hjump => Option.isSome_of_eq_some (label?_readBack hjump arg target)
  counts := fun hcount => fits_readBack_count hcount arg target
  named := nofun

variable {bound : List (Nat × Nat)} {D : Nat → Option Nat}

/-- A jump leads to the marker of its label. -/
theorem target?_readBack {pos target} (hstays : widen bound ⟨pos, ⟨.final op, arg⟩⟩ = .ok ⟨.final op, arg⟩)
    (hlabel : Labelled ⟨.final op, arg⟩)
    (h : Instr.target? ⟨.final op, op.format.shape.readBack arg (destination bound ⟨.final op, arg⟩)⟩ = some target) :
    ∃ l, Instr.target? ⟨.final op, arg⟩ = some l ∧ bound.lookup l = some target := by
  have hjump : op.isJump := by
    rw [Instr.target?_final] at h
    split at h
    · assumption
    · cases h
  obtain ⟨l, hl⟩ := Option.isSome_iff_exists.mp (hlabel hjump)
  have hl' : Instr.target? ⟨.final op, arg⟩ = some l := by rw [Instr.target?_final, if_pos hjump, hl]
  obtain ⟨target', hlookup, -⟩ := fits_of_widen hstays hjump
  rw [hl, Option.getD_some] at hlookup
  have hdest : destination bound ⟨.final op, arg⟩ = target' := by
    rw [destination, hl', Option.bind_some, hlookup, Option.getD_some]
  rw [Instr.target?_final, if_pos hjump, label?_readBack hjump, hdest] at h
  cases h
  exact ⟨l, hl', hlookup⟩

/-- Code that flows is read back as instructions that keep to the depths of their offsets. -/
theorem respects_of_flows (hflows : Flows L cur code) (hplace : ∀ i ∈ code, Placeable i)
    (hinstrs : ∀ i ∈ code, i.Encodable) (hstays : ∀ here ∈ placeFrom pc code, widen bound here = .ok here.instr)
    (hD : ∀ pos, pc ≤ pos → D pos = depthAt L pos pc cur code)
    (hbound : ∀ l target d, bound.lookup l = some target → L l = some d → D target = some d) :
    ∀ here ∈ (placeFrom pc code).filterMap (readBack? bound), ∀ d, D here.pos = some d → here.Respects D d := by
  induction code generalizing pc cur with
  | nil => exact nofun
  | cons i rest ih =>
    have ih := ih hflows.2 (fun j hj => hplace j (List.mem_cons_of_mem _ hj))
      (fun j hj => hinstrs j (List.mem_cons_of_mem _ hj))
      (fun here h => hstays here (List.mem_cons_of_mem _ h))
      fun pos hpos => (hD pos (by omega)).trans (depthAt_next hpos cur rest)
    obtain ⟨op, arg⟩ := i
    cases op with
    | pseudo op => simpa only [placeFrom, List.filterMap_cons, readBack?_pseudo] using ih
    | final op =>
      simp only [placeFrom, List.filterMap_cons, readBack?_final]
      rw [List.forall_mem_cons]
      refine ⟨fun d hd => ?_, ih⟩
      have hi := hinstrs _ List.mem_cons_self
      have hcur : cur = some d := by
        rw [← hd, hD pc le_rfl, depthAt]
        simp [Instr.isMarker]
      subst hcur
      obtain ⟨hpops, htarget⟩ := (allows_some rfl d).mp hflows.1
      have hsame := sameEffect_readBack hi (destination bound ⟨.final op, arg⟩)
      refine ⟨hsame.stackEffect ▸ hpops, fun pos hpos => ?_, fun hexit hcount => ?_⟩
      · obtain ⟨l, hl, hlookup⟩ := target?_readBack (hstays _ (List.mem_cons_self ..)) hi.labelled hpos
        rw [← hsame.depthAtTarget]
        exact hbound l _ _ hlookup (htarget l hl)
      · have hsize : Instr.size ⟨.final op, op.format.shape.readBack arg
            (destination bound ⟨.final op, arg⟩)⟩ = Instr.size ⟨.final op, arg⟩ := rfl
        have hpass : pass L ⟨.final op, arg⟩ (some d) = some (Instr.depthBehind ⟨.final op, arg⟩ d) := by
          rw [pass_some rfl, if_neg]
          simp only [Bool.or_eq_true, Bool.and_eq_true, decide_eq_true_eq, not_or, not_and, Nat.not_lt,
            Bool.not_eq_true]
          exact ⟨hexit, hcount⟩
        rw [hsize, ← hsame.depthBehind, hD _ (Nat.le_add_right _ _), depthAt_next le_rfl, hpass]
        exact depthAt_here (hpass ▸ hflows.2)

/-- Where instructions were placed, others are read. -/
theorem forall_of_read {P Q : Located → Prop}
    (hread : ∀ pos op arg, P ⟨pos, ⟨.final op, arg⟩⟩ →
      Q ⟨pos, ⟨.final op, op.format.shape.readBack arg (destination bound ⟨.final op, arg⟩)⟩⟩)
    (h : ∀ here ∈ placeFrom pc code, P here) : ∀ here ∈ (placeFrom pc code).filterMap (readBack? bound), Q here := by
  intro here hhere
  obtain ⟨⟨pos, ⟨op, arg⟩⟩, hmem, hsome⟩ := List.mem_filterMap.mp hhere
  cases op with
  | pseudo op => cases hsome
  | final op =>
    cases hsome
    exact hread pos op arg (h _ hmem)

theorem mem_of_mem_placeFrom {here} (h : here ∈ placeFrom pc code) : here.instr ∈ code := by
  rw [← placeFrom_instr code pc]
  exact List.mem_map_of_mem h

theorem encodable_widens (h : i.Widens j) (hi : i.Encodable) : j.Encodable := by
  have halike := h.alike
  refine ⟨hi.labelled.widens h, fun hcount => ?_, ?_⟩
  · have hcount' := halike.takesCount.trans hcount
    cases h with
    | refl => exact hi.counts hcount
    | @wider op op' hop arg =>
      -- a count is no jump, so it has no wider form
      cases hop with
      | refl => exact hi.counts hcount
      | step head tail =>
        obtain ⟨w, w', hshape, -, -⟩ := Opcode.shape_of_wider? head
        have hlabel : op.format.hasLabel = false := hasLabel_of_takesCount hcount'
        rw [Format.hasLabel, hshape] at hlabel
        cases hlabel
  · cases h with
    | refl => exact hi.named
    | wider hop arg =>
      intro hline
      cases hline

end Layout

/-- Laid out code has depths at its offsets. -/
theorem depthsAt_of_assemble {a} (h : Consistent code) (ha : assemble code = .ok a) :
    ∃ read D, decodeFinal a.code = .ok read ∧ DepthsAt D read ∧ ∀ here ∈ read, here.instr.Encodable := by
  obtain ⟨⟨L, hflows⟩, hinstrs⟩ := h
  obtain ⟨settled, bound, hwides, hsettled, hplace, -, hread⟩ :=
    assemble_eq_ok ha fun i hi => (hinstrs i hi).labelled
  have hinstrs : ∀ i ∈ settled, i.Encodable :=
    Layout.forall₂_mem hwides (fun _ _ => Layout.encodable_widens) hinstrs
  have hflows : Flows L (some 0) settled :=
    flows_alike (hwides.imp fun _ _ h => h.alike) hflows
  refine ⟨_, fun pos => depthAt L pos 0 (some 0) settled, hread, ⟨?_, ?_⟩,
    Layout.forall_of_read (fun _ op arg _ => Layout.encodable_readBack op arg _) fun _ _ => trivial⟩
  · exact Layout.depthAt_here hflows
  · refine Layout.respects_of_flows hflows hplace hinstrs hsettled.stays (fun _ _ => rfl) ?_
    intro l target d hlookup hl
    rw [Layout.lookup_of_bind hsettled.binds] at hlookup
    exact Layout.depthAt_of_offset? hflows (by simpa using hlookup) hl

end ScriptBytecode
