import ScriptBytecode.Proofs.Assembly

/-!
# Jump widths

Distances grow with the widths of the jumps on the way. So layout widens no jump beyond the width that it has in any
code whose jumps all reach their labels (`settle_within`), and of all such codes it ends with the narrowest.
-/

namespace ScriptBytecode

open Layout hiding sizeOf

/-! ## Layout stays within settled code -/

/-- The first instruction takes no more room than the second, and if it is a jump it is a narrower form of it. -/
structure Instr.Within (i u : Instr) : Prop where
  marked : marked? i = marked? u
  marker : i.isMarker = u.isMarker
  size : i.size ≤ u.size
  jump : ∀ op, i.op = .final op → op.isJump = true → i.Widens u

theorem fitsSigned_of_between {w d d'} (h : fitsSigned w d') (hd : 0 ≤ d ∧ d ≤ d' ∨ d' ≤ d ∧ d ≤ 0) :
    fitsSigned w d := by
  simp only [fitsSigned, Bool.and_eq_true, decide_eq_true_eq] at h ⊢
  omega

theorem fitsSigned_mono {w w' n} (hw : w ≤ w') (h : fitsSigned w n) : fitsSigned w' n := by
  have hpow : Nat.pow 2 (w - 1) ≤ Nat.pow 2 (w' - 1) := Nat.pow_le_pow_right (by decide) (by omega)
  simp only [fitsSigned, Bool.and_eq_true, decide_eq_true_eq] at h ⊢
  omega

variable {code upper front front' : List Instr} {bound bound' : List (Nat × Nat)} {i u : Instr}

theorem Opcode.Widens.size_le {a : Opcode} {b} (h : a.Widens b) : a.size ≤ b.size := by
  induction h with
  | refl => exact le_rfl
  | step head _ ih =>
    refine Nat.le_trans ?_ ih
    unfold wider? at head
    split at head <;> cases head <;> decide

theorem Instr.Widens.size_le (h : i.Widens u) : i.size ≤ u.size := by
  cases h with
  | refl => exact le_rfl
  | wider hop => exact hop.size_le

theorem Instr.Widens.within (hu : i.Widens u) : i.Within u where
  marked := hu.marked?_eq
  marker := hu.isMarker_eq
  size := hu.size_le
  jump := fun _ _ _ => hu

namespace Layout

section

variable (h : List.Forall₂ Instr.Within code upper)
include h

theorem sizeOf_within : Layout.sizeOf code ≤ Layout.sizeOf upper := by
  induction h with
  | nil => exact le_rfl
  | cons hi _ ih => exact Nat.add_le_add hi.size ih

theorem marks_within : marks code = marks upper := by
  induction h with
  | nil => rfl
  | cons hi _ ih => rw [marks, marks, List.filterMap_cons, List.filterMap_cons, hi.marked, ← marks, ← marks, ih]

/-- A marker is no further from the start and from the end of the code. -/
theorem offset?_within {l t' q} (ht : offset? l q upper = some t') (p : Nat) :
    ∃ t, offset? l p code = some t ∧ p ≤ t ∧ t + q ≤ t' + p ∧
      p + Layout.sizeOf code + t' ≤ q + Layout.sizeOf upper + t := by
  induction h generalizing p q with
  | nil => cases ht
  | @cons i u code upper hi hrest ih =>
    have hsize := sizeOf_within hrest
    have hi' := hi.size
    rw [offset?, hi.marked, sizeOf_cons, sizeOf_cons]
    rw [offset?] at ht
    by_cases hmark : marked? u = some l
    · rw [if_pos hmark] at ht ⊢
      cases ht
      exact ⟨p, rfl, le_rfl, by omega, by omega⟩
    · rw [if_neg hmark] at ht ⊢
      obtain ⟨t, ht, hle, hfar, hnear⟩ := ih ht (p + i.size)
      exact ⟨t, ht, by omega, by omega, by omega⟩

end

section

variable (hfront : List.Forall₂ Instr.Within front front')
include hfront

/-- The label of a jump is marked here too, and if the jump has the same form, it leads no further. -/
theorem target_within {l t' op op' arg rest rest'}
    (hi : Instr.Within ⟨.final op, arg⟩ ⟨.final op', arg⟩) (hrest : List.Forall₂ Instr.Within rest rest')
    (ht : offset? l 0 (front' ++ ⟨.final op', arg⟩ :: rest') = some t') :
    ∃ t, offset? l 0 (front ++ ⟨.final op, arg⟩ :: rest) = some t ∧ (op = op' → ∀ w,
      fitsSigned w (distance ⟨Layout.sizeOf front', ⟨.final op', arg⟩⟩ t') →
      fitsSigned w (distance ⟨Layout.sizeOf front, ⟨.final op, arg⟩⟩ t)) := by
  have hsize : ∀ o : Opcode, Instr.size ⟨.final o, arg⟩ = 1 + o.format.operandSize := fun _ => rfl
  have hfield : ∀ o : Opcode, o.format.shape.labelOffset ≤ 1 + o.format.operandSize := by
    intro o
    cases o.format <;> decide
  have hdistance : ∀ pos (o : Opcode) t, distance ⟨pos, ⟨.final o, arg⟩⟩ t =
      (t : Int) - (pos + o.format.shape.labelOffset : Nat) := fun _ _ _ => rfl
  have hmark : ∀ o : Opcode, ¬marked? ⟨.final o, arg⟩ = some l := nofun
  rw [offset?_append, Nat.zero_add, offset?, if_neg (hmark _), hsize] at ht ⊢
  simp only [hdistance]
  cases hback : offset? l 0 front' with
  | some s =>
    rw [hback, Option.some_or] at ht
    cases ht
    obtain ⟨t, ht, -, -, hnear⟩ := offset?_within hfront hback 0
    have hle := offset?_le ht
    rw [ht, Option.some_or]
    refine ⟨t, rfl, ?_⟩
    rintro rfl w h
    exact fitsSigned_of_between h (.inr (by omega))
  | none =>
    rw [hback, Option.none_or] at ht
    have hnone : offset? l 0 front = none := by
      rw [offset?_eq_none_iff, marks_within hfront, ← offset?_eq_none_iff, hback]
    obtain ⟨t, ht, hle, hfar, -⟩ := offset?_within hrest ht (Layout.sizeOf front + (1 + op.format.operandSize))
    rw [hnone, Option.none_or, ht]
    refine ⟨t, rfl, ?_⟩
    rintro rfl w h
    have := hfield op
    exact fitsSigned_of_between h (.inl (by omega))

/-- A step of a round: one instruction. -/
theorem widen_within {rest rest'} (hi : i.Within u)
    (hrest : List.Forall₂ Instr.Within rest rest') (hbind : bind 0 [] (front ++ i :: rest) = .ok bound)
    (hbind' : bind 0 [] (front' ++ u :: rest') = .ok bound') (hstays : widen bound' ⟨Layout.sizeOf front', u⟩ = .ok u) :
    ∃ j, widen bound ⟨Layout.sizeOf front, i⟩ = .ok j ∧ j.Within u := by
  obtain ⟨op, arg⟩ := i
  cases op with
  | pseudo op => exact ⟨_, rfl, hi⟩
  | final op =>
    cases hjump : op.isJump with
    | false => exact ⟨_, by simp [widen, hjump], hi⟩
    | true =>
      obtain ⟨op', rfl, hop⟩ : ∃ op', u = ⟨.final op', arg⟩ ∧ op.Widens op' := by
        cases hi.jump op rfl hjump with
        | refl => exact ⟨op, rfl, .refl op⟩
        | wider hop => exact ⟨_, rfl, hop⟩
      obtain ⟨t', hlookup', hfits⟩ := fits_of_widen hstays (hop.isJump_eq ▸ hjump)
      obtain ⟨t, ht, hreach⟩ := target_within hfront hi hrest (by simpa [lookup_of_bind hbind'] using hlookup')
      have hlookup : bound.lookup (arg.label?.getD 0) = some t := by rw [lookup_of_bind hbind, ht, Option.some_or]
      simp only [widen, hjump, hlookup, Bool.not_true, Bool.false_eq_true, if_false]
      split
      · exact ⟨_, rfl, hi⟩
      · rename_i hfar
        cases hop with
        | refl => exact absurd (hreach rfl _ hfits) hfar
        | step head tail =>
          rw [head]
          exact ⟨_, rfl, (Instr.Widens.wider tail arg).within⟩

/-- A round widens nothing beyond settled code, so it has a form for every jump. -/
theorem round_within (h : List.Forall₂ Instr.Within code upper)
    (hbind : bind 0 [] (front ++ code) = .ok bound) (hbind' : bind 0 [] (front' ++ upper) = .ok bound')
    (hstays : ∀ here ∈ placeFrom (Layout.sizeOf front') upper, widen bound' here = .ok here.instr) :
    ∃ wider, (placeFrom (Layout.sizeOf front) code).mapM (widen bound) = .ok wider ∧
      List.Forall₂ Instr.Within wider upper := by
  induction h generalizing front front' with
  | nil => exact ⟨[], rfl, .nil⟩
  | @cons i u rest rest' hi hrest ih =>
    rw [placeFrom, List.forall_mem_cons] at hstays
    obtain ⟨j, hj, hwithin⟩ := widen_within hfront hi hrest hbind hbind' hstays.1
    have hend : ∀ (front : List Instr) i, Layout.sizeOf (front ++ [i]) = Layout.sizeOf front + i.size := by
      intro front i
      simp [sizeOf_append, Layout.sizeOf]
    obtain ⟨wider, hwider, hwithins⟩ := @ih (front ++ [i]) (front' ++ [u])
      (List.rel_append hfront (.cons hi .nil)) (by simpa using hbind) (by simpa using hbind') (hend front' u ▸ hstays.2)
    rw [hend, mapM_eq_ok] at hwider
    exact ⟨j :: wider, mapM_eq_ok.mpr (.cons hj hwider), .cons hwithin hwithins⟩

end

/-- Layout ends within every settled code that it starts within. -/
theorem settle_within (hupper : Settled bound' upper) (rounds : Nat) (h : List.Forall₂ Instr.Within code upper) :
    ∃ settled, settle rounds code = .ok settled ∧ List.Forall₂ Instr.Within settled upper := by
  induction rounds generalizing code with
  | zero => exact ⟨code, rfl, h⟩
  | succ rounds ih =>
    have hnodup := (bind_eq_ok_iff.mp ⟨bound', hupper.binds⟩).1
    obtain ⟨bound, hbound⟩ := bind_eq_ok_iff.mpr ⟨marks_within h ▸ hnodup, fun _ _ => List.lookup_nil⟩
    obtain ⟨wider, hwider, hwithin⟩ := round_within .nil h hbound hupper.binds hupper.stays
    have hstep : settle (rounds + 1) code = if wider == code then .ok code else settle rounds wider := by
      rw [settle, hbound]
      simp only [Bind.bind, Except.bind, place_eq]
      erw [hwider]
      rfl
    rw [hstep]
    split
    · exact ⟨code, rfl, h⟩
    · exact ih hwithin

/-! ## The narrowest layout -/

/-- Every jump of code finds its label at a distance that its field has room for. -/
structure Reaches (bound : List (Nat × Nat)) (code : List Instr) : Prop where
  binds : bind 0 [] code = .ok bound
  fits : ∀ here ∈ place code, ∀ op, here.instr.op = .final op → op.isJump = true →
    ∃ target, bound.lookup (here.instr.arg.label?.getD 0) = some target ∧
      fitsSigned (8 * op.format.shape.labelWidth) (distance here target) = true

theorem settled_iff_reaches : Settled bound code ↔ Reaches bound code := by
  constructor
  · intro h
    refine ⟨h.binds, fun here hhere op hop hjump => ?_⟩
    have hstays := h.stays here (place_eq code ▸ hhere)
    obtain ⟨pos, ⟨_, arg⟩⟩ := here
    subst hop
    exact fits_of_widen hstays hjump
  · intro h
    refine ⟨h.binds, fun here hhere => ?_⟩
    obtain ⟨pos, ⟨op, arg⟩⟩ := here
    cases op with
    | pseudo op => rfl
    | final op =>
      cases hjump : op.isJump with
      | false => simp [widen, hjump]
      | true =>
        obtain ⟨target, hlookup, hfits⟩ := h.fits _ (place_eq code ▸ hhere) op rfl hjump
        simp only at hlookup
        simp [widen, hjump, hlookup, hfits]

/-- How often the instruction with index `k` changes on the way through codes. -/
def changes (k : Nat) : List Instr → List (List Instr) → Nat
  | _, [] => 0
  | code, next :: codes => (if next[k]? = code[k]? then 0 else 1) + changes k next codes

/-- A step: an instruction that a round changes has one widening less left. -/
theorem wideningsLeft_round {pc wider} (h : (placeFrom pc code).mapM (widen bound) = .ok wider) (k : Nat) :
    (wider[k]?).elim 0 Instr.wideningsLeft + (if wider[k]? = code[k]? then 0 else 1)
      ≤ (code[k]?).elim 0 Instr.wideningsLeft := by
  rw [mapM_eq_ok] at h
  induction code generalizing pc wider k with
  | nil =>
    cases h
    exact le_rfl
  | cons i rest ih =>
    obtain _ | ⟨hi, hrest⟩ := h
    cases k with
    | succ k => exact ih hrest k
    | zero =>
      have hless := (widen_eq_ok hi).2
      simp only [List.getElem?_cons_zero, Option.some.injEq, Option.elim_some] at hless ⊢
      split
      · rename_i hsame
        exact (congrArg Instr.wideningsLeft hsame).le
      · exact hless.resolve_left ‹_›

theorem Rounds.changes_le {codes settled} (h : Rounds code codes settled) (k : Nat) :
    changes k code codes ≤ (code[k]?).elim 0 Instr.wideningsLeft := by
  induction h with
  | done => exact Nat.zero_le _
  | more next _ _ ih =>
    obtain ⟨bound, -, hwider⟩ := bind_eq_ok.mp next
    have := wideningsLeft_round (place_eq _ ▸ hwider) k
    rw [changes]
    omega

/-- What is within a wider form of the same jump is a narrower form of it. -/
theorem widens_of_within {c : Instr} (hi : c.Widens i) (hu : c.Widens u) (h : i.Within u) : i.Widens u := by
  cases hi with
  | refl => exact hu
  | @wider op op' hop arg =>
    cases hop with
    | refl => exact hu
    | step head tail =>
      refine h.jump op' rfl ?_
      obtain ⟨w, w', ha, -⟩ := Opcode.shape_of_wider? head
      rw [← (Opcode.Widens.step head tail).isJump_eq]
      simp [Opcode.isJump, Format.hasLabel, ha, Shape.hasLabel]

theorem labelWidth_le_of_widens (h : i.Widens u) :
    i.op.format.shape.labelWidth ≤ u.op.format.shape.labelWidth := by
  cases h with
  | refl => exact le_rfl
  | wider hop =>
    induction hop with
    | refl => exact le_rfl
    | step head _ ih =>
      obtain ⟨w, w', ha, hb, hlt⟩ := Opcode.shape_of_wider? head
      refine Nat.le_trans ?_ ih
      change Shape.labelWidth (Opcode.format _).shape ≤ Shape.labelWidth (Opcode.format _).shape
      rw [ha, hb]
      exact hlt.le

theorem narrower_of_within {settled choice} (hsettled : List.Forall₂ Instr.Widens code settled)
    (hchoice : List.Forall₂ Instr.Widens code choice) (h : List.Forall₂ Instr.Within settled choice) :
    List.Forall₂ (fun i u => i.op.format.shape.labelWidth ≤ u.op.format.shape.labelWidth) settled choice := by
  induction hsettled generalizing choice with
  | nil =>
    cases hchoice
    exact .nil
  | cons hi _ ih =>
    obtain _ | ⟨hu, hchoice⟩ := hchoice
    obtain _ | ⟨hwithin, h⟩ := h
    exact .cons (labelWidth_le_of_widens (widens_of_within hi hu hwithin)) (ih hchoice h)

/-- Finished code is written from the narrowest forms whose jumps all reach their labels, which rounds of widening come
to after at most two changes of each instruction. -/
structure Narrowest (code settled : List Instr) (bound : List (Nat × Nat)) (codes : List (List Instr))
    (a : Assembled) : Prop where
  written : a = ⟨(place settled).flatMap (bytes bound), Layout.lines (place settled)⟩
  widens : List.Forall₂ Instr.Widens code settled
  reaches : Reaches bound settled
  least : ∀ choice bound', List.Forall₂ Instr.Widens code choice → Reaches bound' choice →
    List.Forall₂ (fun i u => i.op.format.shape.labelWidth ≤ u.op.format.shape.labelWidth) settled choice
  rounds : Rounds code codes settled
  changes_le : ∀ k, changes k code codes ≤ 2

end Layout

/-- Layout gives every jump the least width that lets all jumps reach their labels. -/
theorem assemble_narrowest {a : Assembled} (h : assemble code = .ok a) :
    ∃ settled bound codes, Narrowest code settled bound codes a := by
  obtain ⟨settled, bound, hsettle, hsettled, hwides, -, rfl⟩ := assemble_settles h
  have hsteps := stepsLeft_le code
  obtain ⟨codes, hcodes⟩ := rounds_of_settle hsettle (by omega)
  refine ⟨settled, bound, codes, by rw [place_eq], hwides, settled_iff_reaches.mp hsettled, ?_, hcodes, fun k => ?_⟩
  · intro choice bound' hchoice hreaches
    obtain ⟨settled', hsettle', hwithin⟩ := settle_within (settled_iff_reaches.mpr hreaches) (2 * code.length + 1)
      (hchoice.imp fun _ _ => Instr.Widens.within)
    obtain rfl := Except.ok.inj (hsettle.symm.trans hsettle')
    exact narrower_of_within hwides hchoice hwithin
  · refine Nat.le_trans (hcodes.changes_le k) ?_
    cases code[k]? with
    | none => exact Nat.zero_le 2
    | some i => exact i.wideningsLeft_le

/-- A loop that is too long for its short jumps. -/
theorem assemble_narrowest_farLoop : ∃ a, assemble farLoop = .ok a ∧
    ∃ settled bound codes, Narrowest farLoop settled bound codes a := by
  have hok : (assemble farLoop).toOption.isSome := by decide +kernel
  cases ha : assemble farLoop with
  | error e => exact nomatch ha ▸ hok
  | ok a => exact ⟨a, rfl, assemble_narrowest ha⟩

end ScriptBytecode
