import ScriptBytecode.Proofs.Layout

/-!
# Layout is sound

Code made of finished opcodes and markers, with operands that suit their opcodes, is laid out exactly
when every label has one marker at most and every jump a label that is marked. What is then decoded is
the code without its markers.
-/

namespace ScriptBytecode

open Instr (widest target?)

variable {bound : List (Nat × Nat)} {l : Nat} {op : Opcode} {here : Located}

/-! ## Operands that suit their opcodes -/

variable {arg : Operand} {i : Instr}

theorem Instr.target?_of_fits (h : i.fits) : i.target? = i.arg.label? := by
  have hsome := Shape.isSome_label?_of_fits h
  unfold target?
  split
  · rfl
  · rename_i hlabel
    change ¬i.op.format.shape.hasLabel = true at hlabel
    rw [← hsome, Option.not_isSome_iff_eq_none] at hlabel
    exact hlabel.symm

theorem Layout.labelled_of_fits (h : i.fits) : Layout.Labelled i :=
  fun hlabel => (Shape.isSome_label?_of_fits h).trans hlabel

variable {code settled : List Instr}

namespace Layout

/-- The code without its markers. -/
def instrsOf (code : List Instr) : List Instr :=
  code.filter (!·.isMarker)

theorem instrsOf_cons (i : Instr) (rest : List Instr) :
    instrsOf (i :: rest) = if i.isMarker then instrsOf rest else i :: instrsOf rest := by
  cases h : i.isMarker <;> simp [instrsOf, h]

/-- Every label has one marker at most, and every jump a label that is marked. -/
structure Linked (code : List Instr) : Prop where
  nodup : (marks code).Nodup
  marked : ∀ i ∈ instrsOf code, ∀ l, i.target? = some l → l ∈ marks code

/-! ## When there is a layout -/

theorem sizeOf_le_widest (code : List Instr) : sizeOf code ≤ sizeOf (code.map widest) := by
  induction code with
  | nil => exact le_rfl
  | cons i rest ih =>
    have := i.size_le_widest
    rw [List.map_cons, sizeOf_cons, sizeOf_cons]
    omega

/-- Whether code is linked depends on its labels only. -/
theorem Linked.congr {code'} (hmarks : marks code = marks code')
    (htargets : (instrsOf code).map target? = (instrsOf code').map target?) (h : Linked code) :
    Linked code' where
  nodup := hmarks ▸ h.nodup
  marked := by
    intro j hj l hl
    have hmem : some l ∈ (instrsOf code).map target? := by
      rw [htargets]
      exact List.mem_map.mpr ⟨j, hj, hl⟩
    obtain ⟨i, hi, hil⟩ := List.mem_map.mp hmem
    rw [← hmarks]
    exact h.marked i hi l hil

section

variable (h : List.Forall₂ Instr.Widens code settled)
include h

theorem marks_eq_of_widens : marks code = marks settled := by
  induction h with
  | nil => rfl
  | cons hi _ ih =>
    simp only [marks, List.filterMap_cons, hi.marked?_eq] at ih ⊢
    rw [ih]

theorem widest_eq_of_widens : code.map widest = settled.map widest := by
  induction h with
  | nil => rfl
  | cons hi _ ih => rw [List.map_cons, List.map_cons, hi.widest_eq, ih]

theorem targets_of_widens : (instrsOf code).map target? = (instrsOf settled).map target? := by
  induction h with
  | nil => rfl
  | @cons i j _ _ hij _ ih =>
    rw [instrsOf_cons, instrsOf_cons, hij.isMarker_eq]
    split
    · exact ih
    · rw [List.map_cons, List.map_cons, hij.target?_eq, ih]

theorem linked_iff_of_widens : Linked code ↔ Linked settled :=
  ⟨.congr (marks_eq_of_widens h) (targets_of_widens h),
    .congr (marks_eq_of_widens h).symm (targets_of_widens h).symm⟩

end

theorem Linked.bind_ok (h : Linked code) : ∃ bound, bind 0 [] code = .ok bound :=
  bind_eq_ok_iff.mpr ⟨h.nodup, fun _ _ => rfl⟩

theorem mem_placeFrom {pc} (h : here ∈ placeFrom pc code) :
    here.instr ∈ code ∧ pc ≤ here.pos ∧ here.pos + here.instr.size ≤ pc + sizeOf code := by
  induction code generalizing pc with
  | nil => cases h
  | cons i rest ih =>
    rw [sizeOf_cons]
    rcases List.mem_cons.mp h with rfl | h
    · exact ⟨List.mem_cons_self, le_rfl, by simp only; omega⟩
    · obtain ⟨hmem, hlow, hhigh⟩ := ih h
      exact ⟨List.mem_cons_of_mem _ hmem, by omega, by omega⟩

/-- A distance inside code of less than two gigabytes fits a field of four bytes. -/
theorem widen_ok {total target} (hop : here.instr.op = .final op) (hpos : here.pos + here.instr.size ≤ total)
    (htotal : total < 0x80000000) (hlookup : bound.lookup (here.instr.arg.label?.getD 0) = some target)
    (htarget : target ≤ total) : ∃ j, widen bound here = .ok j := by
  obtain ⟨pos, _, arg⟩ := here
  simp only at hop hpos hlookup
  subst hop
  simp only [widen, hlookup]
  split
  · exact ⟨_, rfl⟩
  · split
    · exact ⟨_, rfl⟩
    · rename_i hfits
      split
      · exact ⟨_, rfl⟩
      · rename_i hwider
        -- the widest form of a jump reaches every offset
        have hoffset : op.format.shape.labelOffset ≤ 1 + op.format.operandSize := by
          cases op.format <;> decide
        have hsize : Instr.size ⟨.final op, arg⟩ = 1 + op.format.operandSize := rfl
        have hhalf : (Nat.pow 2 (8 * 4 - 1) : Nat) = 0x80000000 := by decide
        rw [hsize] at hpos
        rw [Opcode.labelWidth_of_wider?_none hwider] at hfits
        simp only [fitsSigned, distance, Op.format, Op.info, hhalf, Bool.and_eq_true,
          decide_eq_true_eq] at hfits
        change ¬(_ ≤ (target : Int) - (pos + op.format.shape.labelOffset : Nat) ∧ _) at hfits
        omega

/-- In linked code every jump has an offset to go to. -/
theorem Linked.lookup_label (hlinked : Linked code) (hlabel : ∀ i ∈ code, Labelled i)
    (hbind : bind 0 [] code = .ok bound) (hmem : i ∈ code) (hop : i.op = .final op) (hjump : op.isJump) :
    ∃ target, bound.lookup (i.arg.label?.getD 0) = some target ∧ target ≤ sizeOf code := by
  have hhas : i.op.format.hasLabel := by rw [hop]; exact hjump
  obtain ⟨l, hl⟩ := Option.isSome_iff_exists.mp (hlabel _ hmem hhas)
  have htarget : i.target? = some l := by rw [target?, if_pos hhas, hl]
  have hinstr : i ∈ instrsOf code := List.mem_filter.mpr ⟨hmem, by simp [Instr.isMarker, hop]⟩
  have hmarked := hlinked.marked _ hinstr l htarget
  cases hoff : offset? l 0 code with
  | none => exact absurd hmarked (offset?_eq_none_iff.mp hoff)
  | some target =>
    refine ⟨target, ?_, ?_⟩
    · rw [hl, Option.getD_some, lookup_of_bind hbind, hoff, Option.some_or]
    · have hle := offset?_le hoff
      omega

/-- In linked code that is small enough, a round has an offset for every jump. -/
theorem round_ok (hlinked : Linked code) (hlabel : ∀ i ∈ code, Labelled i) (hsize : sizeOf code < 0x80000000)
    (hbind : bind 0 [] code = .ok bound) :
    ∃ wider, (place code).mapM (widen bound) = .ok wider := by
  rw [place_eq]
  apply mapM_ok_of_forall
  intro here hhere
  obtain ⟨hmem, -, hpos⟩ := mem_placeFrom hhere
  cases hop : here.instr.op with
  | pseudo op => exact ⟨here.instr, by simp [widen, hop]⟩
  | final op =>
    by_cases hjump : op.isJump = true
    · obtain ⟨target, hlookup, hle⟩ := hlinked.lookup_label hlabel hbind hmem hop hjump
      exact widen_ok hop (by omega) hsize hlookup hle
    · exact ⟨here.instr, by simp [widen, hop, hjump]⟩

theorem settle_ok (rounds : Nat) (hlinked : Linked code) (hlabel : ∀ i ∈ code, Labelled i)
    (hsize : sizeOf (code.map widest) < 0x80000000) :
    ∃ settled, settle rounds code = .ok settled := by
  induction rounds generalizing code with
  | zero => exact ⟨code, rfl⟩
  | succ rounds ih =>
    obtain ⟨bound, hbound⟩ := hlinked.bind_ok
    have hle := sizeOf_le_widest code
    obtain ⟨wider, hwider⟩ := round_ok hlinked hlabel (by omega) hbound
    have hstep : settle (rounds + 1) code
        = if wider == code then .ok code else settle rounds wider := by
      rw [settle, hbound]
      simp only [Bind.bind, Except.bind, hwider]
      rfl
    rw [hstep]
    split
    · exact ⟨code, rfl⟩
    · rw [place_eq] at hwider
      obtain ⟨hwides, -⟩ := round_spec hwider
      exact ih ((linked_iff_of_widens hwides).mp hlinked) (forall₂_mem hwides (fun _ _ => Labelled.widens) hlabel)
        (widest_eq_of_widens hwides ▸ hsize)

/-! ## What is read back -/

/-- The offset of the instruction with an index, or of the end of code of `total` bytes. -/
def offsetOf (read : List Located) (total n : Nat) : Nat :=
  (read[n]?).elim total (·.pos)

/-- `here` is what layout makes of an instruction of `code`: the instruction with the same operand, or a
wider form of it, and a jump leads to the instruction behind the marker of its label. -/
structure PlacedAs (code : List Instr) (read : List Located) (total : Nat) (i : Instr)
    (here : Located) : Prop where
  opcode : i.Widens ⟨here.instr.op, i.arg⟩
  operand : i.target? = none → here.instr.arg = i.arg
  target : ∀ l, i.target? = some l → ∃ before behind, code = before ++ .mark l :: behind ∧
    here.instr.arg = i.arg.withLabel (offsetOf read total (instrsOf before).length)

theorem placeFrom_append (pc : Nat) (before behind : List Instr) :
    placeFrom pc (before ++ behind) = placeFrom pc before ++ placeFrom (pc + sizeOf before) behind := by
  induction before generalizing pc with
  | nil => rfl
  | cons i rest ih =>
    rw [List.cons_append, placeFrom, placeFrom, ih, sizeOf_cons, Nat.add_assoc, List.cons_append]

theorem size_marker (h : i.isMarker) : i.size = 0 := by
  rw [Instr.size, if_pos h]

/-- A marker leaves nothing to be read, any other instruction leaves one. -/
theorem readBack?_eq (bound : List (Nat × Nat)) (pc : Nat) (h : Placeable i) :
    (i.isMarker ∧ readBack? bound ⟨pc, i⟩ = none) ∨
      (i.isMarker = false ∧ ∃ here, readBack? bound ⟨pc, i⟩ = some here ∧ here.pos = pc) := by
  obtain ⟨op, arg⟩ := i
  cases op with
  | pseudo op =>
    rcases h with h | ⟨_, h⟩
    · exact .inl ⟨h, rfl⟩
    · cases h
  | final op => exact .inr ⟨rfl, _, rfl, rfl⟩

/-- The first instruction of code that starts at `pc` stands at `pc`. -/
theorem offsetOf_zero (bound : List (Nat × Nat)) (pc : Nat) (hplace : ∀ i ∈ code, Placeable i) :
    offsetOf ((placeFrom pc code).filterMap (readBack? bound)) (pc + sizeOf code) 0 = pc := by
  induction code with
  | nil => rfl
  | cons i rest ih =>
    have hrest := ih fun j h => hplace j (List.mem_cons_of_mem _ h)
    rw [placeFrom, List.filterMap_cons, sizeOf_cons]
    rcases readBack?_eq bound pc (hplace i List.mem_cons_self) with ⟨hm, hr⟩ | ⟨-, here, hr, hpos⟩
    · rw [hr, size_marker hm, Nat.add_zero, Nat.zero_add]
      exact hrest
    · rw [hr]
      exact hpos

theorem length_read (bound : List (Nat × Nat)) (pc : Nat) (hplace : ∀ i ∈ code, Placeable i) :
    ((placeFrom pc code).filterMap (readBack? bound)).length = (instrsOf code).length := by
  induction code generalizing pc with
  | nil => rfl
  | cons i rest ih =>
    have hrest := ih (pc + i.size) fun j h => hplace j (List.mem_cons_of_mem _ h)
    rw [placeFrom, List.filterMap_cons, instrsOf_cons]
    rcases readBack?_eq bound pc (hplace i List.mem_cons_self) with ⟨hm, hr⟩ | ⟨hm, here, hr, -⟩
    · simpa [hr, hm] using hrest
    · simpa [hr, hm] using hrest

/-- The marker of a label stands where the instruction behind it does. -/
theorem offsetOf_marker (bound : List (Nat × Nat)) {before behind} (hplace : ∀ i ∈ before ++ behind, Placeable i) :
    offsetOf ((placeFrom 0 (before ++ behind)).filterMap (readBack? bound))
      (sizeOf (before ++ behind)) (instrsOf before).length = sizeOf before := by
  have hlen := length_read bound 0 fun i h => hplace i (List.mem_append_left behind h)
  have hzero := offsetOf_zero bound (sizeOf before) fun i h => hplace i (List.mem_append_right before h)
  rw [placeFrom_append, List.filterMap_append, sizeOf_append, Nat.zero_add, offsetOf,
    List.getElem?_append_right (by omega), hlen, Nat.sub_self]
  exact hzero

theorem eq_mark_of_fits (h : marked? i = some l) (hfits : i.fits) : i = .mark l := by
  obtain ⟨op, arg⟩ := i
  unfold marked? at h
  split at h
  · rename_i hmark
    obtain rfl : op = .pseudo .label := by simpa [Instr.isMark] using hmark
    cases arg with
    | label m =>
      cases h
      rfl
    | _ => cases hfits
  · cases h

/-- The offset of a label's marker splits code there, and with it the code that it was widened from. -/
theorem split_of_offset? {pc target} (hwides : List.Forall₂ Instr.Widens code settled) (hfits : ∀ i ∈ code, i.fits)
    (h : offset? l pc settled = some target) :
    ∃ before behind before' behind', code = before ++ .mark l :: behind ∧
      settled = before' ++ .mark l :: behind' ∧ List.Forall₂ Instr.Widens before before' ∧
      target = pc + sizeOf before' := by
  induction hwides generalizing pc with
  | nil => cases h
  | @cons i j code settled hij hrest ih =>
    unfold offset? at h
    split at h
    · rename_i hmark
      cases h
      have hi : i = .mark l := by
        rw [← hij.marked?_eq] at hmark
        exact eq_mark_of_fits hmark (hfits i List.mem_cons_self)
      subst hi
      cases hij
      exact ⟨[], code, [], settled, rfl, rfl, .nil, rfl⟩
    · obtain ⟨before, behind, before', behind', rfl, rfl, hb, rfl⟩ :=
        ih (fun i h => hfits i (List.mem_cons_of_mem _ h)) h
      refine ⟨i :: before, behind, j :: before', behind', rfl, rfl, .cons hij hb, ?_⟩
      rw [sizeOf_cons, Nat.add_assoc]

/-- `here` is read where the settled form of an instruction was placed. -/
def ReadFrom (bound : List (Nat × Nat)) (placed : List Located) (i : Instr) (here : Located) : Prop :=
  ∃ op, i.Widens ⟨.final op, i.arg⟩ ∧ ⟨here.pos, ⟨.final op, i.arg⟩⟩ ∈ placed ∧
    readBack? bound ⟨here.pos, ⟨.final op, i.arg⟩⟩ = some here

theorem ReadFrom.cons {bound placed i here} (first : Located) (h : ReadFrom bound placed i here) :
    ReadFrom bound (first :: placed) i here := by
  obtain ⟨op, hop, hmem, hr⟩ := h
  exact ⟨op, hop, List.mem_cons_of_mem _ hmem, hr⟩

/-- Every instruction of the list is read back from where its settled form was placed. -/
theorem read_settled (bound : List (Nat × Nat)) (pc : Nat) (hwides : List.Forall₂ Instr.Widens code settled)
    (hplace : ∀ i ∈ settled, Placeable i) :
    List.Forall₂ (ReadFrom bound (placeFrom pc settled)) (instrsOf code)
      ((placeFrom pc settled).filterMap (readBack? bound)) := by
  induction hwides generalizing pc with
  | nil => exact .nil
  | @cons i j code settled hij hrest ih =>
    have hread := (ih (pc + j.size) fun k h => hplace k (List.mem_cons_of_mem _ h)).imp
      fun _ _ h => h.cons ⟨pc, j⟩
    rw [placeFrom, List.filterMap_cons, instrsOf_cons, hij.isMarker_eq]
    obtain ⟨op, arg⟩ := j
    cases op with
    | pseudo op =>
      have hmarker : Instr.isMarker ⟨.pseudo op, arg⟩ := by
        rcases hplace _ List.mem_cons_self with h | ⟨_, h⟩
        · exact h
        · cases h
      rw [hmarker, if_pos rfl, readBack?_pseudo]
      exact hread
    | final op =>
      obtain rfl : i.arg = arg := hij.arg_eq
      exact .cons ⟨op, hij, List.mem_cons_self, rfl⟩ hread

/-- A jump of settled code leads to the offset of a marker. -/
theorem Settled.offset_of_target {pos} (h : Settled bound settled)
    (hmem : ⟨pos, ⟨.final op, arg⟩⟩ ∈ placeFrom 0 settled) (hl : target? ⟨.final op, arg⟩ = some l) :
    offset? l 0 settled = some (destination bound ⟨.final op, arg⟩) := by
  have hjump : op.isJump := by
    rw [Instr.target?_final] at hl
    split at hl
    · assumption
    · cases hl
  have hlabel : arg.label? = some l := by rwa [Instr.target?_final, if_pos hjump] at hl
  obtain ⟨target, htarget, -⟩ := fits_of_widen (h.stays _ hmem) hjump
  rw [hlabel, Option.getD_some] at htarget
  rw [destination, hl, Option.bind_some, htarget, Option.getD_some]
  simpa [lookup_of_bind h.binds] using htarget

theorem linked_of_settled (h : Settled bound settled) (hplace : ∀ i ∈ settled, Placeable i) : Linked settled where
  nodup := (bind_eq_ok_iff.mp ⟨bound, h.binds⟩).1
  marked := by
    intro i hi l hl
    obtain ⟨hi, hmarker⟩ := List.mem_filter.mp hi
    obtain ⟨op, hop⟩ := (hplace i hi).resolve_left (by simpa using hmarker)
    obtain ⟨_, arg⟩ := i
    simp only at hop
    subst hop
    obtain ⟨here, hhere, hinstr⟩ := List.mem_map.mp ((placeFrom_instr settled 0).symm ▸ hi)
    obtain ⟨pos, _⟩ := here
    simp only at hinstr
    subst hinstr
    have hoff := h.offset_of_target hhere hl
    by_contra hnot
    rw [offset?_eq_none_iff.mpr hnot] at hoff
    cases hoff

theorem placedAs_of_readFrom (hwides : List.Forall₂ Instr.Widens code settled) (hsettled : Settled bound settled)
    (hplace : ∀ i ∈ settled, Placeable i) (hfits : ∀ i ∈ code, i.fits) (hi : i.fits)
    (h : ReadFrom bound (placeFrom 0 settled) i here) :
    PlacedAs code ((placeFrom 0 settled).filterMap (readBack? bound)) (sizeOf settled) i here := by
  obtain ⟨op, hop, hmem, hr⟩ := h
  have harg : here.instr.arg = i.arg.withLabel (destination bound ⟨.final op, i.arg⟩) := by
    obtain ⟨op₀, hi₀, hop₀⟩ := hop.final
    rw [readBack?_final] at hr
    rw [← Option.some.inj hr, ← hop₀.readBack_eq]
    rw [Instr.fits, hi₀] at hi
    exact Format.readBack_of_fits _ hi
  refine ⟨?_, ?_, ?_⟩
  · rw [readBack?_final] at hr
    rw [← Option.some.inj hr]
    exact hop
  · intro hnone
    rw [Instr.target?_of_fits hi] at hnone
    rw [harg, Operand.withLabel_of_label?_none hnone]
  · intro l hl
    have hoff := hsettled.offset_of_target hmem (hop.target?_eq ▸ hl)
    obtain ⟨before, behind, before', behind', hcode, rfl, hbefore, hdest⟩ :=
      split_of_offset? hwides hfits hoff
    have hlen : (instrsOf before).length = (instrsOf before').length := by
      simpa using congrArg List.length (targets_of_widens hbefore)
    refine ⟨before, behind, hcode, ?_⟩
    rw [harg, hdest, hlen, offsetOf_marker bound hplace, Nat.zero_add]

end Layout

/-- There is a layout whenever the labels allow one and the code is not too long. -/
theorem assemble_ok (hplace : ∀ i ∈ code, Layout.Placeable i) (hlabel : ∀ i ∈ code, Layout.Labelled i)
    (hlinked : Layout.Linked code) (hsize : Layout.sizeOf (code.map widest) < 0x80000000) :
    ∃ a, assemble code = .ok a := by
  obtain ⟨settled, hsettle⟩ := Layout.settle_ok (2 * code.length + 1) hlinked hlabel hsize
  have hsteps := Layout.stepsLeft_le code
  obtain ⟨hwides, bound, hsettled⟩ := Layout.settle_spec hsettle (by omega)
  refine ⟨⟨(Layout.place settled).flatMap (Layout.bytes bound), Layout.lines (Layout.place settled)⟩,
    bind_eq_ok.mpr ⟨(), Layout.checkOpcodes_eq_ok_iff.mpr hplace, ?_⟩⟩
  refine bind_eq_ok.mpr ⟨settled, hsettle, ?_⟩
  exact bind_eq_ok.mpr ⟨bound, hsettled.binds, rfl⟩

/-- Layout is sound, and it finds a layout whenever the labels allow one. -/
theorem assemble_sound (code : List Instr) (hplace : ∀ i ∈ code, Layout.Placeable i)
    (hfits : ∀ i ∈ code, i.fits = true)
    (hsize : Layout.sizeOf (code.map widest) < 0x80000000) :
    (∀ a, assemble code = .ok a → ∃ read, decodeFinal a.code = .ok read ∧
      List.Forall₂ (Layout.PlacedAs code read a.code.length) (Layout.instrsOf code) read) ∧
    ((∃ a, assemble code = .ok a) ↔ Layout.Linked code) := by
  have hlabel : ∀ i ∈ code, Layout.Labelled i := fun i hi => Layout.labelled_of_fits (hfits i hi)
  refine ⟨?_, ?_, ?_⟩
  · intro a ha
    obtain ⟨settled, bound, hwides, hsettled, hplaced, hlen, hread⟩ := assemble_eq_ok ha hlabel
    refine ⟨_, hread, ?_⟩
    rw [hlen]
    have hall := (List.forall₂_and_left _ _).mpr
      ⟨fun i hi => hfits i (List.mem_of_mem_filter hi), Layout.read_settled bound 0 hwides hplaced⟩
    exact hall.imp fun i here h =>
      Layout.placedAs_of_readFrom hwides hsettled hplaced hfits h.1 h.2
  · rintro ⟨a, ha⟩
    obtain ⟨settled, bound, hwides, hsettled, hplaced, -⟩ := assemble_eq_ok ha hlabel
    exact (Layout.linked_iff_of_widens hwides).mpr (Layout.linked_of_settled hsettled hplaced)
  · exact fun hlinked => assemble_ok hplace hlabel hlinked hsize

/-- A loop whose jumps are too far for their short forms. -/
def farLoop : List Instr :=
  [.line 3, .mark 0, .of .ifFalse8 (.label 1)] ++ List.replicate 130 (.plain .nop)
    ++ [.of .goto8 (.label 0), .mark 1]

set_option maxRecDepth 4096 in
theorem farLoop_linked : Layout.Linked farLoop where
  nodup := by decide
  marked := by
    have h : ∀ i ∈ Layout.instrsOf farLoop, ∀ l ∈ i.target?, l ∈ Layout.marks farLoop := by decide
    exact h

set_option maxRecDepth 4096 in
theorem assemble_farLoop :
    (∀ i ∈ farLoop, Layout.Placeable i) ∧ (∀ i ∈ farLoop, i.fits = true) ∧
      Layout.sizeOf (farLoop.map widest) < 0x80000000 ∧
      ∃ a read, assemble farLoop = .ok a ∧ decodeFinal a.code = .ok read ∧
        List.Forall₂ (Layout.PlacedAs farLoop read a.code.length) (Layout.instrsOf farLoop) read := by
  have hplace : ∀ i ∈ farLoop, Layout.Placeable i := Layout.checkOpcodes_eq_ok_iff.mp rfl
  have hfits : ∀ i ∈ farLoop, i.fits = true := by decide
  have hsize : Layout.sizeOf (farLoop.map widest) < 0x80000000 := by decide
  obtain ⟨hsound, htotal⟩ := assemble_sound farLoop hplace hfits hsize
  obtain ⟨a, ha⟩ := htotal.mpr farLoop_linked
  obtain ⟨read, hread, hplaced⟩ := hsound a ha
  exact ⟨hplace, hfits, hsize, a, read, ha, hread, hplaced⟩

end ScriptBytecode
