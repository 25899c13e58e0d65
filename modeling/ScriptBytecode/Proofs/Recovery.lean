import ScriptBytecode.Proofs.Labels

/-!
# Recovered labels, laid out

Code that was read and given its labels is settled as it stands: where a jump leads to there is a marker, and the
distance to it fits, because it was read from a field of that width.
-/

namespace ScriptBytecode

open Layout hiding sizeOf

variable {pos l total t : Nat} {rest : Bytes} {i : Instr}

/-! ## What is read -/

/-- The operand of an instruction that was read suits its opcode, and so does the distance of a jump. -/
structure Located.IsRead (here : Located) : Prop where
  fits : here.instr.fits = true
  reach : ∀ t, here.instr.target? = some t →
    fitsSigned (8 * here.instr.op.format.shape.labelWidth) (distance here t) = true

namespace Decode

theorem isRead_of_instr {b bytes} (h : instr .final total pos b bytes = .ok (i, rest)) : Located.IsRead ⟨pos, i⟩ := by
  obtain ⟨hfits, -, hreach⟩ := instr_bounds h
  refine ⟨hfits, fun t ht => ?_⟩
  exact (hreach rfl t (Instr.target?_of_fits hfits ▸ ht)).fitsSigned (Format.labelWidth_pos _)

theorem isRead_of_reads {bytes code} (h : Reads .final total pos bytes code) :
    (∀ here ∈ code, here.IsRead) ∧ endFrom pos code = pos + bytes.length := by
  induction h with
  | nil => exact ⟨List.forall_mem_nil _, rfl⟩
  | @cons pos b bytes rest i code head _ ih =>
    have hlength := length_of_instr head
    refine ⟨List.forall_mem_cons.mpr ⟨isRead_of_instr head, ih.1⟩, ?_⟩
    rw [endFrom, size_of_opcode? (opcode?_of_instr head), ← Nat.add_assoc, ih.2, List.length_cons]
    omega

end Decode

variable {bytes : Bytes} {code : List Located}

theorem isRead_of_decode (h : decodeFinal bytes = .ok code) :
    (∀ here ∈ code, here.IsRead) ∧ endFrom 0 code = bytes.length := by
  simpa using Decode.isRead_of_reads (Decode.decode_eq_ok_iff.mp h)

theorem Located.IsRead.encodable {here : Located} (h : here.IsRead) (hop : here.instr.opcode?.isSome) :
    here.instr.Encodable := by
  refine ⟨labelled_of_fits h.fits, fun _ => h.fits, fun hnamed => ?_⟩
  obtain ⟨pos, ⟨op, arg⟩⟩ := here
  cases op with
  | pseudo op => cases hop
  | final op => cases hnamed

/-- Every jump leads to an instruction or to the end of code of `total` bytes. -/
def JumpsLand (code : List Located) (total : Nat) : Prop :=
  ∀ here ∈ code, ∀ t, here.instr.target? = some t → t ∈ code.map (·.pos) ++ [total]

instance (code : List Located) (total : Nat) : Decidable (JumpsLand code total) :=
  inferInstanceAs (Decidable (∀ here ∈ code, ∀ t ∈ here.instr.target?, t ∈ code.map (·.pos) ++ [total]))

/-! ## Layout of recovered code -/

theorem Operand.withLabel_withLabel (arg : Operand) (l m : Nat) : (arg.withLabel l).withLabel m = arg.withLabel m := by
  cases arg <;> rfl

theorem Shape.fits_withLabel (shape : Shape) (arg : Operand) (l : Nat) :
    shape.fits (arg.withLabel l) = shape.fits arg := by
  cases shape with
  | int signed w => cases signed <;> cases arg <;> rfl
  | _ => cases arg <;> rfl

@[simp] theorem Layout.marked?_mark (l : Nat) : marked? (.mark l) = some l := rfl

namespace Labels

variable {found : List Nat} {lines : LineTable} {pos : Nat}

theorem op_relabel (found : List Nat) (i : Instr) : (relabel found i).op = i.op := by
  unfold relabel
  split <;> rfl

theorem relabel_of_target? (ht : i.target? = some t) (hl : found.idxOf? t = some l) :
    relabel found i = ⟨i.op, i.arg.withLabel l⟩ := by
  rw [relabel, ht, Option.bind_some, hl]

theorem relabel_of_none (h : i.target? = none) : relabel found i = i := by
  rw [relabel, h]
  rfl

section

variable (found : List Nat)

theorem fits_relabel {i : Instr} (h : i.fits) : (relabel found i).fits := by
  unfold relabel
  split
  · exact (Shape.fits_withLabel ..).trans h
  · exact h

theorem labelled_cons (lines : LineTable) (here : Located) (rest : List Located) :
    labelled found lines here.pos (here :: rest) =
      withMarkers found lines here ++ labelled found lines (here.pos + here.instr.size) rest := by
  simp [labelled, endFrom]

/-- Markers take no bytes. -/
theorem placeFrom_withMarkers (lines : LineTable) (here : Located) : placeFrom here.pos (withMarkers found lines here) =
      (markAt found here.pos ++ lineAt lines here.pos).map (⟨here.pos, ·.instr⟩) ++
        [⟨here.pos, relabel found here.instr⟩] ∧
    Layout.sizeOf (withMarkers found lines here) = here.instr.size := by
  have hsize : (relabel found here.instr).size = here.instr.size := by
    rw [Instr.size, Instr.size, Instr.isMarker, Instr.isMarker, op_relabel]
  have hmark : ∀ l, (Instr.mark l).size = 0 := fun _ => rfl
  have hline : ∀ n, (Instr.line n).size = 0 := fun _ => rfl
  unfold withMarkers markAt lineAt
  cases found.idxOf? here.pos <;> cases lines.lineAt? here.pos <;>
    exact ⟨rfl, by simp [Layout.sizeOf, hmark, hline, hsize]⟩

theorem sizeOf_labelled (lines : LineTable) (h : Finished pos code) :
    pos + Layout.sizeOf (labelled found lines pos code) = endFrom pos code := by
  induction code generalizing pos with
  | nil =>
    unfold labelled markAt
    cases found.idxOf? (endFrom pos []) <;> rfl
  | cons here rest ih =>
    obtain ⟨rfl, -, hrest⟩ := h
    rw [labelled_cons, sizeOf_append, (placeFrom_withMarkers found lines here).2, ← Nat.add_assoc, ih hrest]
    rfl

theorem instrsOf_labelled (lines : LineTable) (h : Finished pos code) :
    instrsOf (labelled found lines pos code) = code.map fun here => relabel found here.instr := by
  induction code generalizing pos with
  | nil =>
    unfold labelled markAt
    cases found.idxOf? (endFrom pos []) <;> rfl
  | cons here rest ih =>
    obtain ⟨rfl, hop, hrest⟩ := h
    have hhere : instrsOf (withMarkers found lines here) = [relabel found here.instr] := by
      obtain ⟨op, arg, hinstr⟩ := relabel_eq_of found hop
      rw [withMarkers, hinstr]
      unfold markAt lineAt
      cases found.idxOf? here.pos <;> cases lines.lineAt? here.pos <;> rfl
    rw [labelled_cons, instrsOf, List.filter_append]
    exact congrArg₂ (· ++ ·) hhere (ih hrest)

theorem placeFrom_labelled_cons (lines : LineTable) (here : Located) (rest : List Located) :
    placeFrom here.pos (labelled found lines here.pos (here :: rest)) =
      (markAt found here.pos ++ lineAt lines here.pos).map (⟨here.pos, ·.instr⟩) ++
        ⟨here.pos, relabel found here.instr⟩ ::
          placeFrom (here.pos + here.instr.size) (labelled found lines (here.pos + here.instr.size) rest) := by
  obtain ⟨hplaced, hsize⟩ := placeFrom_withMarkers found lines here
  rw [labelled_cons, placeFrom_append, hplaced, hsize, List.append_assoc]
  rfl

end

theorem offset?_labelled (hcode : Finished pos code) (hl : found.idxOf? t = some l)
    (ht : t ∈ code.map (·.pos) ++ [endFrom pos code]) :
    offset? l pos (labelled found lines pos code) = some t := by
  induction code generalizing pos with
  | nil =>
    obtain rfl : t = pos := by simpa [endFrom] using ht
    simp [labelled, endFrom, markAt, hl, offset?, marked?_mark]
  | cons here rest ih =>
    obtain ⟨rfl, hop, hrest⟩ := hcode
    rw [labelled_cons, offset?_append, (placeFrom_withMarkers found lines here).2]
    by_cases heq : t = here.pos
    · subst heq
      simp [withMarkers, markAt, hl, offset?, marked?_mark]
    · have hnone : offset? l here.pos (withMarkers found lines here) = none := by
        rw [offset?_eq_none_iff, marks_withMarkers found lines hop, Option.mem_toList]
        intro hidx
        exact heq (Option.some.inj ((getElem?_of_idxOf? hl).symm.trans (getElem?_of_idxOf? hidx)))
      rw [hnone, Option.none_or]
      refine ih hrest ?_
      simpa [heq, endFrom] using ht

theorem exists_label {here} (hhere : here ∈ code) (ht : here.instr.target? = some t) :
    ∃ l, (targets code).idxOf? t = some l :=
  Option.isSome_iff_exists.mp (List.isSome_idxOf?.mpr (mem_targets.mpr ⟨here, hhere, ht⟩))

/-- The label of a target is marked if the target is an instruction or the end. -/
theorem mem_marks_labelled (lines : LineTable) (hcode : Finished pos code) (hl : found.idxOf? t = some l) :
    l ∈ marks (labelled found lines pos code) ↔ t ∈ code.map (·.pos) ++ [endFrom pos code] := by
  rw [(nodup_marks_labelled found lines hcode).1, List.mem_filterMap]
  constructor
  · rintro ⟨p, hp, hidx⟩
    rwa [Option.some.inj ((getElem?_of_idxOf? hl).symm.trans (getElem?_of_idxOf? hidx))]
  · exact fun ht => ⟨t, ht, hl⟩

/-- What layout looks at is a marker or an instruction that was read. -/
theorem forall_placed {P : Located → Prop} (found lines) (hcode : Finished pos code)
    (hmarker : ∀ pos op arg, P ⟨pos, ⟨.pseudo op, arg⟩⟩) (h : ∀ here ∈ code, P ⟨here.pos, relabel found here.instr⟩) :
    ∀ placed ∈ placeFrom pos (labelled found lines pos code), P placed := by
  induction code generalizing pos with
  | nil =>
    unfold labelled markAt
    cases found.idxOf? (endFrom pos []) with
    | none => exact List.forall_mem_nil _
    | some l => exact List.forall_mem_singleton.mpr (hmarker ..)
  | cons here rest ih =>
    obtain ⟨rfl, -, hrest⟩ := hcode
    obtain ⟨hhere, hothers⟩ := List.forall_mem_cons.mp h
    rw [placeFrom_labelled_cons, List.forall_mem_append, List.forall_mem_cons]
    refine ⟨?_, hhere, ih hrest hothers⟩
    unfold markAt lineAt
    cases found.idxOf? here.pos <;> cases lines.lineAt? here.pos <;>
      simp [hmarker, Instr.mark, Instr.line]

theorem read_labelled (found lines bound) (hcode : Finished pos code)
    (h : ∀ here ∈ code, readBack? bound ⟨here.pos, relabel found here.instr⟩ = some here) :
    (placeFrom pos (labelled found lines pos code)).filterMap (readBack? bound) = code := by
  induction code generalizing pos with
  | nil =>
    unfold labelled markAt
    cases found.idxOf? (endFrom pos []) <;> rfl
  | cons here rest ih =>
    obtain ⟨rfl, -, hrest⟩ := hcode
    obtain ⟨hhere, hothers⟩ := List.forall_mem_cons.mp h
    rw [placeFrom_labelled_cons, List.filterMap_append, List.filterMap_cons_some hhere, ih hrest hothers]
    unfold markAt lineAt
    cases found.idxOf? here.pos <;> cases lines.lineAt? here.pos <;> rfl

theorem jump_of_target? {op arg} (h : Instr.target? ⟨.final op, arg⟩ = some t) (l : Nat) :
    op.isJump ∧ arg.label? = some t ∧ (arg.withLabel l).label? = some l := by
  rw [Instr.target?_final, Option.ite_none_right_eq_some] at h
  exact ⟨h.1, h.2, label?_withLabel (Option.isSome_of_eq_some h.2) l⟩

/-- A step: an instruction that was read stands where it stood. -/
theorem reads_relabel {bound : List (Nat × Nat)} {here : Located} (hread : here.IsRead)
    (hop : here.instr.opcode?.isSome)
    (hbound : ∀ t, here.instr.target? = some t → ∃ l, found.idxOf? t = some l ∧ bound.lookup l = some t) :
    widen bound ⟨here.pos, relabel found here.instr⟩ = .ok (relabel found here.instr) ∧
      readBack? bound ⟨here.pos, relabel found here.instr⟩ = some here := by
  obtain ⟨pos, ⟨op, arg⟩⟩ := here
  cases op with
  | pseudo op => cases hop
  | final op =>
    have hfits : op.format.shape.fits arg := hread.fits
    cases htarget : Instr.target? ⟨.final op, arg⟩ with
    | none =>
      have hlabel : arg.label? = none := (Instr.target?_of_fits hread.fits).symm.trans htarget
      have hjump : op.isJump = false := by
        have hsome := Shape.isSome_label?_of_fits hfits
        rw [hlabel] at hsome
        exact hsome.symm
      rw [relabel_of_none htarget]
      refine ⟨by simp [widen, hjump], ?_⟩
      rw [readBack?_final, Format.readBack_of_fits _ hfits, Operand.withLabel_of_label?_none hlabel]
    | some t =>
      obtain ⟨l, hl, hlookup⟩ := hbound t htarget
      obtain ⟨hjump, hlabel, hlabel'⟩ := jump_of_target? htarget l
      have hdest : destination bound ⟨.final op, arg.withLabel l⟩ = t := by
        rw [destination, Instr.target?_final, if_pos hjump, hlabel', Option.bind_some, hlookup, Option.getD_some]
      have hreach : fitsSigned (8 * op.format.shape.labelWidth)
          (distance ⟨pos, ⟨.final op, arg.withLabel l⟩⟩ t) = true := hread.reach t htarget
      rw [relabel_of_target? htarget hl]
      refine ⟨?_, ?_⟩
      · simp only [widen, hjump, hlabel', Option.getD_some, hlookup, hreach, Bool.not_true, Bool.false_eq_true,
          if_false, if_true]
      · rw [readBack?_final, hdest, Format.readBack_of_fits _ ((Shape.fits_withLabel _ arg l).trans hfits),
          Operand.withLabel_withLabel, Operand.withLabel_of_label? hlabel]

end Labels

/-- Code that was read and given its labels is read back as it was. -/
theorem settled_labelize (lines : LineTable) (hread : decodeFinal bytes = .ok code)
    (hland : JumpsLand code bytes.length) :
    ∃ bound, Layout.Settled bound ((labelize code lines).map (·.instr)) ∧
      (placeFrom 0 ((labelize code lines).map (·.instr))).filterMap (readBack? bound) = code := by
  have hcode := finished_of_decode hread
  obtain ⟨hinstrs, hend⟩ := isRead_of_decode hread
  rw [Labels.labelize_eq lines hcode]
  obtain ⟨bound, hbound⟩ := bind_eq_ok_iff.mpr
    ⟨(Labels.nodup_marks_labelled (Labels.targets code) lines hcode).2, fun _ _ => List.lookup_nil⟩
  have hreads := fun here hhere =>
    Labels.reads_relabel (hinstrs here hhere) (hcode.opcode? here hhere) fun t ht => by
      obtain ⟨l, hl⟩ := Labels.exists_label hhere ht
      refine ⟨l, hl, ?_⟩
      rw [lookup_of_bind hbound, Labels.offset?_labelled hcode hl (hend ▸ hland here hhere t ht), Option.some_or]
  exact ⟨bound, ⟨hbound, Labels.forall_placed _ lines hcode (fun _ _ _ => rfl) fun here hhere => (hreads here hhere).1⟩,
    Labels.read_labelled _ lines bound hcode fun here hhere => (hreads here hhere).2⟩

/-- Where recovered code can be laid out, its jumps lead to instructions. -/
theorem jumpsLand_of_linked (lines : LineTable) (hread : decodeFinal bytes = .ok code)
    (hlinked : Layout.Linked ((labelize code lines).map (·.instr))) : JumpsLand code bytes.length := by
  have hcode := finished_of_decode hread
  obtain ⟨hinstrs, hend⟩ := isRead_of_decode hread
  intro here hhere t ht
  obtain ⟨l, hl⟩ := Labels.exists_label hhere ht
  have hi := Labels.relabel_of_target? ht hl
  have hfits := Labels.fits_relabel (Labels.targets code) (hinstrs here hhere).fits
  have hlabel : here.instr.arg.label? = some t := (Instr.target?_of_fits (hinstrs here hhere).fits).symm.trans ht
  have htarget : (Labels.relabel (Labels.targets code) here.instr).target? = some l := by
    rw [Instr.target?_of_fits hfits, hi]
    exact Labels.label?_withLabel (Option.isSome_of_eq_some hlabel) l
  have hmem : Labels.relabel (Labels.targets code) here.instr ∈
      instrsOf ((labelize code lines).map (·.instr)) := by
    rw [Labels.labelize_eq lines hcode, Labels.instrsOf_labelled _ lines hcode]
    exact List.mem_map.mpr ⟨here, hhere, rfl⟩
  have hmarked := hlinked.marked _ hmem l htarget
  rw [Labels.labelize_eq lines hcode, Labels.mem_marks_labelled lines hcode hl] at hmarked
  exact hend ▸ hmarked

namespace Layout

variable {bound : List (Nat × Nat)} {settled : List Instr}

/-- How many instructions stand in front of the marker of a label. -/
def number (l : Nat) : List Instr → Nat
  | [] => 0
  | i :: rest => if marked? i = some l then 0 else if i.isMarker then number l rest else number l rest + 1

/-- The offset of a label is that of the instruction behind its marker, or of the end. -/
theorem position_number (bound) {l t pc code} (hplace : ∀ i ∈ code, Placeable i) (h : offset? l pc code = some t) :
    (((placeFrom pc code).filterMap (readBack? bound)).map (·.pos) ++ [pc + sizeOf code])[number l code]? = some t := by
  induction code generalizing pc with
  | nil => cases h
  | cons i rest ih =>
    rw [offset?] at h
    rw [number]
    split at h
    · rename_i hmark
      cases h
      have hzero := offsetOf_zero bound t hplace
      rw [if_pos hmark]
      generalize (placeFrom t (i :: rest)).filterMap (readBack? bound) = read at hzero ⊢
      cases read <;> exact congrArg some hzero
    · rename_i hmark
      have hrest := ih (fun j hj => hplace j (List.mem_cons_of_mem _ hj)) h
      rw [if_neg hmark, placeFrom, List.filterMap_cons, sizeOf_cons, ← Nat.add_assoc]
      rcases readBack?_eq bound pc (hplace i List.mem_cons_self) with ⟨hm, hr⟩ | ⟨hm, here, hr, -⟩
      · rw [hr, if_pos hm]
        exact hrest
      · rw [hr, if_neg (by simp [hm])]
        exact hrest

/-- The jumps of settled code lead to instructions. -/
theorem jumpsLand_of_settled (h : Settled bound settled) (hplace : ∀ i ∈ settled, Placeable i)
    (hlabel : ∀ i ∈ settled, Labelled i) :
    JumpsLand ((placeFrom 0 settled).filterMap (readBack? bound)) (sizeOf settled) := by
  intro here hhere t ht
  obtain ⟨⟨pos, ⟨op, arg⟩⟩, hmem, hread⟩ := List.mem_filterMap.mp hhere
  cases op with
  | pseudo op => cases hread
  | final op =>
    rw [readBack?_final] at hread
    cases hread
    obtain ⟨l, -, hlookup⟩ := target?_readBack (h.stays _ hmem) (hlabel _ (mem_placeFrom hmem).1) ht
    have hposition := position_number bound hplace (by simpa [lookup_of_bind h.binds] using hlookup)
    rw [Nat.zero_add] at hposition
    exact List.mem_of_getElem? hposition

end Layout

end ScriptBytecode
