import Mathlib.Data.List.Nodup
import ScriptBytecode.Proofs.FinishedCode

/-!
# Recovered labels

Code that was read back and given its labels has depths again: a label has the depth of the offset that it
was made for.
-/

namespace ScriptBytecode

open Flow
open Layout (marks marks_append)

variable {code : List Located} {pos l : Nat} {i : Instr} {bytes : Bytes} {found : List Nat} {here : Located}
  {cur : Option Nat}

/-- Finished instructions, one behind the other from an offset on. -/
def Finished : Nat → List Located → Prop
  | _, [] => True
  | pos, here :: rest =>
    here.pos = pos ∧ here.instr.opcode?.isSome = true ∧ Finished (pos + here.instr.size) rest

theorem Finished.opcode? (h : Finished pos code) : ∀ here ∈ code, here.instr.opcode?.isSome := by
  induction code generalizing pos with
  | nil => exact nofun
  | cons here rest ih => exact List.forall_mem_cons.mpr ⟨h.2.1, ih h.2.2⟩

/-- The offset behind code that starts at `pos`. -/
def endFrom : Nat → List Located → Nat
  | pos, [] => pos
  | pos, here :: rest => endFrom (pos + here.instr.size) rest

theorem size_of_opcode? (h : i.opcode?.isSome) : i.size = 1 + i.op.format.operandSize := by
  obtain ⟨op, arg⟩ := i
  cases op with
  | final op => rfl
  | pseudo op => cases h

theorem opcode?_of_instr {total b rest} (h : Decode.instr .final total pos b bytes = .ok (i, rest)) :
    i.opcode?.isSome := by
  unfold Decode.instr at h
  split at h
  · cases h
  · rename_i op hop
    obtain ⟨⟨arg, rest'⟩, -, h⟩ := bind_eq_ok.mp h
    cases h
    obtain ⟨op, -, rfl⟩ := Option.map_eq_some_iff.mp hop
    rfl

theorem Layout.placeable_of_opcode? {op} (h : i.opcode? = some op) : Placeable i := by
  obtain ⟨op', arg⟩ := i
  cases op' with
  | final op' => exact .inr ⟨op', rfl⟩
  | pseudo op' => cases h

theorem finished_of_reads {total} (h : Decode.Reads .final total pos bytes code) : Finished pos code := by
  induction h with
  | nil => exact trivial
  | cons head _ ih =>
    have hop := opcode?_of_instr head
    refine ⟨rfl, hop, ?_⟩
    rw [size_of_opcode? hop, ← Nat.add_assoc]
    exact ih

theorem finished_of_decode (h : decodeFinal bytes = .ok code) : Finished 0 code :=
  finished_of_reads (Decode.decode_eq_ok_iff.mp h)

namespace Labels

theorem stop_eq (h : Finished pos code) (hpos : code = [] → pos = 0) : stop code = endFrom pos code := by
  induction code generalizing pos with
  | nil => exact (hpos rfl).symm
  | cons here rest ih =>
    cases rest with
    | nil =>
      obtain ⟨rfl, -, -⟩ := h
      rfl
    | cons next rest => exact ih h.2.2 nofun

/-! ## Targets -/

theorem mem_insert {m n} : m ∈ insert n found ↔ m = n ∨ m ∈ found := by
  induction found with
  | nil => simp [insert]
  | cons k rest ih =>
    unfold insert
    split
    · simp
    · split
      · rename_i heq
        subst heq
        simp
      · simp only [List.mem_cons, ih]
        tauto

theorem mem_targets {target} : target ∈ targets code ↔ ∃ here ∈ code, here.instr.target? = some target := by
  have hstep : ∀ (found : List Nat) (i : Located),
      target ∈ i.instr.target?.elim found (insert · found) ↔ i.instr.target? = some target ∨ target ∈ found := by
    intro found i
    cases hi : i.instr.target? with
    | none => simp
    | some m => simp [mem_insert, eq_comm]
  have hfold : ∀ (code : List Located) (found : List Nat),
      target ∈ code.foldl (fun found here => here.instr.target?.elim found (insert · found)) found ↔
        (∃ here ∈ code, here.instr.target? = some target) ∨ target ∈ found := by
    intro code
    induction code with
    | nil => simp
    | cons i rest ih =>
      intro found
      rw [List.foldl_cons, ih, hstep]
      simp only [List.mem_cons, exists_eq_or_imp]
      exact or_left_comm.trans or_assoc.symm
  exact (hfold code []).trans (or_iff_left List.not_mem_nil)

theorem getElem?_of_idxOf? {targets : List Nat} (h : targets.idxOf? pos = some l) : targets[l]? = some pos := by
  obtain ⟨hl, heq, -⟩ := List.idxOf?_eq_some_iff.mp h
  rw [List.getElem?_eq_getElem hl]
  exact congrArg some heq

theorem label?_withLabel {arg : Operand} (h : arg.label?.isSome) (l : Nat) : (arg.withLabel l).label? = some l := by
  cases arg <;> first | rfl | cases h

theorem int?_withLabel (arg : Operand) (l : Nat) : (arg.withLabel l).int? = arg.int? := by
  cases arg <;> rfl

/-! ## Depths -/

section

variable {D : Nat → Option Nat} {found : List Nat}

/-- A label has the depth of its offset. -/
def labelDepth (D : Nat → Option Nat) (found : List Nat) (l : Nat) : Option Nat :=
  found[l]?.bind D

theorem labelDepth_eq (h : found.idxOf? pos = some l) : labelDepth D found l = D pos := by
  rw [labelDepth, getElem?_of_idxOf? h, Option.bind_some]

theorem sameEffect_relabel (found : List Nat) (i : Instr) : i.SameEffect (relabel found i) := by
  unfold relabel
  split
  · obtain ⟨op, arg⟩ := i
    refine Instr.sameEffect_of_op fun _ => ?_
    unfold Instr.stackEffect
    dsimp only
    rw [int?_withLabel]
    rfl
  · exact .refl i

theorem target?_relabel (hmem : ∀ pos, i.target? = some pos → pos ∈ found) (h : (relabel found i).target? = some l) :
    ∃ pos, i.target? = some pos ∧ found.idxOf? pos = some l := by
  unfold relabel at h
  split at h
  · rename_i m hm
    obtain ⟨pos, hpos, hidx⟩ := Option.bind_eq_some_iff.mp hm
    refine ⟨pos, hpos, ?_⟩
    unfold Instr.target? at h hpos
    split at hpos
    · rename_i hlabel
      have hlabel' : i.arg.label?.isSome := Option.isSome_of_eq_some hpos
      rw [if_pos hlabel, label?_withLabel hlabel'] at h
      rw [hidx, h]
    · cases hpos
  · rename_i hnone
    rw [h, Option.bind_some, List.idxOf?_eq_none_iff] at hnone
    exact absurd (hmem l h) hnone

theorem flows_markAt (found : List Nat) (hcur : Under cur (D pos)) :
    Flows (labelDepth D found) cur ((markAt found pos).map (·.instr)) ∧
      Under (through (labelDepth D found) ((markAt found pos).map (·.instr)) cur) (D pos) := by
  unfold markAt
  cases hidx : found.idxOf? pos with
  | none => exact ⟨trivial, hcur⟩
  | some l =>
    have hdepth : labelDepth D found l = D pos := labelDepth_eq hidx
    refine ⟨⟨(allows_mark (l := l) rfl _).mpr fun d hd => hdepth.trans (hcur d hd), trivial⟩, ?_⟩
    exact fun d hd => hdepth.symm.trans hd

theorem flows_lineAt {L} (lines : LineTable) (pos : Nat) (cur : Option Nat) :
    Flows L cur ((lineAt lines pos).map (·.instr)) ∧
      through L ((lineAt lines pos).map (·.instr)) cur = cur := by
  unfold lineAt
  cases lines.lineAt? pos with
  | none => exact ⟨trivial, rfl⟩
  | some n =>
    cases cur with
    | none => exact ⟨⟨allows_none _, trivial⟩, rfl⟩
    | some d =>
      refine ⟨⟨(allows_some rfl d).mpr ⟨Nat.zero_le d, nofun⟩, trivial⟩, rfl⟩

/-- An instruction with its label and the markers in front of it. -/
def withMarkers (found : List Nat) (lines : LineTable) (here : Located) : List Instr :=
  (markAt found here.pos).map (·.instr) ++ (lineAt lines here.pos).map (·.instr)
    ++ [relabel found here.instr]

theorem map_labelize (code : List Located) (lines : LineTable) :
    (labelize code lines).map (·.instr) = code.flatMap (withMarkers (targets code) lines)
      ++ (markAt (targets code) (stop code)).map (·.instr) := by
  rw [labelize, List.map_append, List.map_flatMap]
  simp only [List.map_append]
  rfl

/-- A step: one instruction. -/
theorem flows_withMarkers (lines : LineTable) (hop : here.instr.opcode?.isSome)
    (hD : ∀ d, D here.pos = some d → here.Respects D d) (hfound : ∀ pos, here.instr.target? = some pos → pos ∈ found)
    (hcur : Under cur (D here.pos)) :
    Flows (labelDepth D found) cur (withMarkers found lines here) ∧
      Under (through (labelDepth D found) (withMarkers found lines here) cur)
        (D (here.pos + here.instr.size)) := by
  obtain ⟨hmark, hbehind⟩ := flows_markAt found hcur
  obtain ⟨hline, hsame⟩ := flows_lineAt (L := labelDepth D found) lines here.pos
    (through (labelDepth D found) ((markAt found here.pos).map (·.instr)) cur)
  simp only [withMarkers, flows_append, through_append, hsame]
  generalize through (labelDepth D found) ((markAt found here.pos).map (·.instr)) cur = cur at *
  have heffect := sameEffect_relabel found here.instr
  have hop' : (relabel found here.instr).endLabel? = none := by
    obtain ⟨pos, ⟨op, arg⟩⟩ := here
    cases op with
    | pseudo op => cases hop
    | final op =>
      unfold relabel
      split <;> rfl
  have hmarked := marked?_of_endLabel? hop'
  cases cur with
  | none =>
    rw [through_cons, through_nil, pass_none hop']
    exact ⟨⟨⟨hmark, hline⟩, allows_none _, trivial⟩, under_none _⟩
  | some d =>
    have hrespects := hD d (hbehind d rfl)
    refine ⟨⟨⟨hmark, hline⟩, (allows_some hmarked d).mpr ⟨?_, ?_⟩, trivial⟩, ?_⟩
    · rw [← heffect.stackEffect]
      exact hrespects.pops
    · intro l hl
      obtain ⟨pos, hpos, hidx⟩ := target?_relabel hfound hl
      rw [labelDepth_eq hidx, hrespects.target pos hpos, heffect.depthAtTarget]
    · rw [through_cons, through_nil, pass_some hop']
      split
      · exact under_none _
      · rename_i hpass
        simp only [Bool.or_eq_true, Bool.and_eq_true, decide_eq_true_eq, not_or, not_and, Nat.not_lt,
          Bool.not_eq_true, ← heffect.isExit, ← heffect.takesCount] at hpass
        rw [hrespects.next hpass.1 hpass.2, heffect.depthBehind]
        exact .refl _

/-- All instructions from an offset on. -/
theorem flows_labelled (lines : LineTable) (hcode : Finished pos code)
    (hD : ∀ here ∈ code, ∀ d, D here.pos = some d → here.Respects D d)
    (hfound : ∀ here ∈ code, ∀ pos, here.instr.target? = some pos → pos ∈ found) (hcur : Under cur (D pos)) :
    Flows (labelDepth D found) cur (code.flatMap (withMarkers found lines)) ∧
      Under (through (labelDepth D found) (code.flatMap (withMarkers found lines)) cur)
        (D (endFrom pos code)) := by
  induction code generalizing pos cur with
  | nil => exact ⟨trivial, hcur⟩
  | cons here rest ih =>
    rw [List.forall_mem_cons] at hD hfound
    obtain ⟨rfl, hop, hrest⟩ := hcode
    obtain ⟨hflows, hbehind⟩ := flows_withMarkers lines hop hD.1 hfound.1 hcur
    obtain ⟨hflows', hbehind'⟩ := ih hrest hD.2 hfound.2 hbehind
    rw [List.flatMap_cons, flows_append, through_append]
    exact ⟨⟨hflows, hflows'⟩, hbehind'⟩

end

/-! ## Markers -/

theorem encodable_mark (l : Nat) : (Instr.mark l).Encodable :=
  ⟨fun _ => rfl, nofun, nofun⟩

theorem encodable_line (n : Nat) : (Instr.line n).Encodable :=
  ⟨nofun, nofun, nofun⟩

theorem encodable_relabel (hop : i.opcode?.isSome) (h : i.Encodable) : (relabel found i).Encodable := by
  unfold relabel
  split
  · rename_i l hl
    obtain ⟨pos, hpos, -⟩ := Option.bind_eq_some_iff.mp hl
    obtain ⟨op, arg⟩ := i
    cases op with
    | pseudo op => cases hop
    | final op =>
      refine ⟨fun hjump => ?_, fun hcount => ?_, nofun⟩
      · exact Option.isSome_of_eq_some (label?_withLabel (h.labelled hjump) l)
      · have hlabel : op.isJump = false := Layout.hasLabel_of_takesCount hcount
        rw [Instr.target?_final, hlabel] at hpos
        cases hpos
  · exact h

theorem opcode?_relabel (found : List Nat) (i : Instr) : (relabel found i).opcode? = i.opcode? := by
  unfold relabel
  split <;> rfl

/-- What was read is no marker, with a new label neither. -/
theorem relabel_eq_of (found : List Nat) (hop : i.opcode?.isSome) : ∃ op arg, relabel found i = .of op arg := by
  rw [← opcode?_relabel found] at hop
  generalize relabel found i = i at hop
  obtain ⟨op, arg⟩ := i
  cases op with
  | pseudo op => cases hop
  | final op => exact ⟨op, arg, rfl⟩

theorem mem_markAt (h : i ∈ (markAt found pos).map (·.instr)) : ∃ l, i = .mark l := by
  unfold markAt at h
  cases hidx : found.idxOf? pos with
  | none => simp [hidx] at h
  | some l => exact ⟨l, by simpa [hidx] using h⟩

theorem mem_withMarkers {lines} (h : i ∈ withMarkers found lines here) :
    (∃ l, i = .mark l) ∨ (∃ n, i = .line n) ∨ i = relabel found here.instr := by
  unfold withMarkers at h
  rw [List.mem_append, List.mem_append] at h
  rcases h with (h | h) | h
  · exact .inl (mem_markAt h)
  · unfold lineAt at h
    cases hline : lines.lineAt? here.pos with
    | none => simp [hline] at h
    | some n => exact .inr (.inl ⟨n, by simpa [hline] using h⟩)
  · exact .inr (.inr (List.mem_singleton.mp h))

theorem marks_markAt (found : List Nat) (pos : Nat) :
    marks ((markAt found pos).map (·.instr)) = (found.idxOf? pos).toList := by
  unfold markAt
  cases found.idxOf? pos <;> rfl

theorem marks_withMarkers (found : List Nat) (lines : LineTable) (hop : here.instr.opcode?.isSome) :
    marks (withMarkers found lines here) = (found.idxOf? here.pos).toList := by
  have hline : marks ((lineAt lines here.pos).map (·.instr)) = [] := by
    unfold lineAt
    cases lines.lineAt? here.pos <;> rfl
  obtain ⟨op, arg, hinstr⟩ := relabel_eq_of found hop
  rw [withMarkers, marks_append, marks_append, hline, hinstr, marks_markAt, List.append_nil]
  exact List.append_nil _

theorem marks_labelled (found : List Nat) (lines : LineTable) (hcode : Finished pos code) :
    marks (code.flatMap (withMarkers found lines)) = (code.map (·.pos)).filterMap found.idxOf? := by
  induction code generalizing pos with
  | nil => rfl
  | cons here rest ih =>
    have hhere := marks_withMarkers found lines hcode.2.1
    have hrest := ih hcode.2.2
    rw [List.flatMap_cons, marks_append, hhere, hrest, List.map_cons, List.filterMap_cons]
    cases found.idxOf? here.pos <;> rfl

theorem ascending_positions (hcode : Finished pos code) :
    (code.map (·.pos) ++ [endFrom pos code]).Pairwise (· < ·) ∧
      ∀ p ∈ code.map (·.pos) ++ [endFrom pos code], pos ≤ p := by
  induction code generalizing pos with
  | nil => simp [endFrom]
  | cons here rest ih =>
    obtain ⟨rfl, hop, hrest⟩ := hcode
    obtain ⟨hascending, hle⟩ := ih hrest
    have hsize := size_of_opcode? hop
    rw [List.map_cons, List.cons_append, endFrom, List.pairwise_cons, List.forall_mem_cons]
    have hlt : ∀ p ∈ rest.map (·.pos) ++ [endFrom (here.pos + here.instr.size) rest], here.pos < p := by
      intro p hp
      have := hle p hp
      omega
    exact ⟨⟨hlt, hascending⟩, le_rfl, fun p hp => (hlt p hp).le⟩

theorem nodup_positions (hcode : Finished pos code) : (code.map (·.pos) ++ [endFrom pos code]).Nodup :=
  (ascending_positions hcode).1.imp Nat.ne_of_lt

/-- Code with its markers, from an offset on. -/
def labelled (found : List Nat) (lines : LineTable) (pos : Nat) (code : List Located) : List Instr :=
  code.flatMap (withMarkers found lines) ++ (markAt found (endFrom pos code)).map (·.instr)

theorem labelize_eq (lines : LineTable) (h : Finished 0 code) :
    (labelize code lines).map (·.instr) = labelled (targets code) lines 0 code := by
  rw [map_labelize, stop_eq h fun _ => rfl]
  rfl

theorem nodup_marks_labelled (found : List Nat) (lines : LineTable) (hcode : Finished pos code) :
    marks (labelled found lines pos code) = (code.map (·.pos) ++ [endFrom pos code]).filterMap found.idxOf? ∧
      (marks (labelled found lines pos code)).Nodup := by
  have hmarks : marks (labelled found lines pos code) =
      (code.map (·.pos) ++ [endFrom pos code]).filterMap found.idxOf? := by
    rw [labelled, marks_append, marks_labelled found lines hcode, marks_markAt, List.filterMap_append,
      List.filterMap_cons]
    cases found.idxOf? (endFrom pos code) <;> rfl
  refine ⟨hmarks, hmarks ▸ (nodup_positions hcode).filterMap fun a b l ha hb => ?_⟩
  exact Option.some.inj ((getElem?_of_idxOf? ha).symm.trans (getElem?_of_idxOf? hb))

theorem mem_labelize {lines} (h : i ∈ (labelize code lines).map (·.instr)) :
    (∃ l, i = .mark l) ∨ (∃ n, i = .line n) ∨ ∃ here ∈ code, i = relabel (targets code) here.instr := by
  rw [map_labelize] at h
  rcases List.mem_append.mp h with h | h
  · obtain ⟨here, hhere, h⟩ := List.mem_flatMap.mp h
    exact (mem_withMarkers h).imp_right (·.imp_right fun h => ⟨here, hhere, h⟩)
  · exact .inl (mem_markAt h)

/-- Code that is given its labels can be laid out again. -/
theorem encodable_labelize (lines : LineTable) (hread : decodeFinal bytes = .ok code)
    (hinstrs : ∀ here ∈ code, here.instr.Encodable) :
    ∀ i ∈ (labelize code lines).map (·.instr), i.Encodable ∧ Layout.Placeable i := by
  have hops := (finished_of_decode hread).opcode?
  intro i hi
  rcases mem_labelize hi with ⟨l, rfl⟩ | ⟨n, rfl⟩ | ⟨here, hhere, rfl⟩
  · exact ⟨encodable_mark l, .inl rfl⟩
  · exact ⟨encodable_line n, .inl rfl⟩
  · obtain ⟨op, hop⟩ := Option.isSome_iff_exists.mp (hops here hhere)
    exact ⟨encodable_relabel (hops here hhere) (hinstrs here hhere),
      Layout.placeable_of_opcode? ((opcode?_relabel _ here.instr).trans hop)⟩

end Labels

/-- Finished code with depths that is given its labels can be worked on. -/
theorem tidy_labelize {D} (lines : LineTable) (hread : decodeFinal bytes = .ok code) (hD : DepthsAt D code)
    (hinstrs : ∀ here ∈ code, here.instr.Encodable) : Tidy ((labelize code lines).map (·.instr)) := by
  have hcode := finished_of_decode hread
  have hworkable := Labels.encodable_labelize lines hread hinstrs
  refine ⟨⟨⟨Labels.labelDepth D (Labels.targets code), ?_⟩, fun i hi => (hworkable i hi).1⟩,
    fun i hi => (hworkable i hi).2, ?_⟩
  all_goals rw [Labels.labelize_eq lines hcode]
  · obtain ⟨hflows, hbehind⟩ := Labels.flows_labelled lines hcode hD.steps
      (fun here hhere pos hpos => Labels.mem_targets.mpr ⟨here, hhere, hpos⟩) (fun d hd => hD.start.trans hd)
    exact flows_append.mpr ⟨hflows, (Labels.flows_markAt _ hbehind).1⟩
  · exact (Labels.nodup_marks_labelled _ lines hcode).2

end ScriptBytecode
