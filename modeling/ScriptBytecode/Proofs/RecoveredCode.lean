import ScriptBytecode.Proofs.Optimizer.Stability

/-!
# Recovered code is laid out as it was

Label recovery undoes layout: code that was read and given its labels and lines is laid out in the same bytes, with the
same table of lines, as long as its jumps lead to instructions. A jump into an instruction is found out, since no label
can be marked there.
-/

namespace ScriptBytecode

open Layout hiding sizeOf

variable {bytes : Bytes} {code : List Located} {lines : LineTable} {pos : Nat}

/-- A table of lines that may belong to code: its entries stand at instructions, in their order, and each of them
changes the line. -/
structure LineTable.Suits (lines : LineTable) (code : List Located) : Prop where
  ascending : lines.Pairwise (·.pc < ·.pc)
  placed : ∀ e ∈ lines, e.pc ∈ code.map (·.pos)
  changes : lines.IsChain (·.line ≠ ·.line)
  small : ∀ e ∈ lines, e.line < 0x80000000

theorem LineTable.Suits.lined (h : lines.Suits code) (hcode : Finished pos code) {last : Option Nat}
    (hlast : ∀ e ∈ lines.head?, last ≠ some e.line) : Lined last code lines := by
  induction code generalizing lines pos last with
  | nil =>
    cases lines with
    | nil => exact .nil last
    | cons e lines => exact nomatch h.placed e List.mem_cons_self
  | cons here rest ih =>
    obtain ⟨rfl, hop, hrest⟩ := hcode
    have hbehind : ∀ p ∈ rest.map (·.pos), here.pos < p := fun p hp =>
      Nat.lt_of_lt_of_le (by rw [size_of_opcode? hop]; omega)
        ((Labels.ascending_positions hrest).2 p (List.mem_append_left _ hp))
    -- entries behind the first instruction are entries of the rest
    have hplaced : ∀ e ∈ lines, e.pc ≠ here.pos → e.pc ∈ rest.map (·.pos) := fun e he hne =>
      (List.mem_cons.mp (h.placed e he)).resolve_left hne
    cases lines with
    | nil => exact .same here (ih ⟨.nil, nofun, .nil, nofun⟩ hrest nofun)
    | cons e lines =>
      have hascending := List.pairwise_cons.mp h.ascending
      by_cases he : e.pc = here.pos
      · obtain ⟨pc, line⟩ := e
        obtain rfl : pc = here.pos := he
        have hline : line < Nat.pow 2 32 := (h.small _ List.mem_cons_self).trans (by decide)
        refine .new here hline (hlast _ rfl) (ih ⟨hascending.2,
          fun e he => hplaced e (List.mem_cons_of_mem _ he) (hascending.1 e he).ne', h.changes.of_cons,
          fun e he => h.small e (List.mem_cons_of_mem _ he)⟩ hrest ?_)
        intro e he hline
        cases lines with
        | nil => cases he
        | cons e' lines =>
          cases he
          exact (List.isChain_cons_cons.mp h.changes).1 (Option.some.inj hline)
      · have hpc := hbehind _ (hplaced e List.mem_cons_self he)
        refine .same here (ih ⟨h.ascending, fun e' he' => hplaced e' he' ?_, h.changes, h.small⟩ hrest hlast)
        rcases List.mem_cons.mp he' with rfl | he'
        · exact he
        · have := hascending.1 e' he'
          omega

/-- Settled code is laid out as it stands. -/
theorem Layout.Settled.assemble_eq {bound code} (h : Settled bound code) (hplace : ∀ i ∈ code, Placeable i) :
    assemble code = .ok ⟨(placeFrom 0 code).flatMap (Layout.bytes bound), Layout.lines (placeFrom 0 code)⟩ := by
  have hround : (place code).mapM (widen bound) = .ok code := by
    rw [place_eq, mapM_eq_ok]
    nth_rewrite 2 [← placeFrom_instr code 0]
    exact List.forall₂_map_right_iff.mpr (List.forall₂_same.mpr h.stays)
  have hsettle : settle (2 * code.length + 1) code = .ok code := by
    rw [settle, bind_eq_ok]
    refine ⟨bound, h.binds, bind_eq_ok.mpr ⟨code, hround, ?_⟩⟩
    rw [if_pos (beq_self_eq_true code)]
    rfl
  rw [assemble, ← place_eq]
  exact bind_eq_ok.mpr ⟨(), checkOpcodes_eq_ok_iff.mpr hplace, bind_eq_ok.mpr
    ⟨code, hsettle, bind_eq_ok.mpr ⟨bound, h.binds, rfl⟩⟩⟩

/-- What the first round fails with, layout fails with. -/
theorem Layout.assemble_eq_error {bound code e} (hplace : ∀ i ∈ code, Placeable i) (hbound : bind 0 [] code = .ok bound)
    (hround : (place code).mapM (widen bound) = .error e) : assemble code = .error e := by
  rw [assemble, bind_eq_error]
  refine .inr ⟨(), checkOpcodes_eq_ok_iff.mpr hplace, bind_eq_error.mpr (.inl ?_)⟩
  rw [settle, bind_eq_error]
  exact .inr ⟨bound, hbound, bind_eq_error.mpr (.inl hround)⟩

/-- An instruction that was read stands where it stood, unless its label is marked nowhere. -/
theorem Labels.widen_relabel (lines : LineTable) {bound : List (Nat × Nat)} {here : Located} (hcode : Finished 0 code)
    (hbound : bind 0 [] (labelled (targets code) lines 0 code) = .ok bound) (hhere : here ∈ code) (hread : here.IsRead) :
    widen bound ⟨here.pos, relabel (targets code) here.instr⟩ = .ok (relabel (targets code) here.instr) ∨
      ∃ l, widen bound ⟨here.pos, relabel (targets code) here.instr⟩ = .error (.unresolvedLabel l) := by
  have hop := hcode.opcode? here hhere
  cases ht : here.instr.target? with
  | none => exact .inl (reads_relabel hread hop fun t h => nomatch ht.symm.trans h).1
  | some t =>
    obtain ⟨l, hl⟩ := exists_label hhere ht
    by_cases hlands : t ∈ code.map (·.pos) ++ [endFrom 0 code]
    · refine .inl (reads_relabel hread hop fun t' h => ?_).1
      cases ht.symm.trans h
      exact ⟨l, hl, by rw [lookup_of_bind hbound, offset?_labelled hcode hl hlands, Option.some_or]⟩
    · rw [← mem_marks_labelled lines hcode hl, ← offset?_eq_none_iff] at hlands
      have hlookup : bound.lookup l = none := by
        rw [lookup_of_bind hbound, hlands]
        rfl
      rw [relabel_of_target? ht hl]
      obtain ⟨pos, ⟨op, arg⟩⟩ := here
      cases op with
      | pseudo op => cases hop
      | final op =>
        obtain ⟨hjump, -, hlabel⟩ := jump_of_target? ht l
        exact .inr ⟨l, by simp [widen, hjump, hlabel, hlookup]⟩

/-- Where a jump leads into an instruction, a label is not found. -/
theorem round_of_not_jumpsLand (lines : LineTable) (hread : decodeFinal bytes = .ok code)
    (hland : ¬JumpsLand code bytes.length) {bound : List (Nat × Nat)}
    (hbound : bind 0 [] ((labelize code lines).map (·.instr)) = .ok bound) :
    ∃ l, (place ((labelize code lines).map (·.instr))).mapM (widen bound) = .error (.unresolvedLabel l) := by
  have hcode := finished_of_decode hread
  have hplaced : ∀ placed ∈ placeFrom 0 ((labelize code lines).map (·.instr)),
      widen bound placed = .ok placed.instr ∨ ∃ l, widen bound placed = .error (.unresolvedLabel l) := by
    rw [Labels.labelize_eq lines hcode] at hbound ⊢
    exact Labels.forall_placed _ lines hcode (fun _ _ _ => .inl rfl) fun here hhere =>
      Labels.widen_relabel lines hcode hbound hhere ((isRead_of_decode hread).1 here hhere)
  rw [place_eq]
  cases hround : (placeFrom 0 ((labelize code lines).map (·.instr))).mapM (widen bound) with
  | ok wider =>
    have hsettled : Settled bound ((labelize code lines).map (·.instr)) := by
      refine ⟨hbound, fun placed hmem => (hplaced placed hmem).resolve_right fun ⟨l, hl⟩ => ?_⟩
      obtain ⟨j, -, hj⟩ := exists_right_of_forall₂ (mapM_eq_ok.mp hround) hmem
      exact nomatch hl.symm.trans hj
    exact absurd (jumpsLand_of_linked lines hread (linked_of_settled hsettled fun i hi =>
      (workable_labelize lines hread i hi).2)) hland
  | error e =>
    obtain ⟨placed, hmem, herror⟩ := exists_of_mapM_eq_error hround
    rcases hplaced placed hmem with h | ⟨l, h⟩
    · exact nomatch herror.symm.trans h
    · exact ⟨l, congrArg Except.error (Except.error.inj (herror.symm.trans h))⟩

/-- Label recovery is exact: the same bytes and lines come back, unless a jump leads into an instruction. -/
theorem assemble_labelize (lines : LineTable) (hread : decodeFinal bytes = .ok code) :
    (JumpsLand code bytes.length → lines.Suits code →
      assemble ((labelize code lines).map (·.instr)) = .ok ⟨bytes, lines⟩) ∧
    (¬JumpsLand code bytes.length →
      ∃ l, assemble ((labelize code lines).map (·.instr)) = .error (.unresolvedLabel l)) := by
  have hcode := finished_of_decode hread
  have hplace := fun i hi => (workable_labelize lines hread i hi).2
  constructor
  · intro hland hlines
    obtain ⟨bound, hsettled, hback⟩ := settled_labelize lines hread hland
    have hread' := hsettled.decode hplace fun i hi => (workable_labelize lines hread i hi).1.labelled
    rw [hback] at hread'
    have hlines' : Layout.lines (placeFrom 0 ((labelize code lines).map (·.instr))) = lines := by
      rw [lines_eq, Labels.labelize_eq lines hcode]
      exact linesFrom_labelled _ (hlines.lined hcode nofun) hcode
    rw [hsettled.assemble_eq hplace, hlines', (Decode.decode_eq_ok_iff.mp hread').eq_flatMap,
      ← (Decode.decode_eq_ok_iff.mp hread).eq_flatMap]
  · intro hland
    obtain ⟨bound, hbound⟩ := bind_eq_ok_iff.mpr
      ⟨Labels.labelize_eq lines hcode ▸ (Labels.nodup_marks_labelled _ lines hcode).2, fun _ _ => List.lookup_nil⟩
    obtain ⟨l, hround⟩ := round_of_not_jumpsLand lines hread hland hbound
    exact ⟨l, assemble_eq_error hplace hbound hround⟩

/-- A jump to itself, and a jump to its own operand. -/
theorem assemble_labelize_goto :
    assemble ((labelize [⟨0, .of .goto8 (.label 0)⟩] [⟨0, 7⟩]).map (·.instr))
      = .ok ⟨[Opcode.goto8.byte.toUInt8, 0xff], [⟨0, 7⟩]⟩ ∧
    ∃ l, assemble ((labelize [⟨0, .of .goto8 (.label 1)⟩] [⟨0, 7⟩]).map (·.instr)) = .error (.unresolvedLabel l) := by
  constructor
  · refine (assemble_labelize [⟨0, 7⟩] (by rfl)).1 ?_ ?_
    · simp [JumpsLand, Instr.of, Instr.target?_final, Operand.label?]
    · exact ⟨by simp, by simp, by simp, by simp⟩
  · have hread : decodeFinal [Opcode.goto8.byte.toUInt8, 0] = .ok [⟨0, .of .goto8 (.label 1)⟩] := rfl
    refine (assemble_labelize [⟨0, 7⟩] hread).2 fun hland => ?_
    simpa using hland _ List.mem_cons_self 1 rfl

end ScriptBytecode
