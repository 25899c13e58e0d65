import Mathlib.Data.Set.Monotone
import ScriptBytecode.Proofs.Optimizer.ShortForms

/-!
# Short forms are chosen once

Code in short forms that is given its labels and lines again starts layout from the same forms as before, since labels
keep their order where code is moved. Line markers have no part in layout (`settle_bare`), so it ends with the same
bytes. The table of lines that was made of the code is the one that is made of it again (`linesFrom_labelled`).
-/

namespace ScriptBytecode

open Layout hiding sizeOf

variable {code wider settled : List Instr} {bound : List (Nat × Nat)} {i j : Instr} {pc : Nat}
  {g : Nat → Nat} {S : Set Nat} {found : List Nat} {read read' : List Located} {here here' : Located}

/-! ## Line markers and layout -/

theorem Instr.Widens.isLine_eq (h : i.Widens j) : i.isLine = j.isLine ∧ (i.isLine → j = i) := by
  cases h with
  | refl => exact ⟨rfl, fun _ => rfl⟩
  | wider => exact ⟨rfl, nofun⟩

theorem eq_of_bare_eq (h : List.Forall₂ Instr.Widens code wider) (hbare : bare wider = bare code) : wider = code := by
  induction h with
  | nil => rfl
  | @cons i j code wider hi _ ih =>
    obtain ⟨hline, hsame⟩ := hi.isLine_eq
    cases hi : i.isLine with
    | true =>
      rw [hsame hi, bare_cons_line hi, bare_cons_line hi] at hbare
      rw [hsame hi, ih hbare]
    | false =>
      rw [bare_cons hi, bare_cons (hline ▸ hi)] at hbare
      have hcons := List.cons.inj hbare
      rw [hcons.1, ih hcons.2]

namespace Layout

/-- A line marker marks no label, takes no room, is not widened and leaves no bytes. -/
theorem of_isLine (h : i.isLine) (bound : List (Nat × Nat)) (pc : Nat) :
    marked? i = none ∧ i.size = 0 ∧ widen bound ⟨pc, i⟩ = .ok i ∧ bytes bound ⟨pc, i⟩ = [] := by
  obtain ⟨op, arg⟩ := i
  obtain rfl : op = .pseudo .lineNum := by simpa [Instr.isLine] using h
  exact ⟨rfl, rfl, rfl, rfl⟩

theorem bind_bare (pc : Nat) (bound : List (Nat × Nat)) (code : List Instr) :
    bind pc bound (bare code) = bind pc bound code := by
  induction code generalizing pc bound with
  | nil => rfl
  | cons i rest ih =>
    cases hi : i.isLine with
    | true =>
      obtain ⟨hmark, hsize, -⟩ := of_isLine hi bound pc
      rw [bare_cons_line hi, ih, bind, hmark, hsize]
      rfl
    | false =>
      rw [bare_cons hi, bind, bind]
      simp only [ih]

theorem bytes_bare (bound : List (Nat × Nat)) (pc : Nat) (code : List Instr) :
    (placeFrom pc (bare code)).flatMap (bytes bound) = (placeFrom pc code).flatMap (bytes bound) := by
  induction code generalizing pc with
  | nil => rfl
  | cons i rest ih =>
    rw [placeFrom, List.flatMap_cons]
    cases hi : i.isLine with
    | true =>
      obtain ⟨-, hsize, -, hbytes⟩ := of_isLine hi bound pc
      rw [bare_cons_line hi, ih, hsize, hbytes]
      rfl
    | false => rw [bare_cons hi, placeFrom, List.flatMap_cons, ih]

theorem round_bare (h : (placeFrom pc code).mapM (widen bound) = .ok wider) :
    (placeFrom pc (bare code)).mapM (widen bound) = .ok (bare wider) := by
  rw [mapM_eq_ok] at h ⊢
  induction code generalizing pc wider with
  | nil =>
    cases h
    exact .nil
  | cons i rest ih =>
    obtain _ | ⟨hi, hrest⟩ := h
    cases hline : i.isLine with
    | true =>
      obtain ⟨-, hsize, hstays, -⟩ := of_isLine hline bound pc
      obtain rfl := Except.ok.inj (hstays.symm.trans hi)
      rw [bare_cons_line hline, bare_cons_line hline]
      rw [hsize] at hrest
      exact ih hrest
    | false =>
      have hline' := (widen_eq_ok hi).1.isLine_eq.1
      rw [bare_cons hline, bare_cons (hline' ▸ hline)]
      exact .cons hi (ih hrest)

/-- Layout does the same without line markers. -/
theorem settle_bare {rounds} (h : settle rounds code = .ok settled) :
    settle rounds (bare code) = .ok (bare settled) := by
  induction rounds generalizing code with
  | zero =>
    cases h
    rfl
  | succ rounds ih =>
    obtain ⟨bound, hbound, h⟩ := bind_eq_ok.mp h
    obtain ⟨wider, hwider, h⟩ := bind_eq_ok.mp h
    rw [place_eq] at hwider
    have hround := round_bare hwider
    refine bind_eq_ok.mpr ⟨bound, (bind_bare ..).trans hbound, bind_eq_ok.mpr ⟨bare wider, ?_, ?_⟩⟩
    · rw [place_eq]
      exact hround
    · split at h
      · rename_i hsame
        cases h
        rw [eq_of_beq hsame, if_pos (beq_self_eq_true _)]
        rfl
      · rename_i hdiff
        rw [if_neg]
        · exact ih h
        · intro hsame
          exact hdiff (beq_iff_eq.mpr (eq_of_bare_eq (round_spec hwider).1 (eq_of_beq hsame)))

/-- Once there are more rounds than steps, their number does not matter. -/
theorem settle_rounds {n m} (h : settle n code = .ok settled) (hn : stepsLeft code < n) (hm : stepsLeft code < m) :
    settle m code = .ok settled := by
  induction n generalizing code m with
  | zero => omega
  | succ n ih =>
    obtain _ | m := m
    · omega
    obtain ⟨bound, hbound, h⟩ := bind_eq_ok.mp h
    obtain ⟨wider, hwider, h⟩ := bind_eq_ok.mp h
    refine bind_eq_ok.mpr ⟨bound, hbound, bind_eq_ok.mpr ⟨wider, hwider, ?_⟩⟩
    rw [place_eq] at hwider
    have hless := (round_spec hwider).2
    split at h
    · rename_i hsame
      rw [if_pos hsame]
      exact h
    · rename_i hdiff
      have hdiff' : wider ≠ code := by simpa using hdiff
      have hless := hless.resolve_left hdiff'
      rw [if_neg hdiff]
      exact ih h (by omega) (by omega)

end Layout

/-! ## Lines that are read again -/

namespace Layout

/-- The lines of code on which `pending` and `last` are known from the code in front of it. -/
def linesFrom (pending last : Option Nat) : List Located → LineTable
  | [] => []
  | ⟨pos, i⟩ :: rest =>
    match i.op, pending with
    | .pseudo .lineNum, _ => linesFrom (i.arg.int?.map (unsignedWord 32)) last rest
    | .pseudo _, pending => linesFrom pending last rest
    | .final _, none => linesFrom none last rest
    | .final _, some line =>
      if last = some line then linesFrom none last rest else ⟨pos, line⟩ :: linesFrom none (some line) rest

theorem foldl_lines (code : List Located) (done : Array LineEntry) (pending last : Option Nat) :
    (code.foldl Lines.step ⟨done, pending, last⟩).done.toList = done.toList ++ linesFrom pending last code := by
  induction code generalizing done pending last with
  | nil => exact (List.append_nil _).symm
  | cons here rest ih =>
    obtain ⟨pos, ⟨op, arg⟩⟩ := here
    rw [List.foldl_cons]
    cases op with
    | pseudo op => cases op <;> exact ih ..
    | final op =>
      cases pending with
      | none => exact ih ..
      | some line =>
        simp only [Lines.step, linesFrom]
        split
        · exact ih ..
        · rw [ih]
          simp

theorem lines_eq (code : List Located) : lines code = linesFrom none none code :=
  (foldl_lines code #[] none none).trans (List.nil_append _)

end Layout

theorem LineTable.lineAt?_cons (e : LineEntry) (t : LineTable) (pc : Nat) :
    lineAt? (e :: t) pc = (t.lineAt? pc).or (if e.pc = pc then some e.line else none) := by
  have hfold : ∀ (t : LineTable) (found : Option Nat),
      t.foldl (fun found e => if e.pc = pc then some e.line else found) found = (t.lineAt? pc).or found := by
    intro t
    induction t with
    | nil => exact fun _ => rfl
    | cons e t ih =>
      intro found
      rw [lineAt?, List.foldl_cons, List.foldl_cons, ih, ih]
      split
      · rw [Option.or_assoc]
        rfl
      · rw [Option.or_none]
  exact hfold t _

theorem LineTable.lineAt?_of_lt {t : LineTable} {pc : Nat} (h : ∀ e ∈ t, pc < e.pc) : t.lineAt? pc = none := by
  induction t with
  | nil => rfl
  | cons e t ih =>
    rw [List.forall_mem_cons] at h
    rw [lineAt?_cons, ih h.2, if_neg (Nat.ne_of_gt h.1)]
    rfl

/-- It does not matter which lines other offsets have. -/
theorem Labels.labelled_congr {lines lines' : LineTable} {pos : Nat}
    (h : ∀ here ∈ read, lines.lineAt? here.pos = lines'.lineAt? here.pos) :
    labelled found lines pos read = labelled found lines' pos read := by
  refine congrArg (· ++ _) (List.flatMap_congr fun here hhere => ?_)
  rw [withMarkers, withMarkers, lineAt, lineAt, h here hhere]

namespace Layout

/-- A line table of code behind an instruction on line `last`: an entry stands at an instruction and changes the
line. -/
inductive Lined : Option Nat → List Located → LineTable → Prop
  | nil (last : Option Nat) : Lined last [] []
  | same {last read lines} (here : Located) (rest : Lined last read lines) : Lined last (here :: read) lines
  | new {last read lines line} (here : Located) (fits : line < Nat.pow 2 32) (differs : last ≠ some line)
      (rest : Lined (some line) read lines) : Lined last (here :: read) (⟨here.pos, line⟩ :: lines)

variable {last pending : Option Nat} {lines : LineTable} {pos : Nat} {code : List Instr}

/-- The lines of code are a table of what is read back from it. -/
theorem lined_linesFrom (bound : List (Nat × Nat)) (pos : Nat) (hplace : ∀ i ∈ code, Placeable i)
    (hpending : ∀ n, pending = some n → n < Nat.pow 2 32) :
    Lined last ((placeFrom pos code).filterMap (readBack? bound)) (linesFrom pending last (placeFrom pos code)) := by
  induction code generalizing pos pending last with
  | nil => exact .nil last
  | cons i rest ih =>
    rw [List.forall_mem_cons] at hplace
    obtain ⟨op, arg⟩ := i
    cases op with
    | pseudo op =>
      rcases hplace.1.marker with rfl | rfl
      · exact ih _ hplace.2 hpending
      · refine ih _ hplace.2 fun n hn => ?_
        obtain ⟨k, -, rfl⟩ := Option.map_eq_some_iff.mp hn
        exact unsignedWord_lt 32 k
    | final op =>
      have hrest : ∀ last, Lined last _ _ := fun last => @ih last none (pos + Instr.size ⟨.final op, arg⟩) hplace.2
        nofun
      cases pending with
      | none => exact .same _ (hrest last)
      | some line =>
        simp only [placeFrom, linesFrom]
        split
        · exact .same _ (hrest last)
        · rename_i hdiffers
          exact .new ⟨pos, _⟩ (hpending line rfl) hdiffers (hrest (some line))

/-- Entries stand behind the offset at which the code starts. -/
theorem Lined.le (h : Lined last read lines) (hcode : Finished pos read) : ∀ e ∈ lines, pos ≤ e.pc := by
  induction h generalizing pos with
  | nil => exact List.forall_mem_nil _
  | same here _ ih => exact fun e he => Nat.le_of_add_right_le (ih hcode.2.2 e he)
  | new here _ _ _ ih =>
    exact List.forall_mem_cons.mpr ⟨hcode.1.symm.le, fun e he => Nat.le_of_add_right_le (ih hcode.2.2 e he)⟩

/-- A step: one instruction and the markers in front of it. -/
theorem linesFrom_cons (found : List Nat) (lines : LineTable) (last : Option Nat) (rest : List Located)
    (hop : here.instr.opcode?.isSome) :
    ∃ op arg, linesFrom none last (placeFrom here.pos (Labels.labelled found lines here.pos (here :: rest))) =
      linesFrom ((lines.lineAt? here.pos).map fun n => unsignedWord 32 (signedWord 32 n)) last
        (⟨here.pos, ⟨.final op, arg⟩⟩ :: placeFrom (here.pos + here.instr.size)
          (Labels.labelled found lines (here.pos + here.instr.size) rest)) := by
  obtain ⟨op, arg, hinstr⟩ := Labels.relabel_eq_of found hop
  refine ⟨op, arg, ?_⟩
  rw [Labels.placeFrom_labelled_cons, hinstr]
  unfold Labels.markAt Labels.lineAt
  cases found.idxOf? here.pos <;> cases lines.lineAt? here.pos <;> rfl

/-- Code that is given a table of its lines has these lines. -/
theorem linesFrom_labelled (found : List Nat) (h : Lined last read lines) (hcode : Finished pos read) :
    linesFrom none last (placeFrom pos (Labels.labelled found lines pos read)) = lines := by
  induction h generalizing pos with
  | nil =>
    unfold Labels.labelled Labels.markAt
    cases found.idxOf? (endFrom pos []) <;> rfl
  | same here rest ih =>
    obtain ⟨rfl, hop, hrest⟩ := hcode
    have hsize := size_of_opcode? hop
    obtain ⟨op, arg, heq⟩ := linesFrom_cons found _ _ _ hop
    rw [heq, LineTable.lineAt?_of_lt fun e he => Nat.lt_of_lt_of_le (by omega) (rest.le hrest e he)]
    exact ih hrest
  | @new last read lines line here fits differs rest ih =>
    obtain ⟨rfl, hop, hrest⟩ := hcode
    have hsize := size_of_opcode? hop
    have hbehind : ∀ e ∈ lines, here.pos < e.pc := fun e he => Nat.lt_of_lt_of_le (by omega) (rest.le hrest e he)
    have hcongr : Labels.labelled found (⟨here.pos, line⟩ :: lines) (here.pos + here.instr.size) read =
        Labels.labelled found lines (here.pos + here.instr.size) read := by
      refine Labels.labelled_congr fun there hthere => ?_
      have hle := (Labels.ascending_positions hrest).2 there.pos
        (List.mem_append_left _ (List.mem_map_of_mem hthere))
      rw [LineTable.lineAt?_cons, if_neg (by simp only; omega), Option.or_none]
    obtain ⟨op, arg, heq⟩ := linesFrom_cons found (⟨here.pos, line⟩ :: lines) last read hop
    rw [heq, hcongr, LineTable.lineAt?_cons, LineTable.lineAt?_of_lt hbehind, if_pos rfl, Option.none_or,
      Option.map_some, unsignedWord_signedWord le_rfl fits]
    exact (if_neg differs).trans (congrArg _ (ih hrest))

end Layout

/-! ## Labels of code that was moved -/

theorem Operand.label?_mapLabel (arg : Operand) (g : Nat → Nat) : (arg.mapLabel g).label? = arg.label?.map g := by
  cases arg <;> rfl

theorem Operand.mapLabel_id (arg : Operand) : (arg.mapLabel fun l => l) = arg := by
  cases arg <;> rfl

theorem Operand.mapLabel_of_none {arg : Operand} (h : arg.label? = Option.none) (g : Nat → Nat) :
    arg.mapLabel g = arg := by
  cases arg <;> first | rfl | cases h

/-- The second instruction is the first one in another form, with offsets moved. -/
structure Located.Moves (g : Nat → Nat) (here here' : Located) : Prop where
  pos : here'.pos = g here.pos
  instr : here'.instr.lengthen = here.instr.lengthen.mapLabel g

theorem Located.Moves.target? (h : here.Moves g here') : here'.instr.target? = here.instr.target?.map g := by
  rw [(Instr.restates_lengthen here'.instr).target, (Instr.restates_lengthen here.instr).target, h.instr]
  unfold Instr.target?
  rw [Instr.mapLabel, Operand.label?_mapLabel]
  split <;> rfl

namespace Labels

theorem insert_map (hg : StrictMonoOn g S) {n} (hn : n ∈ S) (hfound : ∀ m ∈ found, m ∈ S) :
    insert (g n) (found.map g) = (insert n found).map g := by
  induction found with
  | nil => rfl
  | cons m rest ih =>
    rw [List.forall_mem_cons] at hfound
    simp only [insert, List.map_cons, hg.lt_iff_lt hn hfound.1, hg.injOn.eq_iff hn hfound.1, ih hfound.2]
    split
    · rfl
    · split <;> rfl

theorem targets_map (hg : StrictMonoOn g S) (h : List.Forall₂ (Located.Moves g) read read')
    (htargets : ∀ here ∈ read, ∀ t, here.instr.target? = some t → t ∈ S) : targets read' = (targets read).map g := by
  have hfold : ∀ found : List Nat, (∀ m ∈ found, m ∈ S) →
      read'.foldl (fun found here => here.instr.target?.elim found (insert · found)) (found.map g) =
        (read.foldl (fun found here => here.instr.target?.elim found (insert · found)) found).map g := by
    induction h with
    | nil => exact fun _ _ => rfl
    | @cons here here' _ _ hmoves _ ih =>
      intro found hfound
      rw [List.forall_mem_cons] at htargets
      rw [List.foldl_cons, List.foldl_cons, hmoves.target?]
      cases ht : here.instr.target? with
      | none => exact ih htargets.2 found hfound
      | some t =>
        have hS := htargets.1 t ht
        simp only [Option.map_some, Option.elim_some]
        rw [insert_map hg hS hfound]
        refine ih htargets.2 _ fun m hm => ?_
        rcases mem_insert.mp hm with rfl | hm
        · exact hS
        · exact hfound m hm
  exact hfold [] (List.forall_mem_nil _)

theorem idxOf?_map (hg : Set.InjOn g S) {p} (hp : p ∈ S) (hfound : ∀ m ∈ found, m ∈ S) :
    (found.map g).idxOf? (g p) = found.idxOf? p := by
  induction found with
  | nil => rfl
  | cons m rest ih =>
    rw [List.forall_mem_cons] at hfound
    rw [List.map_cons, List.idxOf?_cons, List.idxOf?_cons, ih hfound.2]
    simp only [beq_iff_eq, hg.eq_iff hfound.1 hp]

/-- The same instruction gets the same label. -/
theorem lengthen_relabel (hg : Set.InjOn g S) (hfound : ∀ m ∈ found, m ∈ S) (h : here.Moves g here')
    (hfits : here.instr.fits) (hmem : ∀ t, here.instr.target? = some t → t ∈ found) :
    (relabel (found.map g) here'.instr).lengthen = (relabel found here.instr).lengthen := by
  have htarget := h.target?
  cases ht : here.instr.target? with
  | none =>
    have hnone : here.instr.lengthen.arg.label? = none := by
      rw [← Instr.target?_of_fits (Instr.lengthen_spec hfits).1, ← (Instr.restates_lengthen _).target, ht]
    rw [ht] at htarget
    rw [relabel_of_none ht, relabel_of_none htarget, h.instr, Instr.mapLabel, Operand.mapLabel_of_none hnone]
  | some t =>
    obtain ⟨l, hl⟩ := Option.isSome_iff_exists.mp (List.isSome_idxOf?.mpr (hmem t ht))
    have hl' := (idxOf?_map hg (hfound t (hmem t ht)) hfound).trans hl
    rw [ht] at htarget
    -- a label in the place of an offset
    have hwith : ∀ i : Instr, (⟨i.op, i.arg.withLabel l⟩ : Instr).lengthen = i.lengthen.mapLabel fun _ => l := by
      intro i
      rw [Operand.withLabel_eq]
      exact i.lengthen_mapLabel _
    rw [relabel_of_target? ht hl, relabel_of_target? htarget hl', hwith, hwith, h.instr]
    exact congrArg (Instr.mk _) (Operand.mapLabel_mapLabel ..)

theorem bare_markAt (found : List Nat) (pos : Nat) :
    bare ((markAt found pos).map (·.instr)) = (markAt found pos).map (·.instr) := by
  unfold markAt
  cases found.idxOf? pos <;> rfl

theorem bare_withMarkers (found : List Nat) (lines : LineTable) (hop : here.instr.opcode?.isSome) :
    bare (withMarkers found lines here) = (markAt found here.pos).map (·.instr) ++ [relabel found here.instr] := by
  have hline : bare ((lineAt lines here.pos).map (·.instr)) = [] := by
    unfold lineAt
    cases lines.lineAt? here.pos <;> rfl
  obtain ⟨op, arg, hinstr⟩ := relabel_eq_of found hop
  rw [withMarkers, bare_append, bare_append, bare_markAt, hline, List.append_nil, hinstr]
  rfl

theorem markAt_map (hg : Set.InjOn g S) (hfound : ∀ m ∈ found, m ∈ S) {pos} (hpos : pos ∈ S) :
    markAt (found.map g) (g pos) = markAt found pos := by
  rw [markAt, markAt, idxOf?_map hg hpos hfound]

/-- Code that was moved has the same labels, and but for the forms the same instructions. -/
theorem lengthen_labelled (hg : Set.InjOn g S) (hfound : ∀ m ∈ found, m ∈ S) (lines lines' : LineTable) {pos pos'}
    (hcode : Finished pos read) (hcode' : Finished pos' read') (h : List.Forall₂ (Located.Moves g) read read')
    (hS : ∀ p ∈ read.map (·.pos) ++ [endFrom pos read], p ∈ S) (hend : endFrom pos' read' = g (endFrom pos read))
    (hfits : ∀ here ∈ read, here.instr.fits)
    (htargets : ∀ here ∈ read, ∀ t, here.instr.target? = some t → t ∈ found) :
    (bare (labelled (found.map g) lines' pos' read')).map Instr.lengthen =
      (bare (labelled found lines pos read)).map Instr.lengthen := by
  induction h generalizing pos pos' with
  | nil =>
    rw [labelled, labelled, List.flatMap_nil, List.flatMap_nil, List.nil_append, List.nil_append, bare_markAt,
      bare_markAt, hend, markAt_map hg hfound (hS _ List.mem_concat_self)]
  | @cons here here' read read' hmoves hrest ih =>
    obtain ⟨rfl, hop, hcode⟩ := hcode
    obtain ⟨rfl, hop', hcode'⟩ := hcode'
    rw [List.forall_mem_cons] at hfits htargets
    rw [List.map_cons, List.cons_append, List.forall_mem_cons] at hS
    rw [labelled_cons, labelled_cons, bare_append, bare_append, List.map_append, List.map_append,
      ih hcode hcode' hS.2 hend hfits.2 htargets.2, bare_withMarkers _ _ hop, bare_withMarkers _ _ hop', hmoves.pos,
      markAt_map hg hfound hS.1, List.map_append, List.map_append, List.map_singleton, List.map_singleton,
      lengthen_relabel hg hfound hmoves hfits.1 htargets.1]

variable {offsets offsets' : List Nat} {pos : Nat}

/-- The offset that has the same place among other offsets. -/
def moved (offsets offsets' : List Nat) (t : Nat) : Nat :=
  offsets'[offsets.idxOf t]?.getD 0

theorem moved_of_getElem? (h : offsets.Nodup) {n t t' : Nat} (hn : offsets[n]? = some t)
    (hn' : offsets'[n]? = some t') : moved offsets offsets' t = t' := by
  obtain ⟨hlt, rfl⟩ := List.getElem?_eq_some_iff.mp hn
  rw [moved, h.idxOf_getElem, hn', Option.getD_some]

theorem strictMonoOn_moved (h : offsets.Pairwise (· < ·)) (h' : offsets'.Pairwise (· < ·))
    (hlength : offsets.length = offsets'.length) : StrictMonoOn (moved offsets offsets') {t | t ∈ offsets} := by
  have hnodup : offsets.Nodup := h.imp Nat.ne_of_lt
  intro t ht u hu hlt
  obtain ⟨n, hn, rfl⟩ := List.getElem_of_mem ht
  obtain ⟨m, hm, rfl⟩ := List.getElem_of_mem hu
  have hnm : n < m := by
    rcases Nat.lt_trichotomy n m with hnm | rfl | hmn
    · exact hnm
    · exact absurd hlt (lt_irrefl _)
    · exact absurd (List.pairwise_iff_getElem.mp h m n hm hn hmn) (Nat.lt_asymm hlt)
  rw [moved_of_getElem? hnodup (List.getElem?_eq_getElem hn) (List.getElem?_eq_getElem (hlength ▸ hn)),
    moved_of_getElem? hnodup (List.getElem?_eq_getElem hm) (List.getElem?_eq_getElem (hlength ▸ hm))]
  exact List.pairwise_iff_getElem.mp h' n m _ _ hnm

end Labels

/-- Two codes that are the same program differ in forms and offsets only. -/
theorem moves_of_canonical {total total' : Nat} (hnodup : (read.map (·.pos) ++ [total]).Nodup)
    (hfits : ∀ here ∈ read', here.instr.fits) (hland : JumpsLand read' total')
    (h : canonical read' total' = canonical read total) :
    List.Forall₂ (Located.Moves (Labels.moved (read.map (·.pos) ++ [total]) (read'.map (·.pos) ++ [total'])))
      read read' := by
  have hlength : read.length = read'.length := by simpa [canonical] using (congrArg List.length h).symm
  refine List.forall₂_of_length_eq_of_get hlength fun n hn hn' => ?_
  have hsame := List.getElem_of_eq h (show n < (canonical read' total').length by simpa [canonical] using hn')
  simp only [canonical, List.getElem_map] at hsame
  have hat : ∀ {code : List Located} {total n : Nat} (hn : n < code.length),
      (code.map (·.pos) ++ [total])[n]? = some code[n].pos := by
    intro code total n hn
    rw [List.getElem?_append_left (by simpa using hn), List.getElem?_map, List.getElem?_eq_getElem hn, Option.map_some]
  constructor
  · exact (Labels.moved_of_getElem? hnodup (hat hn) (hat hn')).symm
  · -- offsets in the place of numbers of instructions
    have hback := congrArg (Instr.mapLabel fun k => (read'.map (·.pos) ++ [total'])[k]?.getD 0) hsame
    simp only [Instr.mapLabel, Operand.mapLabel_mapLabel, Instr.mk.injEq] at hback
    refine congrArg₂ Instr.mk hback.1 (Eq.trans ?_ hback.2)
    refine ((Operand.mapLabel_congr fun l hl => ?_).trans (Operand.mapLabel_id _)).symm
    have htarget : read'[n].instr.target? = some l := by
      rw [(Instr.restates_lengthen _).target,
        Instr.target?_of_fits (Instr.lengthen_spec (hfits _ (List.getElem_mem hn'))).1]
      exact hl
    have hmem := hland _ (List.getElem_mem hn') l htarget
    rw [List.getElem?_eq_getElem (List.idxOf_lt_length_of_mem hmem), List.getElem_idxOf, Option.getD_some]

/-! ## The second time -/

theorem Instr.isLine_shorten (i : Instr) : i.lengthen.shorten.isLine = i.isLine := by
  obtain ⟨op, arg⟩ := i
  cases op with
  | pseudo op => rfl
  | final o =>
    have hmarker := isMarker_shorten ⟨.final o, arg⟩
    generalize Instr.shorten (lengthen ⟨.final o, arg⟩) = j at hmarker
    obtain ⟨op, arg⟩ := j
    cases op with
    | final op => rfl
    | pseudo op => cases op <;> first | rfl | cases hmarker

theorem bare_map_shorten (code : List Instr) :
    bare (code.map fun i => i.lengthen.shorten) = ((bare code).map Instr.lengthen).map Instr.shorten := by
  rw [bare, List.filter_map, List.map_map]
  exact congrArg (List.map _) (List.filter_congr fun i _ => congrArg not i.isLine_shorten)

/-- Lines begin at the same offsets if the code takes as much room in all. -/
theorem Layout.linesFrom_shortest {settled : List Instr} {pos : Nat} {pending last : Option Nat}
    (hwides : List.Forall₂ (fun i j => i.lengthen.shorten.Widens j) code settled)
    (hwithin : List.Forall₂ Instr.Within settled code) (hplace : ∀ i ∈ settled, Placeable i)
    (hsize : Layout.sizeOf settled = Layout.sizeOf code) :
    linesFrom pending last (placeFrom pos settled) = linesFrom pending last (placeFrom pos code) := by
  induction hwides generalizing pos pending last with
  | nil => rfl
  | @cons i j _ _ hj _ ih =>
    obtain _ | ⟨hi, hwithin⟩ := hwithin
    rw [List.forall_mem_cons] at hplace
    rw [sizeOf_cons, sizeOf_cons] at hsize
    have hle := hi.size
    have hles := sizeOf_within hwithin
    have hsame : j.size = i.size := by omega
    have hrest := fun {pending last} => @ih (pos + i.size) pending last hwithin hplace.2 (by omega)
    rw [placeFrom, placeFrom, hsame]
    obtain ⟨op, arg⟩ := i
    cases op with
    | pseudo op =>
      cases hj
      cases op <;> exact hrest
    | final op =>
      obtain ⟨op', hop'⟩ := hplace.1.resolve_left (by rw [hi.marker]; exact Bool.false_ne_true)
      obtain ⟨_, arg'⟩ := j
      cases hop'
      cases pending with
      | none => exact hrest
      | some line => simp only [linesFrom, hrest]

/-- Codes that are the same program are laid out from the same forms, line markers apart. -/
theorem bare_shortest_eq {bytes bytes' : Bytes} (lines lines' : LineTable) (hread : decodeFinal bytes = .ok read)
    (hread' : decodeFinal bytes' = .ok read') (hland : JumpsLand read bytes.length)
    (hland' : JumpsLand read' bytes'.length) (h : canonical read' bytes'.length = canonical read bytes.length) :
    bare (((labelize read' lines').map (·.instr)).map fun i => i.lengthen.shorten) =
      bare (((labelize read lines).map (·.instr)).map fun i => i.lengthen.shorten) := by
  have hcode := finished_of_decode hread
  have hcode' := finished_of_decode hread'
  obtain ⟨hinstrs, hend⟩ := isRead_of_decode hread
  obtain ⟨hinstrs', hend'⟩ := isRead_of_decode hread'
  have hascending := (Labels.ascending_positions hcode).1
  have hascending' := (Labels.ascending_positions hcode').1
  rw [hend] at hascending
  rw [hend'] at hascending'
  have hnodup := hascending.imp Nat.ne_of_lt
  have hmoves := moves_of_canonical hnodup (fun here hhere => (hinstrs' here hhere).fits) hland' h
  have hlength : (read.map (·.pos) ++ [bytes.length]).length = (read'.map (·.pos) ++ [bytes'.length]).length := by
    simp [hmoves.length_eq]
  have hmono := Labels.strictMonoOn_moved hascending hascending' hlength
  have htargets := Labels.targets_map hmono hmoves fun here hhere t ht => hland here hhere t ht
  have hlast : ∀ {code : List Located} {total : Nat}, (code.map (·.pos) ++ [total])[code.length]? = some total := by
    intro code total
    rw [List.getElem?_append_right (by simp), List.length_map, Nat.sub_self]
    rfl
  rw [bare_map_shorten, bare_map_shorten, Labels.labelize_eq lines hcode, Labels.labelize_eq lines' hcode', htargets]
  refine congrArg _ (Labels.lengthen_labelled hmono.injOn (fun t ht => ?_) lines lines' hcode hcode' hmoves
    (fun p hp => hend ▸ hp) ?_ (fun here hhere => (hinstrs here hhere).fits)
    fun here hhere t ht => Labels.mem_targets.mpr ⟨here, hhere, ht⟩)
  · obtain ⟨here, hhere, ht⟩ := Labels.mem_targets.mp ht
    exact hland here hhere t ht
  · rw [hend, hend']
    exact (Labels.moved_of_getElem? hnodup hlast (hmoves.length_eq ▸ hlast)).symm

/-- Where layout starts from the same forms, line markers apart, it ends with the same ones. -/
theorem Layout.bare_settled_eq {code code' settled settled' : List Instr} {n n' : Nat} (h : settle n code = .ok settled)
    (h' : settle n' code' = .ok settled') (hn : 2 * code.length < n) (hn' : 2 * code'.length < n')
    (hbare : bare code' = bare code) : bare settled' = bare settled := by
  have hsteps : ∀ code, stepsLeft (bare code) ≤ 2 * code.length := fun code =>
    (stepsLeft_le _).trans (Nat.mul_le_mul_left 2 (List.length_filter_le ..))
  have hsettle := settle_rounds (settle_bare h) ((hsteps code).trans_lt hn)
    ((hbare ▸ hsteps code').trans_lt hn')
  exact Except.ok.inj ((hbare ▸ settle_bare h').symm.trans hsettle)

/-- Code that takes as much room as the code it was read from has the lines that it was given. -/
theorem lines_shortest {bytes : Bytes} {lines : LineTable} {settled : List Instr} (hread : decodeFinal bytes = .ok read)
    (hlines : Lined none read lines)
    (hwides : List.Forall₂ Instr.Widens (((labelize read lines).map (·.instr)).map fun i => i.lengthen.shorten) settled)
    (hwithin : List.Forall₂ Instr.Within settled ((labelize read lines).map (·.instr)))
    (hplace : ∀ i ∈ settled, Placeable i) (hsize : Layout.sizeOf settled = bytes.length) :
    Layout.lines (placeFrom 0 settled) = lines := by
  have hcode := finished_of_decode hread
  have hsame := hsize.trans (sizeOf_labelize lines hread).symm
  rw [lines_eq, linesFrom_shortest (List.forall₂_map_left_iff.mp hwides) hwithin hplace hsame,
    Labels.labelize_eq lines hcode]
  exact linesFrom_labelled _ hlines hcode

/-- The short forms of settled code can be laid out, within that code. -/
theorem Layout.Settled.settle_shortest (h : Settled bound code) (hcode : Workable code)
    (hfits : ∀ i ∈ instrsOf code, i.fits) :
    ∃ settled, settle (2 * code.length + 1) (code.map fun i => i.lengthen.shorten) = .ok settled ∧
      List.Forall₂ Instr.Widens (code.map fun i => i.lengthen.shorten) settled ∧
      List.Forall₂ Instr.Within settled code ∧
      (∀ i ∈ code.map fun i => i.lengthen.shorten, Placeable i) ∧ ∀ i ∈ settled, Placeable i := by
  obtain ⟨settled, hsettle, hwithin⟩ := settle_within h (2 * code.length + 1) (within_shortest hfits)
  have hsteps := stepsLeft_le (code.map fun i => i.lengthen.shorten)
  rw [List.length_map] at hsteps
  have hwides := (settle_spec hsettle (Nat.lt_succ_of_le hsteps)).1
  have hplace : ∀ i ∈ code.map fun i => i.lengthen.shorten, Placeable i := by
    intro j hj
    obtain ⟨i, hi, rfl⟩ := List.mem_map.mp hj
    exact (i.restates_shortest.2 (hcode i hi)).2
  exact ⟨settled, hsettle, hwides, hwithin, hplace, forall₂_mem hwides (fun _ _ => Placeable.widens) hplace⟩

/-- What was changed to short forms stays as it is when it is changed to short forms again, with the same lines. -/
theorem optimize_shortForms_stable {bytes : Bytes} {lines : LineTable} {a : Assembled}
    (h : optimize .shortForms bytes lines = .ok a) : optimize .shortForms a.code a.lines = .ok a := by
  obtain ⟨read, settled, bound, bound', hread, hshort, hback, hsize, rfl⟩ := shortening_of_optimize h
  have hplace := fun i hi => (hshort.workable i hi).2
  have hland := jumpsLand_of_settled hshort.before hplace fun i hi => (hshort.workable i hi).1.labelled
  have hland' := jumpsLand_of_settled hshort.after hshort.placeable hshort.labelled
  have hsame := hshort.canonical_eq
  have hread' := hshort.after.decode hshort.placeable hshort.labelled
  have hlength := length_bytes bound' 0 hshort.placeable
  rw [hback, hsize] at hland hsame
  rw [← hlength] at hland' hsame
  -- the second time, layout ends within the code that was read, hence at the same place
  set read' := (placeFrom 0 settled).filterMap (readBack? bound')
  set lines' := Layout.lines (placeFrom 0 settled)
  obtain ⟨bound'', hbefore, -⟩ := settled_labelize lines' hread' hland'
  obtain ⟨settled', hsettle, hwides, hwithin, hstart, hplace'⟩ :=
    hbefore.settle_shortest (workable_labelize lines' hread') (fits_labelize lines' hread')
  have hbare := bare_settled_eq hshort.settles hsettle (by simp) (by simp)
    (bare_shortest_eq lines lines' hread hread' hland hland' hsame)
  have hbytes : (placeFrom 0 settled').flatMap (Layout.bytes bound') =
      (placeFrom 0 settled).flatMap (Layout.bytes bound') := by
    rw [← bytes_bare, hbare, bytes_bare]
  have hlines : Layout.lines (placeFrom 0 settled') = lines' := by
    refine lines_shortest hread' ?_ hwides hwithin hplace' ?_
    · show Lined none read' (Layout.lines (placeFrom 0 settled))
      rw [lines_eq]
      exact lined_linesFrom bound' 0 hshort.placeable nofun
    · rw [← length_bytes bound' 0 hplace', hbytes]
  refine bind_eq_ok.mpr ⟨read', hread', ?_⟩
  dsimp only
  rw [optimizeInstrs_shortForms]
  refine bind_eq_ok.mpr ⟨(), checkOpcodes_eq_ok_iff.mpr hstart, bind_eq_ok.mpr ⟨settled', ?_, ?_⟩⟩
  · rw [List.length_map]
    exact hsettle
  · refine bind_eq_ok.mpr ⟨bound', ?_, ?_⟩
    · rw [← bind_bare, hbare, bind_bare]
      exact hshort.after.binds
    · rw [place_eq]
      exact congrArg Except.ok (congrArg₂ Assembled.mk hbytes hlines)

theorem optimize_longBranch_stable : ∃ a, optimize .shortForms longBranch [⟨5, 2⟩] = .ok a ∧
    optimize .shortForms a.code a.lines = .ok a :=
  ⟨_, optimize_longBranch, optimize_shortForms_stable optimize_longBranch⟩

end ScriptBytecode
