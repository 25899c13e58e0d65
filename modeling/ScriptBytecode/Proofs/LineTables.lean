import ScriptBytecode.Proofs.Leb128
import ScriptBytecode.Proofs.Optimizer.Stability

/-!
# Line tables, read back

A line table is read back from its differences but for entries that say nothing new, and what it says of an instruction
is the line that was marked last before it.
-/

namespace ScriptBytecode

namespace LineTable

variable {pc line dpc : Nat} {dline : Int} {t : LineTable}

/-- The entries that differ from the one before them, which is `last` for the first. -/
def changedFrom (last : LineEntry) (t : LineTable) : LineTable :=
  (((last :: t).zip t).filter fun (before, e) => before ≠ e).map (·.2)

theorem changedFrom_cons (last e : LineEntry) (t : LineTable) :
    changedFrom last (e :: t) = if last = e then changedFrom e t else e :: changedFrom e t := by
  unfold changedFrom
  rw [List.zip_cons_cons, List.filter_cons]
  by_cases h : last = e <;> simp [h]

/-! ## Differences -/

/-- A difference is read back from its byte or from behind the zero byte. -/
theorem decodeFrom_step (fuel pos : Nat) (line : Int) (done : Array LineEntry) (rest : Bytes) (hdpc : dpc < 0x80000000)
    (hdline : fitsSigned 32 dline) :
    decodeFrom (fuel + 1) pos pc line done (step dpc dline ++ rest) =
      decodeFrom fuel (pos + (step dpc dline).length) (pc + dpc) (line + dline)
        (done.push ⟨pc + dpc, unsignedWord 32 (max (line + dline) 0)⟩) rest := by
  unfold step packed
  split
  · -- a small difference gives a byte from 1 to 255
    rename_i hsmall
    simp only [Bool.and_eq_true, decide_eq_true_eq] at hsmall
    obtain ⟨k, hk⟩ := Int.eq_ofNat_of_zero_le (show 0 ≤ dline + 1 by omega)
    have hword : unsignedWord 8 (dline + 1 + dpc * 5 + 1) = k + dpc * 5 + 1 := by
      have hlt : k + dpc * 5 + 1 < Nat.pow 2 8 := by
        have hpow : Nat.pow 2 8 = 256 := rfl
        omega
      rw [← unsignedWord_natCast hlt, hk]
      norm_cast
    have hbyte : (k + dpc * 5 + 1).toUInt8.toNat = k + dpc * 5 + 1 := Leb128.toNat_toUInt8 (by omega)
    have hzero : (k + dpc * 5 + 1).toUInt8 ≠ 0 := by
      intro hzero
      rw [hzero] at hbyte
      cases hbyte
    have hdiv : (k + dpc * 5) / 5 = dpc := by omega
    have hmod : (((k + dpc * 5) % 5 : Nat) : Int) - 1 = dline := by omega
    rw [hword, Option.getD_some, List.singleton_append, decodeFrom, if_neg hzero]
    simp only [hbyte, Nat.add_sub_cancel, hdiv, hmod, pure_bind, List.length_singleton, Nat.add_zero]
  · have hword : unsignedWord 32 dpc = dpc := unsignedWord_natCast (hdpc.trans (by decide))
    have hread := fun rest => Leb128.read_write (pos + 1) rest (n := dpc) (hdpc.trans (by decide))
    have hsigned := Leb128.readSigned_writeSigned (pos + 1 + (Leb128.write dpc).length) rest hdline
    rw [hword, Option.getD_none, List.cons_append, List.cons_append, List.append_assoc, decodeFrom, if_pos rfl, hread]
    simp only [bind, Except.bind, hsigned, pure, Except.pure, List.length_cons, List.length_append]
    congr 1
    omega

theorem length_step_pos (dpc dline : Int) : 0 < (step dpc dline).length := by
  unfold step packed
  split <;> exact Nat.succ_pos _

/-- Every difference takes a byte at least, so that there is fuel for all. -/
theorem decodeFrom_encodeFrom (fuel pos : Nat) (done : Array LineEntry) (hline : line < 0x80000000)
    (hpcs : (⟨pc, line⟩ :: t).Pairwise (·.pc ≤ ·.pc)) (hsmall : ∀ e ∈ t, e.pc < 0x80000000 ∧ e.line < 0x80000000)
    (hfuel : (encodeFrom pc line t).length ≤ fuel) :
    ∃ read, decodeFrom fuel pos pc line done (encodeFrom pc line t) = .ok read ∧
      read.toList = done.toList ++ changedFrom ⟨pc, line⟩ t := by
  induction t generalizing pc line fuel pos done with
  | nil => cases fuel <;> exact ⟨done, rfl, (List.append_nil _).symm⟩
  | cons e t ih =>
    obtain ⟨⟨hpc, hline'⟩, hrest⟩ := List.forall_mem_cons.mp hsmall
    rw [List.pairwise_cons] at hpcs
    have hle : pc ≤ e.pc := hpcs.1 e List.mem_cons_self
    have hsigned : ∀ n < 0x80000000, signedWord 32 n = n := fun n hn => if_pos hn
    simp only [encodeFrom, hsigned _ hline', hsigned _ hline, hsigned (e.pc - pc) (by omega)] at hfuel ⊢
    rw [changedFrom_cons]
    by_cases hsame : (⟨pc, line⟩ : LineEntry) = e
    · subst hsame
      simp only [Nat.sub_self, Int.sub_self, Int.natCast_zero, decide_true, Bool.and_self, if_true] at hfuel ⊢
      exact ih fuel pos done hline hpcs.2 hrest hfuel
    · have hdiff : ¬(decide ((e.line : Int) - line = 0) && decide (((e.pc - pc : Nat) : Int) = 0)) = true := by
        simp only [Bool.and_eq_true, decide_eq_true_eq]
        rintro ⟨hl, hp⟩
        exact hsame (by rw [show pc = e.pc by omega, show line = e.line by omega])
      rw [if_neg hdiff] at hfuel ⊢
      have hfits : fitsSigned 32 ((e.line : Int) - line) := by
        have hhalf : (Nat.pow 2 (32 - 1) : Nat) = 0x80000000 := rfl
        simp only [fitsSigned, hhalf, Bool.and_eq_true, decide_eq_true_eq]
        omega
      have hstep := length_step_pos ((e.pc - pc : Nat) : Int) ((e.line : Int) - line)
      rw [List.length_append] at hfuel
      obtain ⟨fuel, rfl⟩ := Nat.exists_eq_add_one_of_ne_zero (Nat.ne_of_gt (by omega : 0 < fuel))
      rw [decodeFrom_step fuel pos line done _ (by omega) hfits, if_neg hsame]
      have hpc' : pc + (e.pc - pc) = e.pc := by omega
      have hline'' : (line : Int) + (e.line - line) = e.line := by omega
      have hword : unsignedWord 32 (max (e.line : Int) 0) = e.line := by
        rw [max_eq_left (Int.natCast_nonneg _)]
        exact unsignedWord_natCast (hline'.trans (by decide))
      rw [hpc', hline'', hword]
      obtain ⟨read, hread, hlist⟩ := ih fuel _ (done.push e) hline' hpcs.2 hrest (by omega)
      exact ⟨read, hread, by rw [hlist]; simp⟩

/-- Encoded tables are read back, without the entries that repeat the one before them. -/
theorem decode_encode_changed (base : Nat) (t : LineTable) (hbase : base < 0x80000000)
    (hpcs : t.Pairwise (·.pc ≤ ·.pc)) (hsmall : ∀ e ∈ t, e.pc < 0x80000000 ∧ e.line < 0x80000000) :
    decode base (encode base t) = .ok (t.changedFrom ⟨0, base⟩) := by
  obtain ⟨read, hread, hlist⟩ := decodeFrom_encodeFrom _ 0 #[] hbase
    (List.pairwise_cons.mpr ⟨fun _ _ => Nat.zero_le _, hpcs⟩) hsmall (Nat.le_refl _)
  exact bind_eq_ok.mpr ⟨read, hread, congrArg Except.ok (hlist.trans (List.nil_append _))⟩

/-- A table of lines on both sides of the first, with a repetition and a long way. -/
theorem decode_encode_changed_steps : decode 5 (encode 5 [⟨0, 5⟩, ⟨3, 4⟩, ⟨3, 4⟩, ⟨700, 90⟩]) =
    .ok [⟨3, 4⟩, ⟨700, 90⟩] :=
  decode_encode_changed 5 [⟨0, 5⟩, ⟨3, 4⟩, ⟨3, 4⟩, ⟨700, 90⟩] (by decide) (by decide) (by decide)

/-! ## Lines of offsets -/

/-- The line of an offset: that of the last entry at or before it, or the line that the code starts on. -/
def lineOf (base : Nat) (t : LineTable) (pc : Nat) : Nat :=
  t.foldl (fun line e => if e.pc ≤ pc then e.line else line) base

theorem lineOf_of_lt (base : Nat) (h : ∀ e ∈ t, pc < e.pc) : lineOf base t pc = base := by
  induction t with
  | nil => rfl
  | cons e t ih =>
    obtain ⟨he, ht⟩ := List.forall_mem_cons.mp h
    rw [lineOf, List.foldl_cons, if_neg (Nat.not_le.mpr he)]
    exact ih ht

/-- Entries that repeat the one before them say nothing new. -/
theorem lineOf_changedFrom {last : LineEntry} (h : last.pc ≤ pc → line = last.line) :
    lineOf line (changedFrom last t) pc = lineOf line t pc := by
  induction t generalizing last line with
  | nil => rfl
  | cons e t ih =>
    have hrest := @ih (if e.pc ≤ pc then e.line else line) e fun he => if_pos he
    rw [changedFrom_cons]
    split
    · rename_i hsame
      subst hsame
      have hline : (if last.pc ≤ pc then last.line else line) = line := by
        split
        · exact (h ‹_›).symm
        · rfl
      rw [hline] at hrest
      rw [hrest, lineOf, lineOf, List.foldl_cons, hline]
    · exact hrest

end LineTable

/-! ## Lines of instructions -/

/-- The line that a marker names. -/
def Instr.line? (i : Instr) : Option Nat :=
  if i.op = .pseudo .lineNum then i.arg.int?.map Int.toNat else none

/-- The line that was marked last, or the line that the code starts on. -/
def lastLine (base : Nat) (code : List Instr) : Nat :=
  (code.filterMap Instr.line?).getLast?.getD base

namespace Layout

variable {code settled : List Instr} {i : Instr} {pc : Nat}

theorem lastLine_cons (base : Nat) (i : Instr) (code : List Instr) :
    lastLine base (i :: code) = lastLine (i.line?.getD base) code := by
  unfold lastLine
  cases h : i.line? with
  | none => rw [List.filterMap_cons_none h, Option.getD_none]
  | some line => rw [List.filterMap_cons_some h, List.getLast?_cons, Option.getD_some, Option.getD_some]

/-- The marker of a line names one below `2 ^ 31`. -/
def LineMarked (i : Instr) : Prop :=
  i.op = .pseudo .lineNum → ∃ n ∈ i.arg.int?, 0 ≤ n ∧ n < 0x80000000

instance (i : Instr) : Decidable (LineMarked i) := by
  unfold LineMarked
  infer_instance

theorem lastLine_widens (base : Nat) (h : List.Forall₂ Instr.Widens code settled) :
    lastLine base code = lastLine base settled := by
  induction h generalizing base with
  | nil => rfl
  | cons hi _ ih =>
    rw [lastLine_cons, lastLine_cons, ih]
    cases hi <;> rfl

theorem LineMarked.widens {j : Instr} (h : i.Widens j) (hi : LineMarked i) : LineMarked j := by
  cases h with
  | refl => exact hi
  | wider => exact nofun

/-- A step: what an instruction adds to the table, and what is known behind it. -/
theorem linesFrom_step (pending last : Option Nat) (pc : Nat) (rest : List Located) (hi : LineMarked i) :
    ∃ new pending' last', linesFrom pending last (⟨pc, i⟩ :: rest) = new ++ linesFrom pending' last' rest ∧
      (∀ base, pending'.getD (last'.getD base) = i.line?.getD (pending.getD (last.getD base))) ∧
      (new = [] ∧ last' = last ∨ ∃ line ∈ pending, new = [⟨pc, line⟩] ∧ last' = some line) ∧
      (∀ op, i.op = .final op → pending' = none) ∧ ∀ line ∈ pending', line ∈ pending ∨ line < 0x80000000 := by
  obtain ⟨op, arg⟩ := i
  cases op with
  | pseudo op =>
    by_cases hop : op = .lineNum
    · subst hop
      obtain ⟨n, harg, hpos, hn⟩ := hi rfl
      obtain ⟨n, rfl⟩ := Int.eq_ofNat_of_zero_le hpos
      have hn : n < 0x80000000 := Int.ofNat_lt.mp hn
      have harg : arg.int? = some (n : Int) := harg
      have hline : Instr.line? ⟨.pseudo .lineNum, arg⟩ = some n := by simp [Instr.line?, harg]
      have hpending : arg.int?.map (unsignedWord 32) = some n := by
        rw [harg, Option.map_some, unsignedWord_natCast (hn.trans (by decide))]
      refine ⟨[], some n, last, ?_, fun base => by rw [hline]; rfl, .inl ⟨rfl, rfl⟩, nofun, fun line hn' => ?_⟩
      · rw [← hpending]
        rfl
      · cases hn'
        exact .inr hn
    · refine ⟨[], pending, last, by cases op <;> first | rfl | exact absurd rfl hop, fun base => ?_, .inl ⟨rfl, rfl⟩,
        nofun, fun line hline => .inl hline⟩
      rw [Instr.line?, if_neg fun h => hop (Op.pseudo.inj h)]
      rfl
  | final op =>
    have hline : Instr.line? ⟨.final op, arg⟩ = none := if_neg nofun
    cases pending with
    | none => exact ⟨[], none, last, rfl, fun base => by rw [hline]; rfl, .inl ⟨rfl, rfl⟩, fun _ _ => rfl, nofun⟩
    | some line =>
      by_cases hlast : last = some line
      · refine ⟨[], none, last, if_pos hlast, fun base => ?_, .inl ⟨rfl, rfl⟩, fun _ _ => rfl, nofun⟩
        rw [hline, hlast]
        rfl
      · refine ⟨[⟨pc, line⟩], none, some line, if_neg hlast, fun base => ?_, .inr ⟨line, rfl, rfl, rfl⟩,
          fun _ _ => rfl, nofun⟩
        rw [hline]
        rfl

/-- A table that was made of code is in order, and its entries stand in the code. -/
theorem linesFrom_bounds (pending last : Option Nat) (pc : Nat) (hmarked : ∀ i ∈ code, LineMarked i)
    (hpending : ∀ line ∈ pending, line < 0x80000000) :
    (linesFrom pending last (placeFrom pc code)).Pairwise (·.pc ≤ ·.pc) ∧
      ∀ e ∈ linesFrom pending last (placeFrom pc code),
        pc ≤ e.pc ∧ e.pc ≤ pc + Layout.sizeOf code ∧ e.line < 0x80000000 := by
  induction code generalizing pc pending last with
  | nil => exact ⟨.nil, nofun⟩
  | cons i code ih =>
    obtain ⟨hi, hmarked⟩ := List.forall_mem_cons.mp hmarked
    obtain ⟨new, pending', last', heq, -, hnew, -, hsmall⟩ :=
      linesFrom_step pending last pc (placeFrom (pc + i.size) code) hi
    obtain ⟨hsorted, hbounds⟩ := ih pending' last' (pc + i.size) hmarked fun line hline =>
      (hsmall line hline).elim (hpending line) id
    rw [placeFrom, heq, sizeOf_cons]
    have hrest : ∀ e ∈ linesFrom pending' last' (placeFrom (pc + i.size) code),
        pc ≤ e.pc ∧ e.pc ≤ pc + (i.size + Layout.sizeOf code) ∧ e.line < 0x80000000 := by
      intro e he
      obtain ⟨hlow, hhigh, hline⟩ := hbounds e he
      exact ⟨by omega, by omega, hline⟩
    rcases hnew with ⟨rfl, -⟩ | ⟨line, hline, rfl, -⟩
    · exact ⟨hsorted, hrest⟩
    · exact ⟨List.pairwise_cons.mpr ⟨fun e he => (hrest e he).1, hsorted⟩,
        List.forall_mem_cons.mpr ⟨⟨le_rfl, Nat.le_add_right _ _, hpending line hline⟩, hrest⟩⟩

/-- The table says of every instruction the line that was marked last before it. -/
theorem lineOf_linesFrom (pending last : Option Nat) (base : Nat) (hmarked : ∀ i ∈ code, LineMarked i) {k here op}
    (hhere : (placeFrom pc code)[k]? = some here) (hop : here.instr.op = .final op) :
    LineTable.lineOf (last.getD base) (linesFrom pending last (placeFrom pc code)) here.pos =
      lastLine (pending.getD (last.getD base)) (code.take k) := by
  induction code generalizing pc pending last k with
  | nil => cases hhere
  | cons i code ih =>
    obtain ⟨hi, hmarked⟩ := List.forall_mem_cons.mp hmarked
    obtain ⟨new, pending', last', heq, hcurrent, hnew, hfinal, -⟩ :=
      linesFrom_step pending last pc (placeFrom (pc + i.size) code) hi
    -- behind the instruction, its entry counts
    have hskip : ∀ pos, pc ≤ pos → ∀ t, LineTable.lineOf (last.getD base) (new ++ t) pos =
        LineTable.lineOf (last'.getD base) t pos := by
      intro pos hpos t
      rcases hnew with ⟨rfl, rfl⟩ | ⟨line, -, rfl, rfl⟩
      · rfl
      · exact congrArg (fun line => LineTable.lineOf line t pos) (if_pos hpos)
    rw [placeFrom] at hhere
    rw [placeFrom, heq]
    cases k with
    | zero =>
      cases hhere
      have hsize : 0 < i.size := by
        rw [size_of_opcode? (by rw [Instr.opcode?, hop]; rfl)]
        omega
      have hline : i.line? = none := if_neg fun h => Op.noConfusion (hop.symm.trans h)
      have hcurrent := hcurrent base
      obtain rfl := hfinal op hop
      have hbehind : ∀ e ∈ linesFrom none last' (placeFrom (pc + i.size) code), pc < e.pc := by
        intro e he
        have := ((linesFrom_bounds none last' _ hmarked fun _ h => absurd h (Option.not_mem_none _)).2 e he).1
        omega
      rw [hline] at hcurrent
      rw [hskip pc le_rfl, LineTable.lineOf_of_lt _ hbehind]
      exact hcurrent
    | succ k =>
      have hpos := (mem_placeFrom (List.mem_of_getElem? hhere)).2.1
      rw [hskip _ (by omega), ih pending' last' hmarked hhere, hcurrent, List.take_succ_cons, lastLine_cons]

/-- Where the instructions of a list stand in finished code: each in its own form or in a wider one, one behind the
other. -/
structure LaidOut (code : List Instr) (placed : List Located) (bytes : Bytes) : Prop where
  widens : List.Forall₂ (fun i here => i.Widens here.instr) code placed
  positions : placed = place (placed.map (·.instr))
  written : ∃ bound, bytes = placed.flatMap (Layout.bytes bound)

end Layout

/-- Every instruction of finished code is on the line that was marked last before it. -/
theorem lineOf_assemble {code : List Instr} {a : Assembled} {base : Nat} (hbase : base < 0x80000000)
    (hmarked : ∀ i ∈ code, Layout.LineMarked i) (h : assemble code = .ok a) (hsize : a.code.length < 0x80000000) :
    ∃ placed table, Layout.LaidOut code placed a.code ∧
      LineTable.decode base (LineTable.encode base a.lines) = .ok table ∧
      ∀ k i here, code[k]? = some i → placed[k]? = some here → i.isMarker = false →
        table.lineOf base here.pos = lastLine base (code.take k) := by
  obtain ⟨settled, bound, -, -, hwides, hplace, rfl⟩ := assemble_settles h
  have hmarked' : ∀ i ∈ settled, Layout.LineMarked i :=
    Layout.forall₂_mem hwides (fun _ _ => Layout.LineMarked.widens) hmarked
  obtain ⟨hsorted, hbounds⟩ := Layout.linesFrom_bounds none none 0 hmarked' nofun
  rw [← Layout.lines_eq] at hsorted hbounds
  rw [Layout.length_bytes bound 0 hplace] at hsize
  have hplaced : List.Forall₂ (fun i here => i.Widens here.instr) code (Layout.placeFrom 0 settled) := by
    rw [← List.forall₂_map_right_iff, Layout.placeFrom_instr]
    exact hwides
  refine ⟨Layout.placeFrom 0 settled, _, ⟨hplaced, by rw [Layout.placeFrom_instr, Layout.place_eq], bound, rfl⟩,
    LineTable.decode_encode_changed base _ hbase hsorted fun e he => ?_, fun k i here hi hhere hmarker => ?_⟩
  · obtain ⟨-, hhigh, hline⟩ := hbounds e he
    exact ⟨by omega, hline⟩
  · have hzip : (code.zip (Layout.placeFrom 0 settled))[k]? = some (i, here) :=
      List.getElem?_zip_eq_some.mpr ⟨hi, hhere⟩
    have hwiden : i.Widens here.instr := (List.forall₂_iff_zip.mp hplaced).2 (List.mem_of_getElem? hzip)
    obtain ⟨op, hop⟩ := (hplace _ (Layout.mem_placeFrom (List.mem_of_getElem? hhere)).1).resolve_left
      (by rw [← hwiden.isMarker_eq, hmarker]; exact Bool.false_ne_true)
    refine (LineTable.lineOf_changedFrom ?_).trans ?_
    · exact fun _ => rfl
    · rw [Layout.lines_eq, Layout.lastLine_widens base (List.forall₂_take k hwides)]
      exact Layout.lineOf_linesFrom none none base hmarked' hhere hop

/-- A loop with a line of its own between two parts of another. -/
def linedLoop : List Instr :=
  [.line 3, .mark 0, .of .ifFalse8 (.label 1), .line 9, .of .goto8 (.label 0), .mark 1, .line 3, .plain .returnUndef]

theorem lineOf_assemble_linedLoop : ∃ a placed table, assemble linedLoop = .ok a ∧
    Layout.LaidOut linedLoop placed a.code ∧ LineTable.decode 3 (LineTable.encode 3 a.lines) = .ok table ∧
      ∀ k i here, linedLoop[k]? = some i → placed[k]? = some here → i.isMarker = false →
        table.lineOf 3 here.pos = lastLine 3 (linedLoop.take k) := by
  have hlined : ∀ i ∈ linedLoop, Layout.LineMarked i := by decide
  obtain ⟨a, ha, hsize⟩ : ∃ a, assemble linedLoop = .ok a ∧ a.code.length < 0x80000000 := ⟨_, rfl, by decide⟩
  obtain ⟨placed, table, h⟩ := lineOf_assemble (by decide : 3 < 0x80000000) hlined ha hsize
  exact ⟨a, placed, table, ha, h⟩

end ScriptBytecode
