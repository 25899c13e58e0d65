import ScriptBytecode.Proofs.JumpWidths
import ScriptBytecode.Proofs.Optimizer.Links

/-!
# Short forms keep the program

Layout widens no jump beyond a width that would do. So code whose jumps start from their narrowest forms ends no longer
than any settled form of it (`settle_within`), and what the change to short forms makes of finished code is the same
program, written no longer at any place. Code that is in long forms to start with gets no longer by any of the passes.
-/

namespace ScriptBytecode

open Layout hiding sizeOf

variable {code upper front front' : List Instr} {bound bound' : List (Nat × Nat)} {i u : Instr}

/-! ## Long and short forms -/

namespace Opcode

/-- An opcode is its own long form, or implies a number or a name, or has a narrower field. -/
theorem longForm_cases (o : Opcode) : o.longForm = (o, none) ∨ o.longForm.2.isSome ∨
    o ∈ [getLength, pushEmptyString] ∨ o ∈ [goto8, goto16, ifFalse8, ifTrue8] ∨ o ∈ [pushI8, pushI16] ∨
    o ∈ [pushConst8, fclosure8, getLoc8, putLoc8, setLoc8] := by
  cases o <;> first | exact .inl rfl | exact .inr (.inl rfl) | exact .inr (.inr (by decide))

theorem size_longForm (o : Opcode) : o.size ≤ o.longForm.1.size := by
  cases o <;> decide

/-- Opcodes that imply a name are no long forms. -/
theorem longForm_ne (o : Opcode) : o.longForm.1 ≠ getLength ∧ o.longForm.1 ≠ pushEmptyString := by
  cases o <;> decide

theorem widens_longForm {o : Opcode} (h : o.isJump) : o.Widens o.longForm.1 ∧ o.longForm.2 = none := by
  revert h
  cases o <;> first
    | exact fun _ => ⟨.refl _, rfl⟩
    | exact fun _ => ⟨.step rfl (.refl _), rfl⟩
    | exact fun _ => ⟨.step rfl (.step rfl (.refl _)), rfl⟩
    | exact nofun

/-- A number that is implied fits the field of the long form, and from there the opcode is found again. -/
theorem shorten_longForm {o : Opcode} {n} (h : o.longForm.2 = some n) :
    o.format.shape = .empty ∧ o.longForm.1.format.shape.fits (.int n) ∧
      (Instr.of o.longForm.1 (.int n)).shorten = .plain o := by
  revert h
  cases o <;> intro h <;> cases h <;> exact ⟨rfl, by decide, rfl⟩

end Opcode

namespace Instr

theorem lengthen_of {short : Opcode} {o x} (h : short.longForm = (o, x)) (hlength : short ≠ .getLength)
    (hempty : short ≠ .pushEmptyString) (arg : Operand) : (Instr.of short arg).lengthen = .of o (x.elim arg .int) := by
  rcases lengthen_cases short arg with ⟨hshort, -⟩ | ⟨hshort, -⟩ | ⟨-, -, heq⟩
  · exact absurd hshort hlength
  · exact absurd hshort hempty
  · rw [h] at heq
    exact heq

theorem lengthen_lengthen (i : Instr) : i.lengthen.lengthen = i.lengthen := by
  obtain ⟨op, arg⟩ := i
  cases op with
  | pseudo op => rfl
  | final o =>
    rcases lengthen_cases o arg with ⟨-, heq⟩ | ⟨-, heq⟩ | ⟨-, -, heq⟩
    · rw [heq]
      rfl
    · rw [heq]
      rfl
    · rw [heq]
      exact lengthen_of o.longForm_longForm o.longForm_ne.1 o.longForm_ne.2 _

/-- The long form of an instruction is found again from its short form. -/
theorem lengthen_shorten {i : Instr} (hlong : i.lengthen = i) (hfits : i.fits) : i.shorten.lengthen = i := by
  obtain ⟨op, arg⟩ := i
  cases op with
  | pseudo op => rfl
  | final o =>
    rcases shorten_cases o arg with heq | hshort
    · rw [heq, hlong]
    · have hfits : o.format.shape.fits arg := hfits
      generalize shorten ⟨.final o, arg⟩ = j at hshort
      cases hshort with
      | @narrow short _ long _ _ suits =>
        refine lengthen_of long ?_ ?_ arg
        all_goals
          rintro rfl
          cases long
          have := suits hfits
          cases arg <;> first | cases hfits | cases this
      | @implied short _ long =>
        refine lengthen_of long ?_ ?_ .none
        all_goals
          rintro rfl
          cases long
      | emptyString isPush =>
        subst isPush
        rfl
      | length isGet =>
        subst isGet
        rfl

/-- A short form takes no more room. -/
theorem within_of_shortens {o arg j} (h : ShortForm.Shortens o arg j) : j.Within ⟨.final o, arg⟩ := by
  cases h with
  | @narrow short _ long =>
    refine ⟨rfl, rfl, ?_, fun op hop hjump => ?_⟩
    · have hsize := short.size_longForm
      rw [long] at hsize
      exact hsize
    · cases hop
      have hwide := (Opcode.widens_longForm hjump).1
      rw [long] at hwide
      exact .wider hwide arg
  | @implied short n long =>
    refine ⟨rfl, rfl, ?_, fun op hop hjump => ?_⟩
    · have hsize := short.size_longForm
      rw [long] at hsize
      exact hsize
    · cases hop
      cases (Opcode.widens_longForm hjump).2.symm.trans (congrArg Prod.snd long)
  | emptyString isPush | length isGet =>
    subst o
    exact ⟨rfl, rfl, by decide, fun op hop hjump => by cases hop; cases hjump⟩

theorem shorten_within (i : Instr) : i.shorten.Within i := by
  obtain ⟨op, arg⟩ := i
  cases op with
  | pseudo op => exact (Widens.refl _).within
  | final o =>
    rcases shorten_cases o arg with heq | hshort
    · rw [heq]
      exact (Widens.refl _).within
    · exact within_of_shortens hshort

theorem size_implied? {first : Opcode} {n : Int} {k : Nat} (i : Instr)
    (hall : (List.range (k + 1)).all (fun m => (first.plus? m).any (·.size == 1)))
    (hn : 0 ≤ n && n ≤ k) : ((ShortForm.implied? first n).getD i).size ≤ 2 := by
  simp only [Bool.and_eq_true, decide_eq_true_eq] at hn
  have hsize := List.all_eq_true.mp hall n.toNat (List.mem_range.mpr (by omega))
  obtain ⟨o, ho, hone⟩ := (Option.any_eq_true _ _).mp hsize
  rw [ShortForm.implied?, ho]
  exact (eq_of_beq hone).le.trans (Nat.le_succ 1)

/-- Numbers of one byte. -/
theorem size_shorten_byte {o} {n : Int} (ho : o ∈ [.pushConst, .fclosure, .getLoc, .putLoc, .setLoc])
    (hn : 0 ≤ n && n ≤ 255) : (Instr.of o (.int n)).shorten.size ≤ 2 := by
  simp only [List.mem_cons, List.not_mem_nil, or_false] at ho
  rcases ho with rfl | rfl | rfl | rfl | rfl <;>
    simp only [Instr.of, Instr.shorten, ShortForm.find?, ShortForm.ofInt?, hn, if_true] <;>
    first
    | exact le_rfl
    | split
      · rename_i hn
        exact size_implied? (k := 3) _ (by decide) hn
      · exact le_rfl

/-- Numbers of one or two bytes with a sign. -/
theorem size_shorten_signed {n : Int} {w : Nat} (hw : w = 1 ∨ w = 2) (hn : fitsSigned (8 * w) n) :
    (Instr.of .pushI32 (.int n)).shorten.size ≤ 1 + w := by
  simp only [Instr.of, Instr.shorten, ShortForm.find?, ShortForm.ofInt?]
  split
  · exact Nat.le_add_right 1 w
  · split
    · rename_i hn
      exact (size_implied? (k := 7) _ (by decide) hn).trans (by omega)
    · rcases hw with rfl | rfl
      · rw [if_pos hn]
        exact le_rfl
      · rw [if_pos (show fitsSigned 16 n = true from hn)]
        split
        · exact Nat.le_succ 2
        · exact le_rfl

/-- The same number in a wider field. -/
theorem within_of_number {o : Opcode} {o' n} (hjump : o.isJump = false)
    (hsize : (Instr.of o (.int n)).shorten.size ≤ (Instr.of o' (.int n)).size) :
    (Instr.of o (.int n)).shorten.Within (.of o' (.int n)) := by
  have hwithin := shorten_within (.of o (.int n))
  refine ⟨hwithin.marked, hwithin.marker, hsize, fun op hop h => ?_⟩
  obtain ⟨_, heq, hwide⟩ := Widens.final (hwithin.jump op hop h)
  cases hop.symm.trans heq
  cases h.symm.trans (hwide.isJump_eq.trans hjump)

/-- The long form of an instruction fits, and the form that is then chosen takes no more room. -/
theorem lengthen_spec {i : Instr} (h : i.fits) : i.lengthen.fits ∧ i.lengthen.shorten.Within i := by
  obtain ⟨op, arg⟩ := i
  cases op with
  | pseudo op => exact ⟨h, (Widens.refl _).within⟩
  | final o =>
    have hfits : o.format.shape.fits arg := h
    rcases o.longForm_cases with hlong | himplied | hshort | hjump | hsigned | hbyte
    · have heq : lengthen ⟨.final o, arg⟩ = ⟨.final o, arg⟩ := by
        refine lengthen_of hlong ?_ ?_ arg <;>
          · rintro rfl
            cases hlong
      rw [heq]
      exact ⟨h, shorten_within _⟩
    · obtain ⟨n, hn⟩ := Option.isSome_iff_exists.mp himplied
      obtain ⟨hshape, hint, hsame⟩ := Opcode.shorten_longForm hn
      have heq : lengthen ⟨.final o, arg⟩ = .of o.longForm.1 (.int n) := by
        refine lengthen_of (o := o.longForm.1) (x := some n) (by rw [← hn]) ?_ ?_ arg <;>
          · rintro rfl
            cases hn
      obtain rfl : arg = .none := by
        rw [hshape] at hfits
        cases arg <;> first | rfl | cases hfits
      rw [heq, hsame]
      exact ⟨hint, (Widens.refl _).within⟩
    · simp only [List.mem_cons, List.not_mem_nil, or_false] at hshort
      rcases hshort with rfl | rfl <;> cases arg <;> first | cases hfits; done | exact ⟨rfl, (Widens.refl _).within⟩
    · simp only [List.mem_cons, List.not_mem_nil, or_false] at hjump
      rcases hjump with rfl | rfl | rfl | rfl <;> cases arg <;> first
        | cases hfits; done
        | exact ⟨rfl, (Widens.refl _).within⟩
        | exact ⟨rfl, (Widens.wider (.step rfl (.refl _)) _).within⟩
    · simp only [List.mem_cons, List.not_mem_nil, or_false] at hsigned
      rcases hsigned with rfl | rfl <;> cases arg <;> first | cases hfits | skip
      · exact ⟨fitsSigned_mono (by decide) hfits, within_of_number rfl (size_shorten_signed (.inl rfl) hfits)⟩
      · exact ⟨fitsSigned_mono (by decide) hfits, within_of_number rfl (size_shorten_signed (.inr rfl) hfits)⟩
    · obtain ⟨n, rfl, hn⟩ : ∃ n, arg = .int n ∧ (0 ≤ n && n ≤ 255) = true := by
        have hshape : o.format.shape = .int false 1 := by
          revert hbyte
          cases o <;> decide
        rw [hshape] at hfits
        cases arg with
        | int n =>
          simp only [Shape.fits, Bool.and_eq_true, decide_eq_true_eq] at hfits ⊢
          exact ⟨n, rfl, hfits.1, Int.le_of_lt_add_one hfits.2⟩
        | _ => cases hfits
      have hint : ∀ {o' : Opcode}, o'.format.shape = .int false 2 ∨ o'.format.shape = .int true 4 →
          (Instr.of o' (.int n)).fits = true := by
        intro o' hshape
        simp only [Bool.and_eq_true, decide_eq_true_eq] at hn
        show o'.format.shape.fits (.int n) = true
        rcases hshape with hshape | hshape <;>
          simp only [hshape, Shape.fits, fitsSigned, Bool.and_eq_true, decide_eq_true_eq]
        · exact ⟨hn.1, Int.lt_of_le_of_lt hn.2 (by decide)⟩
        · exact ⟨Int.le_trans (by decide) hn.1, Int.lt_of_le_of_lt hn.2 (by decide)⟩
      simp only [List.mem_cons, List.not_mem_nil, or_false] at hbyte
      rcases hbyte with rfl | rfl | rfl | rfl | rfl
      all_goals exact ⟨hint (by decide), within_of_number rfl (size_shorten_byte (by decide) hn)⟩

theorem fits_shorten {i : Instr} (h : i.fits) : i.shorten.fits := by
  obtain ⟨op, arg⟩ := i
  cases op with
  | pseudo op => exact h
  | final o =>
    rcases shorten_cases o arg with heq | hshort
    · rwa [heq]
    · generalize shorten ⟨.final o, arg⟩ = j at hshort ⊢
      cases hshort with
      | narrow _ _ _ suits => exact suits h
      | @implied short _ long =>
        show short.format.shape.fits .none = true
        rw [(Opcode.shorten_longForm (congrArg Prod.snd long)).1]
        rfl
      | emptyString | length => rfl

/-- Wider forms have the same long form. -/
theorem Widens.lengthen_eq {i : Instr} {j} (h : i.Widens j) : i.lengthen = j.lengthen ∧ i.fits = j.fits := by
  cases h with
  | refl => exact ⟨rfl, rfl⟩
  | wider hop arg =>
    induction hop with
    | refl => exact ⟨rfl, rfl⟩
    | step head _ ih =>
      rw [← ih.1, ← ih.2]
      unfold Opcode.wider? at head
      split at head <;> cases head <;> exact ⟨rfl, by cases arg <;> rfl⟩

end Instr

/-! ## The program that code is -/

/-- The same operand with another label, which depends on its own. -/
def Operand.mapLabel (f : Nat → Nat) : Operand → Operand
  | label l => label (f l)
  | atomLabel a l n => atomLabel a (f l) n
  | labelInt l n => labelInt (f l) n
  | other => other

def Instr.mapLabel (f : Nat → Nat) (i : Instr) : Instr :=
  ⟨i.op, i.arg.mapLabel f⟩

/-- Code in long forms, with numbers of instructions in the place of offsets. The end has a number too. -/
def canonical (code : List Located) (total : Nat) : List Instr :=
  code.map fun here => here.instr.lengthen.mapLabel ((code.map (·.pos) ++ [total]).idxOf ·)

theorem Operand.withLabel_eq (arg : Operand) (t : Nat) : arg.withLabel t = arg.mapLabel fun _ => t := by
  cases arg <;> rfl

theorem Operand.mapLabel_mapLabel (arg : Operand) (f g : Nat → Nat) :
    (arg.mapLabel f).mapLabel g = arg.mapLabel fun l => g (f l) := by
  cases arg <;> rfl

theorem Operand.mapLabel_congr {arg : Operand} {f g} (h : ∀ l, arg.label? = some l → f l = g l) :
    arg.mapLabel f = arg.mapLabel g := by
  cases arg <;> first | rfl | simp only [mapLabel, h _ rfl]

theorem Instr.lengthen_mapLabel (i : Instr) (f : Nat → Nat) : (i.mapLabel f).lengthen = i.lengthen.mapLabel f := by
  obtain ⟨op, arg⟩ := i
  cases op with
  | pseudo op => rfl
  | final o =>
    rcases lengthen_cases o arg with ⟨rfl, -⟩ | ⟨rfl, -⟩ | ⟨hlength, hempty, heq⟩
    · rfl
    · rfl
    · refine (lengthen_of (o := o.longForm.1) (x := o.longForm.2) rfl hlength hempty _).trans ?_
      rw [heq]
      cases o.longForm.2 <;> rfl

namespace Layout

theorem number_within (h : List.Forall₂ Instr.Within code upper) (l : Nat) : number l code = number l upper := by
  induction h with
  | nil => rfl
  | cons hi _ ih => rw [number, number, hi.marked, hi.marker, ih]

/-- Settled code is read back as the program that it was made from. -/
theorem canonical_settled {settled} (hwides : List.Forall₂ Instr.Widens code settled) (hsettled : Settled bound settled)
    (hplace : ∀ i ∈ settled, Placeable i) (hfits : ∀ i ∈ instrsOf code, i.fits)
    (hnodup : (((placeFrom 0 settled).filterMap (readBack? bound)).map (·.pos) ++ [Layout.sizeOf settled]).Nodup) :
    canonical ((placeFrom 0 settled).filterMap (readBack? bound)) (Layout.sizeOf settled) =
      (instrsOf code).map fun i => i.lengthen.mapLabel (number · code) := by
  have hall := (List.forall₂_and_left _ _).mpr ⟨hfits, read_settled bound 0 hwides hplace⟩
  have hnumber := number_within (hwides.imp fun _ _ h => h.within)
  refine (List.forall₂_eq_eq_eq (α := Instr) ▸ List.forall₂_map_left_iff.mpr
    (List.forall₂_map_right_iff.mpr (hall.imp fun i here h => ?_)) :).symm
  obtain ⟨hi, op, hop, hmem, hr⟩ := h
  obtain ⟨hlong, hsame⟩ := hop.lengthen_eq
  have hshape : op.format.shape.fits i.arg := hsame.symm.trans hi
  rw [readBack?_final, Format.readBack_of_fits _ hshape] at hr
  rw [← Option.some.inj hr]
  generalize hdest : destination bound ⟨.final op, i.arg⟩ = dest at hr ⊢
  -- what is read has an offset where the instruction has its label
  rw [show (⟨.final op, i.arg.withLabel dest⟩ : Instr) = Instr.mapLabel (fun _ => dest) ⟨.final op, i.arg⟩ from
    congrArg (Instr.mk _) (i.arg.withLabel_eq dest), Instr.lengthen_mapLabel, ← hlong]
  refine congrArg (Instr.mk _) ((Operand.mapLabel_congr fun l hl => ?_).trans (Operand.mapLabel_mapLabel ..).symm)
  have htarget : i.target? = some l := by
    rw [(Instr.restates_lengthen i).target, Instr.target?_of_fits (Instr.lengthen_spec hi).1, hl]
  have hoff := hsettled.offset_of_target hmem (hop.target?_eq ▸ htarget)
  have hposition := position_number bound hplace hoff
  rw [hdest, Nat.zero_add] at hposition
  obtain ⟨hlt, rfl⟩ := List.getElem?_eq_some_iff.mp hposition
  rw [hnodup.idxOf_getElem, hnumber]

end Layout

/-- Instructions are read from places that take no more room. -/
theorem Layout.sizes_within (bound bound') (h : List.Forall₂ Instr.Within code upper) (hplace : ∀ i ∈ code, Placeable i)
    (hplace' : ∀ i ∈ upper, Placeable i) (p q : Nat) :
    List.Forall₂ (fun here here' => here'.instr.size ≤ here.instr.size)
      ((placeFrom q upper).filterMap (readBack? bound')) ((placeFrom p code).filterMap (readBack? bound)) := by
  induction h generalizing p q with
  | nil => exact .nil
  | @cons i u _ _ hi _ ih =>
    rw [List.forall_mem_cons] at hplace hplace'
    have hrest := ih hplace.2 hplace'.2 (p + i.size) (q + u.size)
    obtain ⟨op, arg⟩ := i
    obtain ⟨op', arg'⟩ := u
    cases op with
    | pseudo op =>
      cases op' with
      | pseudo op' => exact hrest
      | final op' => rcases hplace.1.marker with rfl | rfl <;> cases hi.marker
    | final op =>
      cases op' with
      | pseudo op' => rcases hplace'.1.marker with rfl | rfl <;> cases hi.marker
      | final op' => exact .cons hi.size hrest

/-- Only short forms are chosen. -/
def OptimizerConfig.shortForms : OptimizerConfig :=
  { OptimizerConfig.none with shortOpcodes := true }

theorem optimizeInstrs_shortForms (code : List Instr) :
    optimizeInstrs .shortForms code = code.map fun i => i.lengthen.shorten := by
  have hrounds : Optimizer.rounds .shortForms 10 (code.map Instr.lengthen) = code.map Instr.lengthen :=
    if_pos (beq_self_eq_true _)
  show (Optimizer.rounds .shortForms 10 (code.map Instr.lengthen)).map Instr.shorten = _
  rw [hrounds, List.map_map]
  rfl

/-- A change to short forms: recovered code, which is settled as it is, and what it is laid out as. -/
structure Shortening (code settled : List Instr) (bound bound' : List (Nat × Nat)) : Prop where
  before : Settled bound code
  workable : Workable code
  fits : ∀ i ∈ instrsOf code, i.fits = true
  settles : settle (2 * code.length + 1) (code.map fun i => i.lengthen.shorten) = .ok settled
  after : Settled bound' settled
  widens : List.Forall₂ Instr.Widens (code.map fun i => i.lengthen.shorten) settled
  within : List.Forall₂ Instr.Within settled code
  placeable : ∀ i ∈ settled, Placeable i
  labelled : ∀ i ∈ settled, Labelled i

theorem Instr.isMarker_shorten (i : Instr) : i.lengthen.shorten.isMarker = i.isMarker := by
  refine (shorten_within _).marker.trans ?_
  obtain ⟨op, arg⟩ := i
  cases op with
  | pseudo op => rfl
  | final o =>
    rcases lengthen_cases o arg with ⟨-, heq⟩ | ⟨-, heq⟩ | ⟨-, -, heq⟩ <;>
      · rw [heq]
        rfl

theorem Instr.restates_shortest (i : Instr) : i.target? = i.lengthen.shorten.target? ∧
    (i.Encodable ∧ Placeable i → i.lengthen.shorten.Encodable ∧ Placeable i.lengthen.shorten) :=
  ⟨(restates_lengthen i).target.trans (restates_shorten _).target,
    fun h => (restates_shorten _).workable ((restates_lengthen i).workable h)⟩

theorem instrsOf_map_shorten (code : List Instr) :
    instrsOf (code.map fun i => i.lengthen.shorten) = (instrsOf code).map fun i => i.lengthen.shorten := by
  rw [instrsOf, List.filter_map]
  exact congrArg (List.map _) (List.filter_congr fun i _ => congrArg not i.isMarker_shorten)

theorem within_shortest (hfits : ∀ i ∈ instrsOf code, i.fits) :
    List.Forall₂ Instr.Within (code.map fun i => i.lengthen.shorten) code := by
  refine List.forall₂_map_left_iff.mpr (List.forall₂_same.mpr fun i hi => ?_)
  obtain ⟨op, arg⟩ := i
  cases op with
  | pseudo op => exact (Instr.Widens.refl _).within
  | final op => exact (Instr.lengthen_spec (hfits _ (List.mem_filter.mpr ⟨hi, rfl⟩))).2

/-- Layout of short forms is a change to short forms, once it is known when the code is settled. -/
theorem shortening_of_assemble {a} (hcode : Workable code) (hfits : ∀ i ∈ instrsOf code, i.fits)
    (hbefore : Linked code → ∃ bound, Settled bound code)
    (h : assemble (code.map fun i => i.lengthen.shorten) = .ok a) :
    ∃ settled bound bound',
      Shortening code settled bound bound' ∧
      a = ⟨(placeFrom 0 settled).flatMap (Layout.bytes bound'), Layout.lines (placeFrom 0 settled)⟩ := by
  obtain ⟨settled, bound', hsettle, hsettled, hwides, hplace, ha⟩ := assemble_settles h
  have hwithin := within_shortest hfits
  have hlinked : Linked code := by
    refine .congr (marks_within hwithin) ?_ ((linked_iff_of_widens hwides).mpr (linked_of_settled hsettled hplace))
    rw [instrsOf_map_shorten, List.map_map]
    exact List.map_congr_left fun i _ => i.restates_shortest.1.symm
  obtain ⟨bound, hbefore⟩ := hbefore hlinked
  rw [List.length_map] at hsettle
  obtain ⟨settled', hsettle', hbelow⟩ := settle_within hbefore (2 * code.length + 1) hwithin
  obtain rfl := Except.ok.inj (hsettle.symm.trans hsettle')
  refine ⟨settled, bound, bound', ⟨hbefore, hcode, hfits, hsettle, hsettled, hwides, hbelow, hplace, ?_⟩, ha⟩
  refine forall₂_mem hwides (fun _ _ => Labelled.widens) fun j hj => ?_
  obtain ⟨i, hi, rfl⟩ := List.mem_map.mp hj
  exact (i.restates_shortest.2 (hcode i hi)).1.labelled

theorem Layout.Settled.nodup_positions (h : Settled bound code) (hplace : ∀ i ∈ code, Placeable i)
    (hlabel : ∀ i ∈ code, Labelled i) :
    (((placeFrom 0 code).filterMap (readBack? bound)).map (·.pos) ++ [Layout.sizeOf code]).Nodup := by
  have hdecode := h.decode hplace hlabel
  have hnodup := Labels.nodup_positions (finished_of_decode hdecode)
  rwa [(isRead_of_decode hdecode).2, length_bytes bound 0 hplace] at hnodup

/-- Both codes are the same program. -/
theorem Shortening.canonical_eq {settled} (h : Shortening code settled bound bound') :
    canonical ((placeFrom 0 settled).filterMap (readBack? bound')) (Layout.sizeOf settled) =
      canonical ((placeFrom 0 code).filterMap (readBack? bound)) (Layout.sizeOf code) := by
  have hlong : ∀ i ∈ instrsOf code, i.lengthen.shorten.lengthen = i.lengthen ∧ i.lengthen.shorten.fits := by
    intro i hi
    have hfits := (Instr.lengthen_spec (h.fits i hi)).1
    exact ⟨Instr.lengthen_shorten i.lengthen_lengthen hfits, Instr.fits_shorten hfits⟩
  have hplace : ∀ i ∈ code, Placeable i := fun i hi => (h.workable i hi).2
  rw [canonical_settled h.widens h.after h.placeable ?_ (h.after.nodup_positions h.placeable h.labelled),
    canonical_settled (List.forall₂_same.mpr fun i _ => .refl i) h.before hplace h.fits
      (h.before.nodup_positions hplace fun i hi => (h.workable i hi).1.labelled),
    instrsOf_map_shorten, List.map_map]
  · refine List.map_congr_left fun i hi => ?_
    rw [Function.comp_apply, (hlong i hi).1]
    congr
    funext l
    rw [number_within (h.widens.imp fun _ _ h => h.within), number_within h.within]
  · rw [instrsOf_map_shorten]
    intro j hj
    obtain ⟨i, hi, rfl⟩ := List.mem_map.mp hj
    exact (hlong i hi).2

theorem fits_labelize {bytes read} (lines : LineTable) (hread : decodeFinal bytes = .ok read) :
    ∀ i ∈ instrsOf ((labelize read lines).map (·.instr)), i.fits := by
  have hcode := finished_of_decode hread
  rw [Labels.labelize_eq lines hcode, Labels.instrsOf_labelled _ lines hcode, List.forall_mem_map]
  exact fun here hhere => Labels.fits_relabel _ ((isRead_of_decode hread).1 here hhere).fits

theorem workable_labelize {bytes read} (lines : LineTable) (hread : decodeFinal bytes = .ok read) :
    Workable ((labelize read lines).map (·.instr)) :=
  Labels.encodable_labelize lines hread fun here hhere =>
    ((isRead_of_decode hread).1 here hhere).encodable ((finished_of_decode hread).opcode? here hhere)

theorem sizeOf_labelize {bytes read} (lines : LineTable) (hread : decodeFinal bytes = .ok read) :
    Layout.sizeOf ((labelize read lines).map (·.instr)) = bytes.length := by
  have hcode := finished_of_decode hread
  rw [Labels.labelize_eq lines hcode, ← (isRead_of_decode hread).2, ← Labels.sizeOf_labelled _ lines hcode,
    Nat.zero_add]

/-- What is done when only short forms are chosen. -/
theorem shortening_of_optimize {bytes lines a} (h : optimize .shortForms bytes lines = .ok a) :
    ∃ read settled bound bound', decodeFinal bytes = .ok read ∧
      Shortening ((labelize read lines).map (·.instr)) settled bound bound' ∧
      (placeFrom 0 ((labelize read lines).map (·.instr))).filterMap (readBack? bound) = read ∧
      Layout.sizeOf ((labelize read lines).map (·.instr)) = bytes.length ∧
      a = ⟨(placeFrom 0 settled).flatMap (Layout.bytes bound'), Layout.lines (placeFrom 0 settled)⟩ := by
  obtain ⟨read, hread, h⟩ := bind_eq_ok.mp h
  dsimp only at h
  rw [optimizeInstrs_shortForms] at h
  have hsettled := fun hlinked => settled_labelize lines hread (jumpsLand_of_linked lines hread hlinked)
  have hworkable := workable_labelize lines hread
  obtain ⟨settled, bound, bound', hshort, ha⟩ := shortening_of_assemble hworkable (fits_labelize lines hread)
    (fun hlinked => (hsettled hlinked).imp fun _ h => h.1) h
  obtain ⟨bound'', hbefore, hback⟩ := hsettled (linked_of_settled hshort.before fun i hi => (hworkable i hi).2)
  obtain rfl : bound = bound'' := Except.ok.inj (hshort.before.binds.symm.trans hbefore.binds)
  exact ⟨read, settled, bound, bound', hread, hshort, hback, sizeOf_labelize lines hread, ha⟩

/-- What is made of finished code when only short forms are chosen is the same program: the same instructions with the
same operands, explicit or implied, and jumps to the same ones. None of them takes more room. -/
theorem canonical_shortForms {bytes : Bytes} {lines : LineTable} {a : Assembled}
    (h : optimize .shortForms bytes lines = .ok a) :
    ∃ read read', decodeFinal bytes = .ok read ∧ decodeFinal a.code = .ok read' ∧
      JumpsLand read bytes.length ∧ JumpsLand read' a.code.length ∧
      canonical read' a.code.length = canonical read bytes.length ∧
      List.Forall₂ (fun here here' => here'.instr.size ≤ here.instr.size) read read' := by
  obtain ⟨read, settled, bound, bound', hread, hshort, hback, hsize, rfl⟩ := shortening_of_optimize h
  have hplace := fun i hi => (hshort.workable i hi).2
  have hland := jumpsLand_of_settled hshort.before hplace fun i hi => (hshort.workable i hi).1.labelled
  have hsame := hshort.canonical_eq
  have hsizes := sizes_within bound' bound hshort.within hshort.placeable hplace 0 0
  rw [hback, hsize] at hland hsame
  rw [hback] at hsizes
  have hlength := length_bytes bound' 0 hshort.placeable
  refine ⟨read, _, hread, hshort.after.decode hshort.placeable hshort.labelled, hland, ?_, ?_, hsizes⟩
  · exact hlength ▸ jumpsLand_of_settled hshort.after hshort.placeable hshort.labelled
  · exact hlength ▸ hsame

/-- A number and a branch in their long forms. -/
def longBranch : Bytes :=
  [Opcode.pushI32.byte.toUInt8, 0, 2, 0, 0, Opcode.ifFalse.byte.toUInt8, 5, 0, 0, 0, Opcode.undefined.byte.toUInt8,
    Opcode.returnUndef.byte.toUInt8]

theorem optimize_longBranch : optimize .shortForms longBranch [⟨5, 2⟩] = .ok ⟨[Opcode.pushI16.byte.toUInt8, 0, 2,
    Opcode.ifFalse8.byte.toUInt8, 2, Opcode.undefined.byte.toUInt8, Opcode.returnUndef.byte.toUInt8], [⟨3, 2⟩]⟩ := by
  decide +kernel

theorem canonical_longBranch : ∃ a read read', optimize .shortForms longBranch [⟨5, 2⟩] = .ok a ∧
    decodeFinal longBranch = .ok read ∧ decodeFinal a.code = .ok read' ∧
    JumpsLand read longBranch.length ∧ JumpsLand read' a.code.length ∧
    canonical read' a.code.length = canonical read longBranch.length ∧
    List.Forall₂ (fun here here' => here'.instr.size ≤ here.instr.size) read read' := by
  obtain ⟨read, read', hshort⟩ := canonical_shortForms optimize_longBranch
  exact ⟨_, read, read', optimize_longBranch, hshort⟩

/-! ## Long forms -/

/-- A long form has no wider form. -/
theorem Instr.widest_of_lengthen (h : i.lengthen = i) : i.widest = i := by
  obtain ⟨op, arg⟩ := i
  cases op with
  | pseudo op => rfl
  | final o =>
    unfold widest Opcode.widest
    dsimp only
    split <;> first | rfl | cases h

theorem Labels.lengthen_relabel_of_long (found : List Nat) (h : i.lengthen = i) :
    (relabel found i).lengthen = relabel found i := by
  unfold relabel
  split
  · rw [Operand.withLabel_eq]
    exact (i.lengthen_mapLabel _).trans (congrArg _ h)
  · exact h

/-- Optimizing makes code in long forms no longer, whatever passes are on. -/
theorem length_optimize_le {c : OptimizerConfig} {bytes : Bytes} {lines : LineTable} {read : List Located}
    {a : Assembled} (hread : decodeFinal bytes = .ok read) (hlong : ∀ here ∈ read, here.instr.lengthen = here.instr)
    (h : optimize c bytes lines = .ok a) : a.code.length ≤ bytes.length := by
  obtain ⟨read', hread', h⟩ := bind_eq_ok.mp h
  cases hread.symm.trans hread'
  have hworkable := workable_labelize lines hread
  have hsize := sizeOf_labelize lines hread
  have hsame : ∀ i ∈ (labelize read lines).map (·.instr), i.lengthen = i := by
    intro i hi
    rcases Labels.mem_labelize hi with ⟨l, rfl⟩ | ⟨n, rfl⟩ | ⟨here, hhere, rfl⟩
    · rfl
    · rfl
    · exact Labels.lengthen_relabel_of_long _ (hlong here hhere)
  dsimp only at h
  generalize (labelize read lines).map (·.instr) = code at *
  have hworkable' : Workable (optimizeInstrs c code) :=
    Optimizer.survives_optimizeInstrs Threading.survives_workable c hworkable
  obtain ⟨settled, -, hwides, -, -, hlength, -⟩ := assemble_eq_ok h fun i hi => (hworkable' i hi).1.labelled
  have hmap : ∀ {f : Instr → Instr}, (∀ i ∈ code, f i = i) → code.map f = code := fun h =>
    (List.map_congr_left h).trans (List.map_id' code)
  calc a.code.length = Layout.sizeOf settled := hlength
    _ ≤ Layout.sizeOf (settled.map Instr.widest) := sizeOf_le_widest settled
    _ = weight (optimizeInstrs c code) := by rw [← widest_eq_of_widens hwides, sizeOf_widest]
    _ ≤ weight (code.map Instr.lengthen) := (Optimizer.lightens_optimizeInstrs c code).weight
    _ = Layout.sizeOf code := by
      rw [hmap hsame, ← sizeOf_widest, hmap fun i hi => Instr.widest_of_lengthen (hsame i hi)]
    _ = bytes.length := hsize

end ScriptBytecode
