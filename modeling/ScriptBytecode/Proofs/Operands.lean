import ScriptBytecode.Optimizer.ShortForm
import ScriptBytecode.Proofs.Assembly

/-!
# What operands refer to

An operand may name a variable, an argument, a captured variable or a constant of its function, and an atom.
What an instruction refers to is the same in its long and its short forms, and it is read back from finished code as
long as the index fits its field.
-/

namespace ScriptBytecode

variable {n : Int}

/-- The tables of a function that operands hold indices of. Functions are those constants that are made closures of. -/
inductive Table where
  | vars | args | closureVars | constants | functions
deriving DecidableEq

/-- The table that the operand of an opcode holds an index of. -/
def Opcode.table? (o : Opcode) : Option Table :=
  match o.format with
  | .loc | .loc8 | .impliedLoc => some .vars
  | .arg | .impliedArg => some .args
  | .varRef | .impliedVarRef => some .closureVars
  | .const | .const8 => some (if o.longForm.1 = .fclosure then .functions else .constants)
  | .atomU16 =>
    match o with
    | .makeLocRef => some .vars
    | .makeArgRef => some .args
    | .makeVarRefRef => some .closureVars
    | _ => none
  | _ => none

/-- Indices below this one fit the field of the format. -/
def Format.limit : Format → Nat
  | .loc8 | .const8 => 0x100
  | .const => 0x80000000
  | _ => 0x10000

/-- The index that an instruction holds, in its operand or implied by its opcode. -/
def Instr.index? (i : Instr) : Option Int :=
  (i.opcode?.bind (·.longForm.2)).or i.arg.int?

/-- What instructions may refer to: entries of those tables that are looked at, and atoms. Two atoms have opcodes of
their own. -/
structure Referents where
  views : Table → Prop
  entry : Table → Nat → Prop
  atom : Atom → Prop
  length : atom .length
  emptyString : atom .emptyString

/-- An instruction that refers to nothing else. -/
structure Instr.Refers (R : Referents) (i : Instr) : Prop where
  entry : ∀ {o : Opcode} {t : Table}, i.opcode? = some o → o.table? = some t → R.views t →
    ∃ n : Nat, i.index? = some (n : Int) ∧ n < o.format.limit ∧ R.entry t n
  atom : ∀ {o : Opcode}, i.opcode? = some o → o.format.hasAtom = true → R.atom i.arg.handle

variable {R : Referents}

variable {o : Opcode} {i : Instr} {arg : Operand}

namespace Instr

theorem refers_of_pseudo (h : i.opcode? = none) : i.Refers R :=
  ⟨fun ho => (nomatch h.symm.trans ho), fun ho => nomatch h.symm.trans ho⟩

/-- Opcodes without tables and atoms. -/
theorem refers_of_closed (htable : o.table? = none) (hatom : o.format.hasAtom = false) (arg : Operand) :
    (Instr.of o arg).Refers R where
  entry := by
    intro o' t ho ht
    cases ho
    cases htable.symm.trans ht
  atom := by
    intro o' ho ha
    cases ho
    cases hatom.symm.trans ha

@[simp] theorem index?_of (o : Opcode) (arg : Operand) : (Instr.of o arg).index? = o.longForm.2.or arg.int? := rfl

/-- An instruction is written in another way that holds the same index. -/
theorem Refers.restate {o' : Opcode} {arg' : Operand} (h : (Instr.of o arg).Refers R) (htable : o'.table? = o.table?)
    (hindex : ∀ n : Nat, o'.table?.isSome → o.longForm.2.or arg.int? = some (n : Int) → n < o.format.limit →
      o'.longForm.2.or arg'.int? = some (n : Int) ∧ n < o'.format.limit)
    (hatom : o'.format.hasAtom → o.format.hasAtom ∧ arg' = arg) : (Instr.of o' arg').Refers R where
  entry := by
    intro _ t ho ht hviews
    cases ho
    obtain ⟨n, hn, hlt, hentry⟩ := h.entry rfl (htable.symm.trans ht) hviews
    obtain ⟨hn', hlt'⟩ := hindex n (Option.isSome_of_eq_some ht) hn hlt
    exact ⟨n, hn', hlt', hentry⟩
  atom := by
    intro _ ho ha
    cases ho
    obtain ⟨ha, rfl⟩ := hatom ha
    exact h.atom rfl ha

end Instr

/-! ## Long and short forms -/

namespace Opcode

theorem longForm_longForm (o : Opcode) : o.longForm.1.longForm = (o.longForm.1, none) := by
  cases o <;> rfl

theorem table?_longForm (o : Opcode) : o.longForm.1.table? = o.table? := by
  cases o <;> rfl

theorem limit_le_longForm (o : Opcode) : o.format.limit ≤ o.longForm.1.format.limit := by
  cases o <;> decide

/-- Two opcodes imply an atom; no other long form has an atom that the opcode has not. -/
theorem hasAtom_longForm (hlength : o ≠ .getLength) (hempty : o ≠ .pushEmptyString)
    (h : o.longForm.1.format.hasAtom) : o.format.hasAtom ∧ o.longForm.2 = none := by
  revert hlength hempty h
  cases o <;> decide

theorem limit_of_implied (h : o.longForm.2.isSome) :
    o.longForm.1.format.limit ≤ o.format.limit ∧ o.format.hasAtom = false := by
  revert h
  cases o <;> decide

end Opcode

/-- The long form of an instruction: two opcodes imply an atom, others a number or nothing. -/
theorem Instr.lengthen_cases (o : Opcode) (arg : Operand) :
    o = .getLength ∧ lengthen ⟨.final o, arg⟩ = .of .getField (.atom .length) ∨
    o = .pushEmptyString ∧ lengthen ⟨.final o, arg⟩ = .of .pushAtomValue (.atom .emptyString) ∨
    o ≠ .getLength ∧ o ≠ .pushEmptyString ∧
      lengthen ⟨.final o, arg⟩ = .of o.longForm.1 (o.longForm.2.elim arg .int) := by
  unfold lengthen
  dsimp only
  split
  · rename_i heq
    cases heq
  · rename_i heq
    exact .inl ⟨Op.final.inj heq, rfl⟩
  · rename_i heq
    exact .inr (.inl ⟨Op.final.inj heq, rfl⟩)
  · rename_i o' hlength hempty heq
    cases heq
    refine .inr (.inr ⟨fun h => hlength (h ▸ rfl), fun h => hempty (h ▸ rfl), ?_⟩)
    split <;> rename_i heq <;> rw [heq] <;> rfl

theorem Instr.refers_lengthen (h : i.Refers R) : i.lengthen.Refers R := by
  obtain ⟨op, arg⟩ := i
  cases op with
  | pseudo op => exact h
  | final o =>
    rcases lengthen_cases o arg with ⟨-, heq⟩ | ⟨-, heq⟩ | ⟨hlength, hempty, heq⟩
    · rw [heq]
      exact ⟨fun ho ht => (by cases ho; cases ht), fun _ _ => R.length⟩
    · rw [heq]
      exact ⟨fun ho ht => (by cases ho; cases ht), fun _ _ => R.emptyString⟩
    · -- an operand that is implied is written out, any other stays
      rw [heq]
      refine Refers.restate h o.table?_longForm (fun n _ hn hlt => ?_) fun ha => ?_
      · refine ⟨?_, hlt.trans_le o.limit_le_longForm⟩
        rw [o.longForm_longForm, Option.none_or, ← hn]
        cases o.longForm.2 <;> rfl
      · obtain ⟨hatom, hsame⟩ := Opcode.hasAtom_longForm hlength hempty ha
        rw [hsame]
        exact ⟨hatom, rfl⟩

variable {j : Instr}

namespace ShortForm

/-- What a short form can be: one with a narrower field for the same operand, one that implies the number, or one
that implies the name. -/
inductive Shortens (o : Opcode) : Operand → Instr → Prop
  | narrow {short : Opcode} {arg : Operand} (long : short.longForm = (o, none)) (noAtom : short.format.hasAtom = false)
      (fits : ∀ n : Nat, arg.int? = some (n : Int) → short.table?.isSome = true → n < short.format.limit)
      (suits : o.format.shape.fits arg = true → short.format.shape.fits arg = true) : Shortens o arg (.of short arg)
  | implied {short : Opcode} {n : Int} (long : short.longForm = (o, some n)) : Shortens o (.int n) (.plain short)
  | emptyString (isPush : o = .pushAtomValue) : Shortens o (.atom .emptyString) (.plain .pushEmptyString)
  | length (isGet : o = .getField) : Shortens o (.atom .length) (.plain .getLength)

theorem shortens_implied? {first : Opcode} {k}
    (hall : (List.range (k + 1)).all (fun m => (first.plus? m).all (·.longForm == (o, some (m : Int)))))
    (hn : 0 ≤ n && n ≤ k) (h : implied? first n = some j) : Shortens o (.int n) j := by
  obtain ⟨short, hshort, rfl⟩ := Option.map_eq_some_iff.mp h
  simp only [Bool.and_eq_true, decide_eq_true_eq] at hn
  have hmem : n.toNat ∈ List.range (k + 1) := List.mem_range.mpr (by omega)
  have hlong := List.all_eq_true.mp hall _ hmem
  rw [hshort, Option.all_some, beq_iff_eq, Int.toNat_of_nonneg hn.1] at hlong
  exact .implied hlong

/-- A field of one byte. -/
theorem shortens_byte {short : Opcode} (hlong : short.longForm = (o, none)) (hatom : short.format.hasAtom = false)
    (hlimit : short.format.limit = 0x100) (hshape : short.format.shape = .int false 1)
    (hn : 0 ≤ n && n ≤ 255) : Shortens o (.int n) (.of short (.int n)) := by
  simp only [Bool.and_eq_true, decide_eq_true_eq] at hn
  refine .narrow hlong hatom (fun m hm _ => ?_) fun _ => ?_
  · obtain rfl : n = (m : Int) := by simpa [Operand.int?] using hm
    omega
  · simp only [hshape, Shape.fits, Bool.and_eq_true, decide_eq_true_eq]
    exact ⟨hn.1, Int.lt_of_le_of_lt hn.2 (by decide)⟩

theorem shortens_ofInt? (h : ofInt? o n = some j) : Shortens o (.int n) j := by
  unfold ofInt? at h
  dsimp only at h
  split at h
  case h_1 =>
    have hnarrow : ∀ {short : Opcode}, short.longForm = (.pushI32, none) → short.format.hasAtom = false →
        short.table? = none → some (Instr.of short (.int n)) = some j → short.format.shape.fits (.int n) = true →
        Shortens .pushI32 (.int n) j := by
      intro short hlong hatom htable heq hfits
      cases heq
      refine .narrow hlong hatom (fun m _ ht => ?_) fun _ => hfits
      rw [htable] at ht
      cases ht
    split at h
    · rename_i hn
      cases h
      exact hn ▸ .implied rfl
    · split at h
      · rename_i hn
        exact shortens_implied? (k := 7) (by decide) hn h
      · split at h
        · rename_i hn
          exact hnarrow rfl rfl rfl h hn
        · split at h
          · rename_i hn
            exact hnarrow rfl rfl rfl h hn
          · cases h
  case h_14 => cases h
  -- constants have a form with one byte, slots one for each of the first numbers
  case h_2 | h_3 =>
    split at h
    · rename_i hn
      cases h
      exact shortens_byte rfl rfl rfl rfl hn
    · cases h
  case h_4 | h_5 | h_6 =>
    split at h
    · rename_i hn
      exact shortens_implied? (k := 3) (by decide) hn h
    · split at h
      · rename_i hn
        cases h
        exact shortens_byte rfl rfl rfl rfl hn
      · cases h
  all_goals
    split at h
    · rename_i hn
      exact shortens_implied? (k := 3) (by decide) hn h
    · cases h

theorem shortens_of_find? (h : find? o arg = some j) : Shortens o arg j := by
  unfold find? at h
  split at h
  case h_4 | h_5 =>
    split at h
    · rename_i ha
      subst ha
      cases h
      first | exact .emptyString rfl | exact .length rfl
    · cases h
  case h_6 => exact shortens_ofInt? h
  case h_7 => cases h
  all_goals
    cases h
    exact .narrow rfl rfl nofun fun h => by cases arg <;> first | rfl | cases h

end ShortForm

theorem Instr.shorten_cases (o : Opcode) (arg : Operand) :
    shorten ⟨.final o, arg⟩ = ⟨.final o, arg⟩ ∨ ShortForm.Shortens o arg (shorten ⟨.final o, arg⟩) := by
  show (ShortForm.find? o arg).getD ⟨.final o, arg⟩ = _ ∨ ShortForm.Shortens o arg ((ShortForm.find? o arg).getD _)
  cases hfind : ShortForm.find? o arg with
  | none => exact .inl rfl
  | some j => exact .inr (ShortForm.shortens_of_find? hfind)

theorem Instr.refers_shorten (h : i.Refers R) : i.shorten.Refers R := by
  obtain ⟨op, arg⟩ := i
  cases op with
  | pseudo op => exact h
  | final o =>
    rcases shorten_cases o arg with heq | hshort
    · rwa [heq]
    · generalize shorten ⟨.final o, arg⟩ = j at hshort ⊢
      cases hshort with
      | @narrow short _ long noAtom fits =>
        have htable := short.table?_longForm
        have hlong := short.longForm_longForm
        rw [long] at htable hlong
        refine Refers.restate h htable.symm (fun n ht hn _ => ?_) fun ha => nomatch noAtom.symm.trans ha
        rw [hlong, Option.none_or] at hn
        exact ⟨by rw [long, Option.none_or, hn], fits n hn ht⟩
      | @implied short n long =>
        have htable := short.table?_longForm
        have hlong := short.longForm_longForm
        obtain ⟨hlimit, hatom⟩ := Opcode.limit_of_implied (o := short) (by rw [long, Option.isSome_some])
        rw [long] at htable hlong hlimit
        refine Refers.restate h htable.symm (fun m _ hm hlt => ?_) fun ha => nomatch hatom.symm.trans ha
        rw [hlong, Option.none_or] at hm
        exact ⟨by rw [long]; exact hm, hlt.trans_le hlimit⟩
      | emptyString => exact refers_of_closed rfl rfl _
      | length => exact refers_of_closed rfl rfl _

/-! ## Finished code -/

theorem Opcode.format_of_table? (htable : o.table?.isSome) (himplied : o.longForm.2 = none) :
    o.format ∈ [.loc, .loc8, .arg, .varRef, .const, .const8, .atomU16] := by
  revert htable himplied
  cases o <;> decide

/-- An index that fits its field is read back. -/
theorem Opcode.int?_readBack {n : Nat} (htable : o.table?.isSome) (himplied : o.longForm.2 = none)
    (hn : arg.int? = some (n : Int)) (hlt : n < o.format.limit) (target : Nat) :
    (o.format.shape.readBack arg target).int? = some (n : Int) := by
  have hnumber : ∀ w, n < Nat.pow 2 (8 * w) → arg.number w = n := by
    intro w hw
    rw [Operand.number, hn, Option.getD_some, unsignedWord_natCast hw]
  have hunsigned : ∀ w, n < Nat.pow 2 (8 * w) → ((Shape.int false w).readBack arg target).int? = some (n : Int) := by
    intro w hw
    simp [Shape.readBack, Operand.int?, hnumber w hw]
  have hformat := o.format_of_table? htable himplied
  generalize o.format = f at hformat hlt
  simp only [List.mem_cons, List.not_mem_nil, or_false] at hformat
  rcases hformat with rfl | rfl | rfl | rfl | rfl | rfl | rfl
  · exact hunsigned 2 hlt
  · exact hunsigned 1 hlt
  · exact hunsigned 2 hlt
  · exact hunsigned 2 hlt
  · have hword : signedWord (8 * 4) n = n := if_pos hlt
    have hnumber := hnumber 4 (hlt.trans (by decide))
    simp only [Format.shape, Shape.readBack, if_true, hnumber, hword]
    rfl
  · exact hunsigned 1 hlt
  · have hword : signedWord 32 n = n := if_pos (hlt.trans (by decide))
    simp only [Format.shape, Shape.readBack, hnumber 2 hlt, Operand.int?, hword]

theorem Operand.handle_lt (arg : Operand) : arg.handle.id < Nat.pow 256 4 :=
  Nat.mod_lt _ (by decide)

/-- An atom is read back as its handle. -/
theorem Shape.handle_readBack {shape : Shape} (h : shape.hasAtom) (arg : Operand) (target : Nat) :
    (shape.readBack arg target).handle = arg.handle := by
  have hsame : ∀ {arg' : Operand}, arg'.atom? = some arg.handle → arg'.handle = arg.handle :=
    fun h => Operand.handle_of_lt _ h arg.handle_lt
  cases shape <;> first | exact hsame rfl | cases h

namespace Instr

/-- What is read back refers to the same. -/
theorem Refers.readBack (h : (Instr.of o arg).Refers R) (target : Nat) :
    (Instr.of o (o.format.shape.readBack arg target)).Refers R where
  entry := by
    intro _ t ho ht hviews
    cases ho
    obtain ⟨n, hn, hlt, hentry⟩ := h.entry rfl ht hviews
    refine ⟨n, ?_, hlt, hentry⟩
    rw [index?_of] at hn ⊢
    cases himplied : o.longForm.2 with
    | some m => rwa [himplied] at hn
    | none =>
      rw [himplied, Option.none_or] at hn
      exact Opcode.int?_readBack (Option.isSome_of_eq_some ht) himplied hn hlt target
  atom := by
    intro _ ho ha
    cases ho
    exact Shape.handle_readBack ha arg target ▸ h.atom rfl ha

/-- Forms that can be widened refer to nothing but their label. -/
theorem refers_of_wider? {o'} (h : o.wider? = some o') (arg : Operand) : (Instr.of o' arg).Refers R := by
  unfold Opcode.wider? at h
  split at h <;> cases h <;> exact refers_of_closed rfl rfl arg

theorem Refers.widens (h : i.Refers R) (hwiden : i.Widens j) : j.Refers R := by
  cases hwiden with
  | refl => exact h
  | @wider o o' hop arg =>
    induction hop with
    | refl => exact h
    | step head _ ih => exact ih (refers_of_wider? head arg)

end Instr

end ScriptBytecode
