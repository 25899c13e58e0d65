import ScriptBytecode.Instr.Codec
import ScriptBytecode.Proofs.Result
import ScriptBytecode.Proofs.Word

/-!
# Instructions, read back

What is read where an instruction was written: the same opcode, the operand as far as its fields have
room for it, and in place of a distance the target that it leads to. `Decode.Reads` is the decoder as a
relation, one instruction after the other.
-/

namespace ScriptBytecode

variable {total pos w word target : Nat} {bytes rest : Bytes} {phase : Phase}

namespace Opcode

theorem byte_lt (op : Opcode) : op.byte < count := by
  cases op <;> decide

theorem ofByte?_byte (op : Opcode) : ofByte? op.byte = some op := by
  rw [ofByte?, if_pos (byte_lt op), byte, ofNat_ctorIdx]

theorem toNat_byte (op : Opcode) : op.byte.toUInt8.toNat = op.byte := by
  have h : op.byte < 245 := byte_lt op
  simp
  omega

theorem byte_of_ofByte? {op n} (h : ofByte? n = some op) : op.byte = n := by
  unfold ofByte? at h
  split at h
  · cases h
    have hall : ∀ n < count, byte (Opcode.ofNat n) = n := by decide +kernel
    exact hall n ‹_›
  · cases h

end Opcode

theorem Pseudo.byte_of_ofByte? {op n} (h : ofByte? n = some op) : op.byte = n := by
  unfold ofByte? at h
  split at h
  · rename_i hn
    simp only [Bool.and_eq_true, decide_eq_true_eq] at hn
    have hall : ∀ k < count, (Pseudo.ofNat k).ctorIdx = k := by decide +kernel
    rw [← Option.some.inj h, byte, hall _ (by omega)]
    omega
  · cases h

/-- Short forms do not occur in code under construction. -/
def Op.isRaw : Op → Bool
  | .final op => !op.isShort
  | .pseudo _ => true

/-- The label fields of code under construction have four bytes. -/
theorem Op.labelWidth_of_isRaw {op : Op} (h : op.isRaw) : op.format.shape.labelWidth = 4 := by
  cases op with
  | final op => cases op <;> first | rfl | exact nomatch h
  | pseudo op => cases op <;> rfl

/-- The number that a field of `w` bytes holds for an operand. -/
def Operand.number (arg : Operand) (w : Nat) : Nat :=
  unsignedWord (8 * w) (arg.int?.getD 0)

/-- The atom that a field of four bytes holds for an operand. -/
def Operand.handle (arg : Operand) : Atom :=
  ⟨arg.atom?.elim 0 (·.id) % Nat.pow 256 4⟩

/-- The operand that is read where `arg` was written, if its label field leads to `target`. -/
def Shape.readBack (arg : Operand) (target : Nat) : Shape → Operand
  | .empty => .none
  | .int signed w => .int (if signed then signedWord (8 * w) (arg.number w) else arg.number w)
  | .intPair =>
    match arg with
    | .intPair a b => .intPair (a % Nat.pow 256 2) (b % Nat.pow 256 2)
    | _ => .intPair 0 0
  | .atom => .atom arg.handle
  | .atomInt w => .atomInt arg.handle (arg.number w)
  | .label _ => .label target
  | .atomLabel w => .atomLabel arg.handle target (arg.number w)
  | .labelInt w => .labelInt target (arg.number w)

theorem Shape.length_encode (shape : Shape) (arg : Operand) (word : Nat) :
    (shape.encode arg word).length = shape.size := by
  cases shape with
  | intPair => cases arg <;> simp [encode, size]
  | _ => simp [encode, size, encode.number, encode.handle] <;> omega

theorem Instr.length_encode (i : Instr) (word : Nat) : (i.encode word).length = 1 + i.op.format.operandSize := by
  rw [encode, List.length_cons, Shape.length_encode, Nat.add_comm]
  rfl

/-! ## Operands that suit their opcodes -/

/-- Does an operand have the kind of a shape, and its numbers the range? -/
def Shape.fits : Shape → Operand → Bool
  | .empty, .none => true
  | .int false w, .int n => 0 ≤ n && n < Nat.pow 256 w
  | .int true w, .int n => fitsSigned (8 * w) n
  | .intPair, .intPair a b => a < Nat.pow 256 2 && b < Nat.pow 256 2
  | .atom, .atom a => a.id < Nat.pow 256 4
  | .atomInt w, .atomInt a n => a.id < Nat.pow 256 4 && n < Nat.pow 256 w
  | .label _, .label _ => true
  | .atomLabel w, .atomLabel a _ n => a.id < Nat.pow 256 4 && n < Nat.pow 256 w
  | .labelInt w, .labelInt _ n => n < Nat.pow 256 w
  | _, _ => false

/-- Does the operand of an instruction suit its opcode? -/
def Instr.fits (i : Instr) : Bool :=
  i.op.format.shape.fits i.arg

open Shape (encode readBack fits labelOffset labelWidth)
open Operand (withLabel number int?)

/-- The width of a shape's number field. -/
def Shape.numberWidth : Shape → Nat
  | .int _ w | .atomInt w | .atomLabel w | .labelInt w => w
  | _ => 0

theorem Format.numberWidth_le (f : Format) : f.shape.numberWidth ≤ 4 := by
  cases f <;> decide

theorem Format.labelWidth_pos (f : Format) : 0 < f.shape.labelWidth := by
  cases f <;> decide

theorem Format.signedWidth_pos (f : Format) (signed : Bool) (w : Nat) (h : f.shape = .int signed w) : 0 < w := by
  cases f <;> cases h <;> decide

theorem Operand.number_of_lt (arg : Operand) {n w : Nat} (harg : arg.int? = some (signedWord 32 n)) (hw : w ≤ 4)
    (hn : n < Nat.pow 256 w) : arg.number w = n := by
  rw [pow_256] at hn
  rw [number, harg, Option.getD_some, unsignedWord_signedWord (by omega) hn]

variable {shape : Shape} {arg : Operand}

theorem Operand.handle_of_lt (arg : Operand) {a} (harg : arg.atom? = some a) (ha : a.id < Nat.pow 256 4) :
    arg.handle = a := by
  rw [handle, harg, Option.elim_some, Nat.mod_eq_of_lt ha]

/-- An operand that suits its opcode is read back as it is, but for its label. -/
theorem Format.readBack_of_fits {f : Format} (target : Nat) (h : f.shape.fits arg) :
    f.shape.readBack arg target = arg.withLabel target := by
  have hwidth := f.numberWidth_le
  have hpos := f.signedWidth_pos
  generalize f.shape = shape at h hwidth hpos
  cases shape with
  | empty => cases arg <;> first | rfl | cases h
  | label w => cases arg <;> first | rfl | cases h
  | int signed w =>
    cases arg with
    | int n =>
      cases signed with
      | true =>
        have hn := signedWord_unsignedWord (Nat.mul_pos (by decide) (hpos true w rfl)) h
        simpa [readBack, number, int?, withLabel] using hn
      | false =>
        simp only [fits, Bool.and_eq_true, decide_eq_true_eq, pow_256] at h
        obtain ⟨m, rfl⟩ := Int.eq_ofNat_of_zero_le h.1
        have hm := unsignedWord_natCast (Int.ofNat_lt.mp h.2)
        simp [readBack, number, int?, withLabel, hm]
    | _ => cases signed <;> cases h
  | intPair =>
    cases arg with
    | intPair a b =>
      simp only [fits, Bool.and_eq_true, decide_eq_true_eq] at h
      simp only [readBack, withLabel, Nat.mod_eq_of_lt h.1, Nat.mod_eq_of_lt h.2]
    | _ => cases h
  | atom =>
    cases arg with
    | atom a =>
      simp only [fits, decide_eq_true_eq] at h
      simp only [readBack, withLabel, Operand.handle_of_lt (.atom a) rfl h]
    | _ => cases h
  | atomInt w =>
    cases arg with
    | atomInt a n =>
      simp only [fits, Bool.and_eq_true, decide_eq_true_eq] at h
      have hn : (Operand.atomInt a n).number w = n := Operand.number_of_lt _ rfl hwidth h.2
      simp only [readBack, withLabel, Operand.handle_of_lt (.atomInt a n) rfl h.1, hn]
    | _ => cases h
  | atomLabel w =>
    cases arg with
    | atomLabel a l n =>
      simp only [fits, Bool.and_eq_true, decide_eq_true_eq] at h
      have hn : (Operand.atomLabel a l n).number w = n := Operand.number_of_lt _ rfl hwidth h.2
      simp only [readBack, withLabel, Operand.handle_of_lt (.atomLabel a l n) rfl h.1, hn]
    | _ => cases h
  | labelInt w =>
    cases arg with
    | labelInt l n =>
      simp only [fits, decide_eq_true_eq] at h
      have hn : (Operand.labelInt l n).number w = n := Operand.number_of_lt _ rfl hwidth h
      simp only [readBack, withLabel, hn]
    | _ => cases h

/-- An operand that suits its opcode names a label if the opcode is a jump, and only then. -/
theorem Shape.isSome_label?_of_fits (h : shape.fits arg) : arg.label?.isSome = shape.hasLabel := by
  cases shape with
  | int signed w => cases signed <;> cases arg <;> first | rfl | cases h
  | _ => cases arg <;> first | rfl | cases h

theorem Operand.withLabel_of_label?_none (h : arg.label? = Option.none) (l : Nat) : arg.withLabel l = arg := by
  cases arg <;> first | rfl | cases h

theorem Operand.withLabel_of_label? {l} (h : arg.label? = some l) : arg.withLabel l = arg := by
  cases arg <;> cases h <;> rfl

namespace Decode

theorem field_leBytes (pos w n : Nat) (rest : Bytes) :
    field pos w (leBytes w n ++ rest) = .ok (n % Nat.pow 256 w, rest) := by
  have htake : (leBytes w n ++ rest).take w = leBytes w n := by simp
  have hdrop : (leBytes w n ++ rest).drop w = rest := by simp
  rw [field, htake, hdrop, length_leBytes, if_pos rfl, ofLeBytes_leBytes]

theorem field_number (pos w : Nat) (arg : Operand) (rest : Bytes) :
    field pos w (encode.number arg w ++ rest) = .ok (arg.number w, rest) := by
  have hlt : arg.number w < Nat.pow 256 w := by
    rw [pow_256]
    exact unsignedWord_lt _ _
  rw [encode.number, field_leBytes, ← number, Nat.mod_eq_of_lt hlt]

theorem field_handle (pos : Nat) (arg : Operand) (rest : Bytes) :
    field pos 4 (encode.handle arg ++ rest) = .ok (arg.handle.id, rest) := by
  rw [encode.handle, field_leBytes]
  rfl

/-- The label field at `pos` with `word` in it leads to `target`, in code of `total` bytes. -/
structure LeadsTo (total pos w word target : Nat) : Prop where
  distance : (pos : Int) + signedWord (8 * w) (word % Nat.pow 256 w) = target
  inside : target ≤ total

theorem LeadsTo.fitsSigned (h : LeadsTo total pos w word target) (hw : 0 < w) :
    fitsSigned (8 * w) ((target : Int) - pos) := by
  have hdistance : (target : Int) - pos = signedWord (8 * w) (word % Nat.pow 256 w) := by
    have := h.distance
    omega
  rw [hdistance, pow_256]
  exact fitsSigned_signedWord (by omega) (Nat.mod_lt _ (Nat.two_pow_pos _))

theorem label_leBytes (start : Nat) (rest : Bytes) (h : LeadsTo total pos w word target) :
    label .final total start pos w (leBytes w word ++ rest) = .ok (target, rest) := by
  have hin := h.inside
  have hnot : ¬((target : Int) < 0 || (total : Int) < target) := by
    simp
    omega
  simp only [label, field_leBytes, bind, Except.bind, h.distance]
  rw [if_neg hnot, Int.toNat_natCast]

/-- An operand is read back from its fields, if its label field is. `pos` is where the fields start. -/
theorem operand_encode_of_label (arg : Operand) (start pos : Nat) (rest : Bytes)
    (h : shape.hasLabel → ∀ rest,
      label phase total start (pos + (shape.labelOffset - 1)) shape.labelWidth (leBytes shape.labelWidth word ++ rest)
      = .ok (target, rest)) :
    operand phase total start pos (shape.encode arg word ++ rest) shape = .ok (shape.readBack arg target, rest) := by
  cases shape with
  | empty => rfl
  | int signed w =>
    simp only [encode, operand, field_number, bind, Except.bind, pure, Except.pure,
      readBack]
  | intPair =>
    cases arg with
    | intPair a b =>
      simp only [encode, operand, List.append_assoc, field_leBytes, bind, Except.bind, pure,
        Except.pure, readBack]
    | _ =>
      have hzero : leBytes 4 0 = leBytes 2 0 ++ leBytes 2 0 := by decide
      simp only [encode, operand, hzero, List.append_assoc, field_leBytes, bind, Except.bind,
        pure, Except.pure, readBack, Nat.zero_mod]
  | atom =>
    simp only [encode, operand, field_handle, bind, Except.bind, pure, Except.pure,
      readBack]
  | atomInt w =>
    simp only [encode, operand, List.append_assoc, field_handle, field_number, bind,
      Except.bind, pure, Except.pure, readBack]
  | label w =>
    have hl := h rfl rest
    simp only [labelOffset, labelWidth, Nat.sub_self, Nat.add_zero] at hl
    simp only [encode, operand, hl, bind, Except.bind, pure, Except.pure, readBack]
  | atomLabel w =>
    have hl := h rfl (encode.number arg w ++ rest)
    simp only [labelOffset, labelWidth, Nat.reduceSub] at hl
    simp only [encode, operand, List.append_assoc, field_handle, hl, field_number, bind,
      Except.bind, pure, Except.pure, readBack]
  | labelInt w =>
    have hl := h rfl (encode.number arg w ++ rest)
    simp only [labelOffset, labelWidth, Nat.sub_self, Nat.add_zero] at hl
    simp only [encode, operand, List.append_assoc, hl, field_number, bind, Except.bind, pure,
      Except.pure, readBack]

/-- In finished code, a label field is read back as the target that it leads to. -/
theorem operand_encode (arg : Operand) (start pos : Nat) (rest : Bytes)
    (h : shape.hasLabel → LeadsTo total (pos + (shape.labelOffset - 1)) shape.labelWidth word target) :
    operand .final total start pos (shape.encode arg word ++ rest) shape
      = .ok (shape.readBack arg target, rest) :=
  operand_encode_of_label arg start pos rest fun hlabel rest => label_leBytes start rest (h hlabel)

/-- An instruction of finished code is read back from its bytes. -/
theorem instr_encode {op : Opcode} (arg : Operand) (rest : Bytes)
    (h : op.isJump → LeadsTo total (pos + op.format.shape.labelOffset) op.format.shape.labelWidth word target) :
    instr .final total pos op.byte.toUInt8 (op.format.shape.encode arg word ++ rest) =
      .ok (⟨.final op, op.format.shape.readBack arg target⟩, rest) := by
  have hop : opcode .final op.byte.toUInt8.toNat = some (.final op) := by
    rw [opcode, Op.ofFinalByte?, Opcode.toNat_byte, Opcode.ofByte?_byte]
    rfl
  have hpos : pos + 1 + (op.format.shape.labelOffset - 1) = pos + op.format.shape.labelOffset := by
    cases op.format.shape <;> simp [labelOffset]
  have harg := operand_encode arg pos (pos + 1) rest (hpos ▸ h)
  simp only [instr, hop, Op.format, Op.info]
  rw [show op.info.format = op.format from rfl, harg]
  rfl

/-! ## The decoder as a relation -/

/-- From offset `pos` on, `bytes` are the instructions of the list and nothing else. -/
inductive Reads (phase : Phase) (total : Nat) : Nat → Bytes → List Located → Prop
  | nil (pos : Nat) : Reads phase total pos [] []
  | cons {pos : Nat} {b : UInt8} {bytes rest : Bytes} {i : Instr} {code : List Located}
      (head : instr phase total pos b bytes = .ok (i, rest))
      (tail : Reads phase total (pos + 1 + i.op.format.operandSize) rest code) :
      Reads phase total pos (b :: bytes) (⟨pos, i⟩ :: code)

theorem field_eq_ok {n} :
    field pos w bytes = .ok (n, rest) ↔
      ∃ used, used.length = w ∧ ofLeBytes used = n ∧ bytes = used ++ rest := by
  unfold field
  constructor
  · intro h
    split at h
    · rename_i hw
      cases h
      exact ⟨bytes.take w, hw, rfl, (List.take_append_drop w bytes).symm⟩
    · cases h
  · rintro ⟨used, rfl, rfl, rfl⟩
    simp

/-- What a label field of `w` bytes at `pos` holds: a label, or the distance to a target. -/
def labelWord (phase : Phase) (pos w l : Nat) : Nat :=
  match phase with
  | .raw => l
  | .final => unsignedWord (8 * w) ((l : Int) - pos)

theorem field_bounds {n} (h : field pos w bytes = .ok (n, rest)) :
    n < Nat.pow 256 w ∧ bytes = leBytes w n ++ rest := by
  obtain ⟨used, rfl, rfl, rfl⟩ := field_eq_ok.mp h
  exact ⟨ofLeBytes_lt used, by rw [leBytes_ofLeBytes]⟩

theorem label_bounds {start l} (hraw : phase = .raw → w = 4)
    (h : label phase total start pos w bytes = .ok (l, rest)) :
    bytes = leBytes w (labelWord phase pos w l) ++ rest ∧
      (phase = .final → LeadsTo total pos w (labelWord phase pos w l) l) := by
  cases phase with
  | raw =>
    obtain rfl := hraw rfl
    exact ⟨(field_bounds h).2, nofun⟩
  | final =>
    obtain ⟨⟨n, rest'⟩, hn, h⟩ := bind_eq_ok.mp h
    obtain ⟨hlt, hbytes⟩ := field_bounds hn
    have hmod := Nat.mod_eq_of_lt hlt
    rw [pow_256] at hlt
    dsimp only at h
    split at h
    · cases h
    · rename_i hinside
      cases h
      simp only [Bool.or_eq_true, decide_eq_true_eq, not_or, Int.not_lt] at hinside
      have hdistance : ((pos + signedWord (8 * w) n).toNat : Int) - pos = signedWord (8 * w) n := by omega
      rw [labelWord, hdistance, unsignedWord_signedWord le_rfl hlt]
      refine ⟨hbytes, fun _ => ⟨?_, by omega⟩⟩
      rw [hmod]
      omega

theorem encode_number (arg : Operand) {n} (harg : arg.int? = some (signedWord 32 n)) (hn : n < Nat.pow 256 w)
    (hw : w ≤ 4) : encode.number arg w = leBytes w n :=
  congrArg (leBytes w) (arg.number_of_lt harg hw hn)

/-- What is read from the fields of a format: an operand that suits it and is written in these bytes. -/
theorem operand_bounds {f : Format} {start arg} (hraw : phase = .raw → f.shape.labelWidth = 4)
    (h : operand phase total start pos bytes f.shape = .ok (arg, rest)) :
    f.shape.fits arg ∧ bytes = f.shape.encode arg
        (labelWord phase (pos + (f.shape.labelOffset - 1)) f.shape.labelWidth (arg.label?.getD 0)) ++ rest ∧
      (phase = .final → ∀ t, arg.label? = some t → LeadsTo total (pos + (f.shape.labelOffset - 1)) f.shape.labelWidth
        (labelWord phase (pos + (f.shape.labelOffset - 1)) f.shape.labelWidth t) t) := by
  have hnumber := f.numberWidth_le
  have hpos := f.signedWidth_pos
  have hlabel := f.labelWidth_pos
  generalize f.shape = shape at h hnumber hpos hlabel hraw ⊢
  cases shape with
  | empty =>
    cases h
    exact ⟨rfl, rfl, nofun⟩
  | int signed w =>
    obtain ⟨⟨n, rest'⟩, hn, h⟩ := bind_eq_ok.mp h
    cases h
    obtain ⟨hlt, rfl⟩ := field_bounds hn
    have hlt' := pow_256 w ▸ hlt
    cases signed with
    | true =>
      refine ⟨fitsSigned_signedWord (Nat.mul_pos (by decide) (hpos true w rfl)) hlt', ?_, nofun⟩
      simp [encode, encode.number, int?, unsignedWord_signedWord le_rfl hlt']
    | false =>
      refine ⟨?_, ?_, nofun⟩
      · simp only [Bool.false_eq_true, if_false, fits, Bool.and_eq_true, decide_eq_true_eq]
        exact ⟨Int.natCast_nonneg n, Int.ofNat_lt.mpr hlt⟩
      · simp [encode, encode.number, int?, unsignedWord_natCast hlt']
  | intPair =>
    obtain ⟨⟨a, rest'⟩, ha, h⟩ := bind_eq_ok.mp h
    obtain ⟨⟨b, rest''⟩, hb, h⟩ := bind_eq_ok.mp h
    cases h
    obtain ⟨ha', rfl⟩ := field_bounds ha
    obtain ⟨hb', rfl⟩ := field_bounds hb
    exact ⟨by simpa [fits] using ⟨ha', hb'⟩, by simp [encode], nofun⟩
  | atom =>
    obtain ⟨⟨a, rest'⟩, ha, h⟩ := bind_eq_ok.mp h
    cases h
    obtain ⟨ha', rfl⟩ := field_bounds ha
    exact ⟨decide_eq_true ha', rfl, nofun⟩
  | atomInt w =>
    obtain ⟨⟨a, rest'⟩, ha, h⟩ := bind_eq_ok.mp h
    obtain ⟨⟨n, rest''⟩, hn, h⟩ := bind_eq_ok.mp h
    cases h
    obtain ⟨ha', rfl⟩ := field_bounds ha
    obtain ⟨hn', rfl⟩ := field_bounds hn
    refine ⟨by simpa [fits] using ⟨ha', hn'⟩, ?_, nofun⟩
    rw [encode, encode_number (.atomInt ⟨a⟩ n) rfl hn' hnumber, List.append_assoc]
    rfl
  | label w =>
    obtain ⟨⟨l, rest'⟩, hl, h⟩ := bind_eq_ok.mp h
    cases h
    obtain ⟨rfl, hreach⟩ := label_bounds hraw hl
    refine ⟨rfl, rfl, fun hfinal t ht => ?_⟩
    cases ht
    exact hreach hfinal
  | atomLabel w =>
    obtain ⟨⟨a, rest'⟩, ha, h⟩ := bind_eq_ok.mp h
    obtain ⟨⟨l, rest''⟩, hl, h⟩ := bind_eq_ok.mp h
    obtain ⟨⟨n, rest₃⟩, hn, h⟩ := bind_eq_ok.mp h
    cases h
    obtain ⟨ha', rfl⟩ := field_bounds ha
    obtain ⟨rfl, hreach⟩ := label_bounds hraw hl
    obtain ⟨hn', rfl⟩ := field_bounds hn
    refine ⟨by simpa [fits] using ⟨ha', hn'⟩, ?_, fun hfinal t ht => ?_⟩
    · rw [encode, encode_number (.atomLabel ⟨a⟩ l n) rfl hn' hnumber, List.append_assoc, List.append_assoc]
      rfl
    · cases ht
      exact hreach hfinal
  | labelInt w =>
    obtain ⟨⟨l, rest'⟩, hl, h⟩ := bind_eq_ok.mp h
    obtain ⟨⟨n, rest''⟩, hn, h⟩ := bind_eq_ok.mp h
    cases h
    obtain ⟨rfl, hreach⟩ := label_bounds hraw hl
    obtain ⟨hn', rfl⟩ := field_bounds hn
    refine ⟨decide_eq_true hn', ?_, fun hfinal t ht => ?_⟩
    · rw [encode, encode_number (.labelInt l n) rfl hn' hnumber, List.append_assoc]
      rfl
    · cases ht
      exact hreach hfinal

theorem opcode_eq_some {n op} (h : opcode phase n = some op) : op.byte = n ∧ (phase = .raw → op.isRaw) := by
  have hfinal : ∀ m, Op.ofFinalByte? m = some op → op.byte = m ∧ (m < Pseudo.firstByte → op.isRaw) := by
    intro m hm
    obtain ⟨op, hop, rfl⟩ := Option.map_eq_some_iff.mp hm
    obtain rfl := Opcode.byte_of_ofByte? hop
    refine ⟨rfl, fun hlt => ?_⟩
    simpa [Op.isRaw, Opcode.isShort] using Nat.le_of_lt_succ hlt
  cases phase with
  | final => exact ⟨(hfinal n h).1, nofun⟩
  | raw =>
    rw [opcode, Op.ofRawByte?] at h
    split at h
    · exact ⟨(hfinal n h).1, fun _ => (hfinal n h).2 ‹_›⟩
    · obtain ⟨op, hop, rfl⟩ := Option.map_eq_some_iff.mp h
      exact ⟨Pseudo.byte_of_ofByte? hop, fun _ => rfl⟩

/-- An instruction suits its opcode and is written in the bytes that it was read from. -/
theorem instr_bounds {b i} (h : instr phase total pos b bytes = .ok (i, rest)) :
    i.fits ∧ b :: bytes = i.encode (labelWord phase (pos + i.op.format.shape.labelOffset)
        i.op.format.shape.labelWidth (i.arg.label?.getD 0)) ++ rest ∧
      (phase = .final → ∀ t, i.arg.label? = some t →
        LeadsTo total (pos + i.op.format.shape.labelOffset) i.op.format.shape.labelWidth
          (labelWord phase (pos + i.op.format.shape.labelOffset) i.op.format.shape.labelWidth t) t) := by
  unfold instr at h
  split at h
  · cases h
  · rename_i op hop
    obtain ⟨⟨arg, rest'⟩, harg, h⟩ := bind_eq_ok.mp h
    cases h
    obtain ⟨hbyte, hraw⟩ := opcode_eq_some hop
    obtain ⟨hfits, rfl, hreach⟩ := operand_bounds (fun hphase => Op.labelWidth_of_isRaw (hraw hphase)) harg
    have hoffset : pos + 1 + (op.format.shape.labelOffset - 1) = pos + op.format.shape.labelOffset := by
      cases op.format.shape <;> simp [labelOffset]
    rw [hoffset] at hreach ⊢
    refine ⟨hfits, ?_, hreach⟩
    rw [Instr.encode, hbyte, List.cons_append]
    exact congrArg (· :: _) (UInt8.ofNat_toNat).symm

/-- An operand that suits the opcode and has the same label can stand in an operand's place. -/
theorem instr_replace {b i arg} (h : instr .final total pos b bytes = .ok (i, rest))
    (hfits : i.op.format.shape.fits arg) (hlabel : arg.label? = i.arg.label?) (rest' : Bytes) :
    instr .final total pos b (i.op.format.shape.encode arg (labelWord .final (pos + i.op.format.shape.labelOffset)
      i.op.format.shape.labelWidth (i.arg.label?.getD 0)) ++ rest') = .ok (⟨i.op, arg⟩, rest') := by
  obtain ⟨-, -, hreach⟩ := instr_bounds h
  unfold instr at h ⊢
  split at h
  · cases h
  · rename_i op hop
    obtain ⟨⟨arg', _⟩, -, h⟩ := bind_eq_ok.mp h
    cases h
    dsimp only at *
    have hoffset : pos + 1 + (op.format.shape.labelOffset - 1) = pos + op.format.shape.labelOffset := by
      cases op.format.shape <;> simp [labelOffset]
    have hlead : op.format.shape.hasLabel →
        LeadsTo total (pos + 1 + (op.format.shape.labelOffset - 1)) op.format.shape.labelWidth (labelWord .final
          (pos + op.format.shape.labelOffset) op.format.shape.labelWidth (arg'.label?.getD 0)) (arg'.label?.getD 0) := by
      intro hhas
      obtain ⟨t, ht⟩ := Option.isSome_iff_exists.mp ((Shape.isSome_label?_of_fits hfits).trans hhas)
      rw [hlabel] at ht
      rw [hoffset, ht]
      exact hreach rfl t ht
    have hsame : arg.withLabel (arg'.label?.getD 0) = arg := by
      cases ht : arg'.label? with
      | none => exact Operand.withLabel_of_label?_none (hlabel.trans ht) _
      | some t => exact Operand.withLabel_of_label? (hlabel.trans ht)
    refine bind_eq_ok.mpr ⟨(arg, rest'), ?_, rfl⟩
    rw [operand_encode arg pos (pos + 1) rest' hlead, Format.readBack_of_fits _ hfits, hsame]

theorem length_of_instr {b i} (h : instr phase total pos b bytes = .ok (i, rest)) :
    bytes.length = i.op.format.operandSize + rest.length := by
  have hlength := congrArg List.length (instr_bounds h).2.1
  rw [List.length_append, Instr.length_encode, List.length_cons] at hlength
  omega

/-- With at least as much fuel as bytes, the decoder comes to the end of the bytes. -/
theorem instrs_eq_ok_iff {fuel done read} (hfuel : bytes.length ≤ fuel) :
    instrs phase total fuel pos done bytes = .ok read ↔
      ∃ code, Reads phase total pos bytes code ∧ read.toList = done.toList ++ code := by
  induction fuel generalizing pos done bytes with
  | zero =>
    obtain rfl : bytes = [] := List.length_eq_zero_iff.mp (by omega)
    constructor
    · intro h
      cases h
      exact ⟨[], .nil pos, by simp⟩
    · rintro ⟨code, hcode, hread⟩
      cases hcode
      obtain rfl : read = done := Array.toList_inj.mp (by simpa using hread)
      rfl
  | succ fuel ih =>
    cases bytes with
    | nil =>
      constructor
      · intro h
        cases h
        exact ⟨[], .nil pos, by simp⟩
      · rintro ⟨code, hcode, hread⟩
        cases hcode
        obtain rfl : read = done := Array.toList_inj.mp (by simpa using hread)
        rfl
    | cons b bytes =>
      rw [instrs, bind_eq_ok]
      constructor
      · rintro ⟨⟨i, rest⟩, hi, h⟩
        have hlen := length_of_instr hi
        simp only [List.length_cons] at hfuel
        obtain ⟨code, hcode, hread⟩ := (ih (by omega)).mp h
        exact ⟨⟨pos, i⟩ :: code, .cons hi hcode, by simp [hread]⟩
      · rintro ⟨code, hcode, hread⟩
        cases hcode with
        | @cons _ _ _ rest i code hi hcode =>
          have hlen := length_of_instr hi
          simp only [List.length_cons] at hfuel
          exact ⟨⟨i, rest⟩, hi, (ih (by omega)).mpr ⟨code, hcode, by simp [hread]⟩⟩

theorem decode_eq_ok_iff {code} : decode phase bytes = .ok code ↔ Reads phase bytes.length 0 bytes code := by
  rw [decode, bind_eq_ok]
  constructor
  · rintro ⟨read, hread, h⟩
    obtain ⟨code', hcode, hlist⟩ := (instrs_eq_ok_iff le_rfl).mp hread
    cases h
    rw [hlist]
    simpa using hcode
  · intro h
    exact ⟨code.toArray, (instrs_eq_ok_iff le_rfl).mpr ⟨code, h, by simp⟩, rfl⟩

/-- Instructions are written in the bytes that they were read from. -/
theorem Reads.eq_flatMap {code} (h : Reads phase total pos bytes code) :
    bytes = code.flatMap fun here => here.instr.encode (labelWord phase
      (here.pos + here.instr.op.format.shape.labelOffset) here.instr.op.format.shape.labelWidth
      (here.instr.arg.label?.getD 0)) := by
  induction h with
  | nil => rfl
  | cons head _ ih => rw [List.flatMap_cons, ← ih, (instr_bounds head).2.1]

end Decode

/-! ## Code under construction -/

/-- An instruction as it is read back from code under construction: its operand as far as the fields have room
for it. -/
def Instr.readRaw (i : Instr) : Instr :=
  ⟨i.op, i.op.format.shape.readBack i.arg (i.arg.label?.getD 0 % Nat.pow 256 4)⟩

set_option maxRecDepth 1024 in
theorem Op.ofRawByte?_byte {op : Op} (h : op.isRaw) : ofRawByte? op.byte.toUInt8.toNat = some op := by
  cases op with
  | final op =>
    have hlong : op.byte < Pseudo.firstByte := by
      simp only [isRaw, Opcode.isShort, Bool.not_eq_true', decide_eq_false_iff_not, Nat.not_lt] at h
      exact Nat.lt_succ_of_le h
    rw [byte, Opcode.toNat_byte, ofRawByte?, if_pos hlong, ofFinalByte?, Opcode.ofByte?_byte]
    rfl
  | pseudo op => cases op <;> rfl

namespace Decode

theorem instr_encode_raw {i : Instr} (h : i.op.isRaw) (total pos : Nat) (rest : Bytes) :
    instr .raw total pos i.op.byte.toUInt8
        (i.op.format.shape.encode i.arg (i.arg.label?.getD 0) ++ rest) = .ok (i.readRaw, rest) := by
  have harg : operand .raw total pos (pos + 1) _ i.op.format.shape = .ok (i.readRaw.arg, rest) :=
    operand_encode_of_label i.arg pos (pos + 1) rest fun _ rest => by
      rw [Op.labelWidth_of_isRaw h]
      exact field_leBytes _ 4 (i.arg.label?.getD 0) rest
  rw [instr, opcode, Op.ofRawByte?_byte h]
  dsimp only
  rw [harg]
  rfl

theorem reads_encodeRaw {code} (h : ∀ i ∈ code, i.op.isRaw) (total pos : Nat) :
    ∃ read, Reads .raw total pos (encodeRaw code) read ∧ read.map (·.instr) = code.map Instr.readRaw := by
  induction code generalizing pos with
  | nil => exact ⟨[], .nil pos, rfl⟩
  | cons i rest ih =>
    rw [List.forall_mem_cons] at h
    obtain ⟨read, hread, hinstrs⟩ := ih h.2 (pos + 1 + i.op.format.operandSize)
    exact ⟨⟨pos, i.readRaw⟩ :: read, .cons (instr_encode_raw h.1 total pos _) hread, by simp [hinstrs]⟩

/-- Instructions stand one behind the other. -/
theorem Reads.located {read} (h : Reads phase total pos bytes read) :
    read = (read.map (·.instr)).mapIdx fun k i => ⟨pos + (encodeRaw ((read.map (·.instr)).take k)).length, i⟩ := by
  induction h with
  | nil => rfl
  | @cons pos b bytes rest i code _ _ ih =>
    rw [List.map_cons, List.mapIdx_cons]
    refine congrArg₂ _ rfl (ih.trans ?_)
    refine congrArg (List.mapIdx · _) (funext₂ fun k j => congrArg (Located.mk · j) ?_)
    rw [List.take_succ_cons, encodeRaw, encodeRaw, List.flatMap_cons, List.length_append, Instr.length_encode]
    dsimp only
    omega

end Decode

/-- Code under construction is read back instruction by instruction. -/
theorem decodeRaw_encodeRaw {code} (h : ∀ i ∈ code, i.op.isRaw) :
    ∃ read, decodeRaw (encodeRaw code) = .ok read ∧ read.map (·.instr) = code.map Instr.readRaw := by
  obtain ⟨read, hread, hinstrs⟩ := Decode.reads_encodeRaw h (encodeRaw code).length 0
  exact ⟨read, Decode.decode_eq_ok_iff.mpr hread, hinstrs⟩

/-- Does an instruction belong into code under construction, with an operand that suits its opcode? -/
def Instr.fitsRaw (i : Instr) : Bool :=
  i.op.isRaw && i.fits && i.arg.label?.all (· < Nat.pow 256 4)

theorem Instr.readRaw_of_fitsRaw {i : Instr} (h : i.fitsRaw) : i.readRaw = i := by
  simp only [fitsRaw, Bool.and_eq_true] at h
  obtain ⟨⟨-, hfits⟩, hlabel⟩ := h
  refine congrArg (Instr.mk i.op) ((Format.readBack_of_fits _ hfits).trans ?_)
  cases hl : i.arg.label? with
  | none => exact Operand.withLabel_of_label?_none hl _
  | some l =>
    rw [hl, Option.all_some, decide_eq_true_eq] at hlabel
    rw [Option.getD_some, Nat.mod_eq_of_lt hlabel]
    exact Operand.withLabel_of_label? hl

/-- Code under construction and its bytes determine each other. -/
theorem raw_roundTrip :
    (∀ bytes read, decodeRaw bytes = .ok read → encodeRaw (read.map (·.instr)) = bytes) ∧
    ∀ code, (∀ i ∈ code, i.fitsRaw) →
      decodeRaw (encodeRaw code) = .ok (code.mapIdx fun k i => ⟨(encodeRaw (code.take k)).length, i⟩) := by
  constructor
  · intro bytes read hread
    rw [encodeRaw, List.flatMap_map]
    exact (Decode.decode_eq_ok_iff.mp hread).eq_flatMap.symm
  · intro code hcode
    have hraw : ∀ i ∈ code, i.op.isRaw := by
      intro i hi
      have hfits := hcode i hi
      simp only [Instr.fitsRaw, Bool.and_eq_true] at hfits
      exact hfits.1.1
    obtain ⟨read, hread, hinstrs⟩ := decodeRaw_encodeRaw hraw
    have hsame : code.map Instr.readRaw = code :=
      (List.map_congr_left fun i hi => Instr.readRaw_of_fitsRaw (hcode i hi)).trans (List.map_id code)
    have hlocated := (Decode.decode_eq_ok_iff.mp hread).located
    simp only [hinstrs, hsame, Nat.zero_add] at hlocated
    rw [hread, hlocated]

/-- A loop over a scope, with a marker whose byte is also that of a short form. -/
theorem raw_roundTrip_scopedLoop :
    (∀ i ∈ [.mark 7, ⟨.pseudo .getVar, .atomInt ⟨210⟩ 1⟩, .of .ifTrue (.label 7)], Instr.fitsRaw i) ∧
    decodeRaw (encodeRaw [.mark 7, ⟨.pseudo .getVar, .atomInt ⟨210⟩ 1⟩, .of .ifTrue (.label 7)])
      = .ok [⟨0, .mark 7⟩, ⟨5, ⟨.pseudo .getVar, .atomInt ⟨210⟩ 1⟩⟩, ⟨12, .of .ifTrue (.label 7)⟩] :=
  ⟨by decide, raw_roundTrip.2 _ (by decide)⟩

end ScriptBytecode
