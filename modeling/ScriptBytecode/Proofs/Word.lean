import ScriptBytecode.Word
import Mathlib.Order.Nat

/-!
# Words and bytes, read back

A field of bytes gives back the number that was written into it, as far as it has room for it, and a
number is written into the bytes that it was read from.
-/

namespace ScriptBytecode

variable {bits n : Nat}

theorem pow_succ_256 (k : Nat) : Nat.pow 256 (k + 1) = 256 * Nat.pow 256 k := by
  rw [Nat.mul_comm]
  rfl

/-- A byte has eight bits. -/
theorem pow_256 (k : Nat) : Nat.pow 256 k = Nat.pow 2 (8 * k) :=
  (Nat.pow_mul 2 8 k).symm

theorem ofLeBytes_leBytes (k n : Nat) : ofLeBytes (leBytes k n) = n % Nat.pow 256 k := by
  induction k generalizing n with
  | zero => simp [leBytes, ofLeBytes, Nat.mod_one]
  | succ k ih =>
    have hbyte : n.toUInt8.toNat = n % 256 := by simp
    rw [leBytes, ofLeBytes, ih, hbyte, pow_succ_256, Nat.mod_mul]

theorem ofLeBytes_lt (bytes : Bytes) : ofLeBytes bytes < Nat.pow 256 bytes.length := by
  induction bytes with
  | nil => exact Nat.one_pos
  | cons b rest ih =>
    have hb : b.toNat < 256 := b.toNat_lt
    rw [ofLeBytes, List.length_cons, pow_succ_256]
    omega

theorem leBytes_ofLeBytes (bytes : Bytes) : leBytes bytes.length (ofLeBytes bytes) = bytes := by
  induction bytes with
  | nil => rfl
  | cons b rest ih =>
    have hb : b.toNat < 256 := b.toNat_lt
    have hlow : (b.toNat + 256 * ofLeBytes rest).toUInt8 = b := by
      apply UInt8.toNat_inj.mp
      simp
    have hhigh : (b.toNat + 256 * ofLeBytes rest) / 256 = ofLeBytes rest := by omega
    rw [List.length_cons, ofLeBytes, leBytes, hlow, hhigh, ih]

/-! ## Two's complement -/

theorem unsignedWord_lt (bits : Nat) (i : Int) : unsignedWord bits i < Nat.pow 2 bits := by
  have hpos : 0 < Nat.pow 2 bits := Nat.two_pow_pos bits
  have hlt := Int.emod_lt_of_pos i (show (0 : Int) < (Nat.pow 2 bits : Nat) by omega)
  have hnn := Int.emod_nonneg i (show ((Nat.pow 2 bits : Nat) : Int) ≠ 0 by omega)
  unfold unsignedWord
  omega

theorem unsignedWord_natCast (h : n < Nat.pow 2 bits) : unsignedWord bits (n : Int) = n := by
  rw [unsignedWord, ← Int.natCast_emod, Int.toNat_natCast, Nat.mod_eq_of_lt h]

theorem two_pow_half (hbits : 0 < bits) : Nat.pow 2 bits = 2 * Nat.pow 2 (bits - 1) := by
  obtain ⟨k, rfl⟩ : ∃ k, bits = k + 1 := ⟨bits - 1, by omega⟩
  rw [Nat.add_sub_cancel, Nat.mul_comm]
  rfl

/-- A number that has a two's complement is read back from it. -/
theorem signedWord_unsignedWord {i} (hbits : 0 < bits) (h : fitsSigned bits i) :
    signedWord bits (unsignedWord bits i) = i := by
  have hhalf := two_pow_half hbits
  simp only [fitsSigned, Bool.and_eq_true, decide_eq_true_eq] at h
  have hmod : i % (Nat.pow 2 bits : Nat) = if 0 ≤ i then i else i + (Nat.pow 2 bits : Nat) := by
    split
    · exact Int.emod_eq_of_lt (by omega) (by omega)
    · rw [← Int.add_emod_right]
      exact Int.emod_eq_of_lt (by omega) (by omega)
  unfold signedWord unsignedWord
  rw [hmod]
  split <;> split <;> omega

theorem fitsSigned_signedWord (hbits : 0 < bits) (h : n < Nat.pow 2 bits) : fitsSigned bits (signedWord bits n) := by
  have hhalf := two_pow_half hbits
  unfold signedWord
  split
  · simp only [fitsSigned, Bool.and_eq_true, decide_eq_true_eq]
    omega
  · simp only [fitsSigned, Bool.and_eq_true, decide_eq_true_eq]
    omega

/-- The two's complement of a number on fewer bits is the last part of the one on more. -/
theorem unsignedWord_mod {a b} (hab : a ≤ b) (i : Int) : unsignedWord b i % Nat.pow 2 a = unsignedWord a i := by
  have hpos : 0 < Nat.pow 2 b := Nat.two_pow_pos b
  have hnn := Int.emod_nonneg i (show ((Nat.pow 2 b : Nat) : Int) ≠ 0 by omega)
  have hdvd : ((Nat.pow 2 a : Nat) : Int) ∣ (Nat.pow 2 b : Nat) :=
    Int.natCast_dvd_natCast.mpr (Nat.pow_dvd_pow 2 hab)
  unfold unsignedWord
  rw [← Int.toNat_natCast ((i % (Nat.pow 2 b : Nat)).toNat % Nat.pow 2 a), Int.natCast_emod,
    Int.toNat_of_nonneg hnn, Int.emod_emod_of_dvd i hdvd]

/-- The sign of a number does not matter for its last bits. -/
theorem unsignedWord_signedWord {a b : Nat} (hab : a ≤ b) (h : n < Nat.pow 2 a) :
    unsignedWord a (signedWord b n) = n := by
  have hdvd : ((Nat.pow 2 a : Nat) : Int) ∣ (Nat.pow 2 b : Nat) :=
    Int.natCast_dvd_natCast.mpr (Nat.pow_dvd_pow 2 hab)
  have hmod : (signedWord b n) % (Nat.pow 2 a : Nat) = n := by
    unfold signedWord
    split
    · exact Int.emod_eq_of_lt (by omega) (by omega)
    · rw [Int.sub_emod, Int.emod_eq_zero_of_dvd hdvd, Int.sub_zero, Int.emod_emod_of_dvd _ (Int.dvd_refl _)]
      exact Int.emod_eq_of_lt (by omega) (by omega)
  rw [unsignedWord, hmod, Int.toNat_natCast]

end ScriptBytecode
