import ScriptBytecode.Leb128
import ScriptBytecode.Proofs.Word

/-!
# LEB128 numbers, read back

A 32-bit number is read back from its groups, and what follows them stays. Whatever is read is such a number.
-/

namespace ScriptBytecode.Leb128

variable {n : Nat}

theorem pow_7_succ (seen : Nat) : Nat.pow 2 (7 * (seen + 1)) = 128 * Nat.pow 2 (7 * seen) := by
  rw [Nat.mul_add, Nat.mul_one]
  exact (Nat.pow_add 2 (7 * seen) 7).trans (Nat.mul_comm _ _)

theorem toNat_toUInt8 (h : n < 256) : n.toUInt8.toNat = n := by
  simp [Nat.mod_eq_of_lt h]

/-- The groups of `n` add it to what the groups before them hold. -/
theorem readGroups_groups (start more seen value n : Nat) (rest : Bytes)
    (hn : n < Nat.pow 128 (more + 1)) (hfits : value + n * Nat.pow 2 (7 * seen) < 0x100000000) :
    readGroups start (more + 1) seen value (groups more n ++ rest)
      = .ok (value + n * Nat.pow 2 (7 * seen), seen + (groups more n).length, rest) := by
  induction more generalizing seen value n with
  | zero =>
    have hn : n < 128 := hn
    have hbyte : n.toUInt8.toNat = n := toNat_toUInt8 (by omega)
    simp only [groups, Nat.mod_eq_of_lt hn, List.singleton_append, readGroups, hbyte,
      Nat.mod_eq_of_lt hfits, if_pos hn, List.length_singleton]
  | succ more ih =>
    unfold groups
    split
    · rename_i hlast
      have hbyte : n.toUInt8.toNat = n := toNat_toUInt8 (by omega)
      simp only [List.singleton_append, readGroups, hbyte, Nat.mod_eq_of_lt hlast,
        Nat.mod_eq_of_lt hfits, if_pos hlast, List.length_singleton]
    · have hbyte : (n % 128 + 128).toUInt8.toNat = n % 128 + 128 := toNat_toUInt8 (by omega)
      have hlow : (n % 128 + 128) % 128 = n % 128 := by omega
      have hsplit : n * Nat.pow 2 (7 * seen) = n % 128 * Nat.pow 2 (7 * seen)
          + n / 128 * Nat.pow 2 (7 * (seen + 1)) := by
        calc n * Nat.pow 2 (7 * seen)
            = (n % 128 + 128 * (n / 128)) * Nat.pow 2 (7 * seen) := by rw [Nat.mod_add_div]
          _ = n % 128 * Nat.pow 2 (7 * seen) + 128 * (n / 128) * Nat.pow 2 (7 * seen) :=
            Nat.add_mul _ _ _
          _ = n % 128 * Nat.pow 2 (7 * seen) + n / 128 * Nat.pow 2 (7 * (seen + 1)) := by
            rw [pow_7_succ, Nat.mul_comm 128, Nat.mul_assoc]
      rw [hsplit] at hfits
      have hrest : n / 128 < Nat.pow 128 (more + 1) := by
        apply Nat.div_lt_of_lt_mul
        rw [Nat.mul_comm]
        exact hn
      have hvalue : value + n % 128 * Nat.pow 2 (7 * seen) < 0x100000000 := by omega
      rw [List.cons_append, readGroups, hbyte, hlow, Nat.mod_eq_of_lt hvalue, if_neg (by omega),
        ih _ _ _ hrest (by omega), List.length_cons, hsplit]
      congr 2
      · omega
      · congr 1
        omega

theorem read_write (start : Nat) (rest : Bytes) (h : n < 0x100000000) :
    read start (write n ++ rest) = .ok (n, (write n).length, rest) := by
  have hn : n < Nat.pow 128 5 := h.trans (by decide)
  have hread := readGroups_groups start 4 0 0 n rest hn (by simpa using h)
  simpa [read, write] using hread

theorem length_groups_le (more n : Nat) : (groups more n).length ≤ more + 1 := by
  induction more generalizing n with
  | zero => exact le_rfl
  | succ more ih =>
    unfold groups
    split
    · exact Nat.succ_le_succ (Nat.zero_le _)
    · exact Nat.succ_le_succ (ih (n / 128))

/-- Groups that end before the last one are known to be cut off. -/
theorem readGroups_take (start more seen value n k : Nat) (hk : k < (groups more n).length) :
    readGroups start (more + 1) seen value ((groups more n).take k)
      = .error (.unreadable .truncatedLeb (start + (seen + k))) := by
  induction more generalizing seen value n k with
  | zero =>
    obtain rfl : k = 0 := Nat.lt_one_iff.mp hk
    rfl
  | succ more ih =>
    cases k with
    | zero => rfl
    | succ k =>
      unfold groups at hk ⊢
      split at hk
      · exact absurd (Nat.lt_of_succ_lt_succ hk) (Nat.not_lt_zero k)
      · rename_i hmore
        have hbyte : (n % 128 + 128).toUInt8.toNat = n % 128 + 128 := toNat_toUInt8 (by omega)
        rw [if_neg hmore, List.take_succ_cons, readGroups, hbyte, if_neg (by omega),
          ih _ _ _ _ (Nat.lt_of_succ_lt_succ hk), Nat.add_right_comm seen]
        rfl

/-- What is read is a 32-bit number of one group at least. It ends with its last group, wherever it stands and whatever
comes after it. -/
theorem exists_groups_of_readGroups {start left seen value bytes rest used}
    (h : readGroups start left seen value bytes = .ok (n, used, rest)) :
    n < 0x100000000 ∧ ∃ taken, bytes = taken ++ rest ∧ 0 < taken.length ∧ used = seen + taken.length ∧
      ∀ start' rest', readGroups start' left seen value (taken ++ rest') = .ok (n, used, rest') := by
  induction left generalizing seen value bytes with
  | zero => cases h
  | succ left ih =>
    cases bytes with
    | nil => cases h
    | cons b bytes =>
      rw [readGroups] at h
      split at h
      · rename_i hlast
        cases h
        refine ⟨Nat.mod_lt _ (by decide), [b], rfl, Nat.one_pos, rfl, fun start' rest' => ?_⟩
        rw [List.singleton_append, readGroups, if_pos hlast]
      · rename_i hlast
        obtain ⟨hn, taken, rfl, -, hused, hread⟩ := ih h
        refine ⟨hn, b :: taken, rfl, Nat.succ_pos _, ?_, fun start' rest' => ?_⟩
        · rw [hused, List.length_cons]
          omega
        · rw [List.cons_append, readGroups, if_neg hlast, hread]

theorem unzigzag_zigzag (i : Int) : unzigzag (zigzag i) = i := by
  unfold zigzag unzigzag
  split <;> split <;> omega

theorem zigzag_lt {i} (h : fitsSigned 32 i) : zigzag i < 0x100000000 := by
  have hhalf : (Nat.pow 2 (32 - 1) : Nat) = 0x80000000 := by decide
  simp only [fitsSigned, hhalf, Bool.and_eq_true, decide_eq_true_eq] at h
  unfold zigzag
  split <;> omega

theorem readSigned_writeSigned (start : Nat) (rest : Bytes) {i} (h : fitsSigned 32 i) :
    readSigned start (writeSigned i ++ rest) = .ok (i, (writeSigned i).length, rest) := by
  rw [readSigned, writeSigned, read_write _ _ (zigzag_lt h)]
  simp only [bind, Except.bind, pure, Except.pure, unzigzag_zigzag]

theorem fitsSigned_unzigzag (h : n < 0x100000000) : fitsSigned 32 (unzigzag n) := by
  have hhalf : (Nat.pow 2 (32 - 1) : Nat) = 0x80000000 := by decide
  simp only [fitsSigned, hhalf, Bool.and_eq_true, decide_eq_true_eq]
  unfold unzigzag
  split <;> omega

/-- Wherever a number stands in a buffer, it is read back from at most five bytes. Where the buffer ends within it, the
reader says where. -/
theorem read_drop (before after : Bytes) : (∀ n < 0x100000000, (write n).length ≤ 5 ∧
      read before.length ((before ++ write n ++ after).drop before.length) = .ok (n, (write n).length, after)) ∧
    (∀ i, fitsSigned 32 i → (writeSigned i).length ≤ 5 ∧
      readSigned before.length ((before ++ writeSigned i ++ after).drop before.length)
        = .ok (i, (writeSigned i).length, after)) ∧
    ∀ n k, k < (write n).length → read before.length ((before ++ (write n).take k).drop before.length)
      = .error (.unreadable .truncatedLeb (before.length + k)) := by
  simp only [List.append_assoc, List.drop_left]
  refine ⟨fun n hn => ⟨length_groups_le 4 n, read_write _ _ hn⟩,
    fun i hi => ⟨length_groups_le 4 _, readSigned_writeSigned _ _ hi⟩, fun n k hk => ?_⟩
  rw [read, write, readGroups_take _ _ _ _ _ _ hk, Nat.zero_add]

/-- The least number of 32 bits with a sign takes five bytes. -/
theorem read_drop_least : fitsSigned 32 (-0x80000000) ∧
    readSigned 1 (([0] ++ writeSigned (-0x80000000) ++ [7]).drop 1) = .ok (-0x80000000, 5, [7]) ∧
    read 0 (([] ++ (write 0xffffffff).take 4).drop 0) = .error (.unreadable .truncatedLeb 4) :=
  ⟨rfl, ((read_drop [0] [7]).2.1 _ rfl).2, (read_drop [] []).2.2 0xffffffff 4 (by decide)⟩

end ScriptBytecode.Leb128
