import ScriptBytecode.Text.Utf16
import ScriptBytecode.Text.Utf8
import ScriptBytecode.Proofs.Leb128

/-!
# Text, read back

The characters of a text are read back from its UTF-16 units and from its UTF-8 bytes.
-/

namespace ScriptBytecode.Text

variable {c : Char} {bytes : Bytes} {n : Nat} {done cs : List Char}

theorem char_bounds (c : Char) : c.toNat < 0xd800 ∨ 0xdfff < c.toNat ∧ c.toNat < 0x110000 :=
  c.valid

/-! ## UTF-16 -/

theorem units_lt {u} (h : u ∈ units c) : u < 0x10000 := by
  have hc := char_bounds c
  unfold units at h
  dsimp only at h
  split at h
  · rename_i hn
    rw [List.mem_singleton] at h
    omega
  · simp only [List.mem_cons, List.not_mem_nil, or_false] at h
    omega

theorem ofUnits_units (c : Char) (done : List Char) (rest : List Nat) :
    ofUnits done (units c ++ rest) = ofUnits (c :: done) rest := by
  have hc := char_bounds c
  unfold units
  dsimp only
  split
  · rename_i hn
    have hlow : isLow c.toNat = false := by simp [isLow]; omega
    have hhigh : isHigh c.toNat = false := by simp [isHigh]; omega
    rw [List.singleton_append, ofUnits.eq_def]
    simp [hlow, hhigh, Char.ofNat_toNat]
  · have hlow : isLow (0xd800 + (c.toNat - 0x10000) / 0x400) = false := by simp [isLow]; omega
    have hhigh : isHigh (0xd800 + (c.toNat - 0x10000) / 0x400) := by simp [isHigh]; omega
    have hsecond : isLow (0xdc00 + (c.toNat - 0x10000) % 0x400) := by simp [isLow]; omega
    have hchar : 0x10000 + (0xd800 + (c.toNat - 0x10000) / 0x400 - 0xd800) * 0x400
        + (0xdc00 + (c.toNat - 0x10000) % 0x400 - 0xdc00) = c.toNat := by omega
    rw [List.cons_append, List.singleton_append, ofUnits.eq_def]
    simp only [hlow, hhigh, hsecond, hchar, Bool.false_eq_true, if_false, if_true, Char.ofNat_toNat]

theorem ofUnits_flatMap (cs done : List Char) : ofUnits done (cs.flatMap units) = some (done.reverse ++ cs) := by
  induction cs generalizing done with
  | nil => simp [ofUnits]
  | cons c rest ih => rw [List.flatMap_cons, ofUnits_units, ih]; simp

theorem pairs_leBytes {us} (h : ∀ u ∈ us, u < 0x10000) : pairs (us.flatMap (leBytes 2)) = us := by
  induction us with
  | nil => rfl
  | cons u rest ih =>
    have hu := h u List.mem_cons_self
    have hvalue : u.toUInt8.toNat + 256 * (u / 256).toUInt8.toNat = u := by
      simp
      omega
    rw [List.flatMap_cons, leBytes, leBytes, leBytes, List.cons_append, List.singleton_append, pairs,
      ih fun v hv => h v (List.mem_cons_of_mem _ hv), hvalue]

theorem ofUnits_pairs (s : String) :
    ofUnits [] (pairs ((s.toList.flatMap units).flatMap (leBytes 2))) = some s.toList := by
  have hunits : ∀ u ∈ s.toList.flatMap units, u < 0x10000 := by
    intro u hu
    obtain ⟨c, -, hc⟩ := List.mem_flatMap.mp hu
    exact units_lt hc
  rw [pairs_leBytes hunits, ofUnits_flatMap]
  rfl

/-- Characters of one byte each are read back from their bytes. -/
theorem map_ofNat_toUInt8 {s} (h : isWide s = false) :
    (s.toList.map (·.toNat.toUInt8)).map (fun b => Char.ofNat b.toNat) = s.toList := by
  have hnarrow : ∀ c ∈ s.toList, c.toNat ≤ 0xff := by simpa [isWide] using h
  have hchar : ∀ c ∈ s.toList,
      ((fun b : UInt8 => Char.ofNat b.toNat) ∘ fun c : Char => c.toNat.toUInt8) c = id c := by
    intro c hc
    have hc := hnarrow c hc
    have hbyte := Leb128.toNat_toUInt8 (n := c.toNat) (by omega)
    simp only [Function.comp_apply, hbyte, Char.ofNat_toNat, id_eq]
  rw [List.map_map, List.map_congr_left hchar, List.map_id]

/-! ## UTF-8 -/

theorem tailBits?_toUInt8 (n : Nat) : tailBits? (0x80 + n % 64).toUInt8 = some (n % 64) := by
  have hbyte := Leb128.toNat_toUInt8 (n := 0x80 + n % 64) (by omega)
  unfold tailBits?
  rw [hbyte, if_pos (by simp only [Bool.and_eq_true, decide_eq_true_eq]; omega), Nat.add_sub_cancel_left]

theorem charFrom?_toNat {least} (hn : n = c.toNat) (h : least ≤ c.toNat) : charFrom? least n = some c := by
  have hvalid : c.toNat.isValidChar := char_bounds c
  subst hn
  rw [charFrom?, if_pos (by simp [h, hvalid]), Char.ofNat_toNat]

theorem ofUtf8_utf8Char (c : Char) (done : List Char) (rest : Bytes) :
    ofUtf8 done (utf8Char c ++ rest) = ofUtf8 (c :: done) rest := by
  have hc := char_bounds c
  unfold utf8Char
  dsimp only
  split
  · rename_i h1
    have hbyte := Leb128.toNat_toUInt8 (n := c.toNat) (by omega)
    rw [List.singleton_append, ofUtf8.eq_def]
    simp only [hbyte, if_pos h1, Char.ofNat_toNat]
  · split
    · rename_i h1 h2
      have hbyte := Leb128.toNat_toUInt8 (n := 0xc0 + c.toNat / 64) (by omega)
      have htail := tailBits?_toUInt8 (c.toNat / Nat.pow 64 0)
      have hchar : charFrom? 0x80 ((0xc0 + c.toNat / 64 - 0xc0) * 64 + c.toNat / Nat.pow 64 0 % 64)
          = some c := charFrom?_toNat (by simp [Nat.pow]; omega) (by omega)
      simp only [List.cons_append, List.nil_append]
      rw [ofUtf8.eq_def]
      simp only [hbyte, htail]
      rw [if_neg (by omega), if_pos (by simp only [Bool.and_eq_true, decide_eq_true_eq]; omega), hchar]
    · split
      · rename_i h1 h2 h3
        have hbyte := Leb128.toNat_toUInt8 (n := 0xe0 + c.toNat / 0x1000) (by omega)
        have hfirst := tailBits?_toUInt8 (c.toNat / Nat.pow 64 1)
        have hsecond := tailBits?_toUInt8 (c.toNat / Nat.pow 64 0)
        have hchar : charFrom? 0x800 ((0xe0 + c.toNat / 0x1000 - 0xe0) * 0x1000
            + c.toNat / Nat.pow 64 1 % 64 * 64 + c.toNat / Nat.pow 64 0 % 64) = some c :=
          charFrom?_toNat (by simp [Nat.pow]; omega) (by omega)
        simp only [List.cons_append, List.nil_append]
        rw [ofUtf8.eq_def]
        simp only [hbyte, hfirst, hsecond]
        rw [if_neg (by omega), if_neg (by simp only [Bool.and_eq_true, decide_eq_true_eq]; omega),
          if_pos (by simp only [Bool.and_eq_true, decide_eq_true_eq]; omega), hchar]
      · rename_i h1 h2 h3
        have hbyte := Leb128.toNat_toUInt8 (n := 0xf0 + c.toNat / 0x40000) (by omega)
        have hfirst := tailBits?_toUInt8 (c.toNat / Nat.pow 64 2)
        have hsecond := tailBits?_toUInt8 (c.toNat / Nat.pow 64 1)
        have hthird := tailBits?_toUInt8 (c.toNat / Nat.pow 64 0)
        have hchar : charFrom? 0x10000 ((0xf0 + c.toNat / 0x40000 - 0xf0) * 0x40000
            + c.toNat / Nat.pow 64 2 % 64 * 0x1000 + c.toNat / Nat.pow 64 1 % 64 * 64
            + c.toNat / Nat.pow 64 0 % 64) = some c :=
          charFrom?_toNat (by simp [Nat.pow]; omega) (by omega)
        simp only [List.cons_append, List.nil_append]
        rw [ofUtf8.eq_def]
        simp only [hbyte, hfirst, hsecond, hthird]
        rw [if_neg (by omega), if_neg (by simp only [Bool.and_eq_true, decide_eq_true_eq]; omega),
          if_neg (by simp only [Bool.and_eq_true, decide_eq_true_eq]; omega),
          if_pos (by simp only [Bool.and_eq_true, decide_eq_true_eq]; omega), hchar]

theorem ofUtf8_flatMap (cs done : List Char) : ofUtf8 done (cs.flatMap utf8Char) = some (done.reverse ++ cs) := by
  induction cs generalizing done with
  | nil => exact congrArg some (List.append_nil _).symm
  | cons c rest ih => rw [List.flatMap_cons, ofUtf8_utf8Char, ih]; simp

theorem readUtf8?_utf8 (s : String) : readUtf8? (utf8 s) = some s := by
  rw [readUtf8?, utf8, ofUtf8_flatMap, List.reverse_nil, List.nil_append, Option.map_some,
    String.ofList_toList]

/-! ## The size of what is read -/

theorem toNat_ofNat_le (n : Nat) : (Char.ofNat n).toNat ≤ n := by
  by_cases hvalid : n.isValidChar
  · rw [Char.ofNat, dif_pos hvalid]
    exact rfl.le
  · rw [Char.ofNat, dif_neg hvalid]
    exact Nat.zero_le _

theorem length_units_le (c : Char) : (units c).length ≤ 2 := by
  unfold units
  dsimp only
  split <;> simp

theorem length_units_of_lt (h : c.toNat < 0x10000) : (units c).length = 1 := by
  unfold units
  simp [h]

theorem pairs_lt {u} (h : u ∈ pairs bytes) : u < 0x10000 := by
  induction bytes using pairs.induct with
  | case1 a b rest ih =>
    rw [pairs, List.mem_cons] at h
    rcases h with rfl | h
    · have ha := a.toNat_lt
      have hb := b.toNat_lt
      omega
    · exact ih h
  | case2 bytes hshort =>
    rw [pairs] at h
    · cases h
    · exact hshort

theorem length_pairs_le (bytes : Bytes) : 2 * (pairs bytes).length ≤ bytes.length := by
  induction bytes using pairs.induct with
  | case1 a b rest ih =>
    rw [pairs, List.length_cons, List.length_cons, List.length_cons]
    omega
  | case2 bytes hshort =>
    rw [pairs]
    · exact Nat.zero_le _
    · exact hshort

/-- Text has no more units than it was read from. -/
theorem length_units_ofUnits {us} (hus : ∀ u ∈ us, u < 0x10000) (h : ofUnits done us = some cs) :
    (cs.flatMap units).length ≤ (done.flatMap units).length + us.length := by
  induction done, us using ofUnits.induct with
  | case1 done =>
    rw [ofUnits] at h
    cases h
    simp [List.length_flatMap]
  | case2 done u rest hlow =>
    rw [ofUnits.eq_def] at h
    simp [hlow] at h
  | case3 done u hlow hhigh v rest hv ih =>
    rw [ofUnits.eq_def] at h
    simp only [hlow, hhigh, hv, Bool.false_eq_true, if_false, if_true] at h
    have hle := ih (fun u hu => hus u (by simp [hu])) h
    have hchar := length_units_le (Char.ofNat (0x10000 + (u - 0xd800) * 0x400 + (v - 0xdc00)))
    rw [List.flatMap_cons, List.length_append] at hle
    simp only [List.length_cons]
    omega
  | case4 done u hlow hhigh v rest hv =>
    rw [ofUnits.eq_def] at h
    simp [hlow, hhigh, hv] at h
  | case5 done u hlow hhigh =>
    rw [ofUnits.eq_def] at h
    simp [hlow, hhigh] at h
  | case6 done u rest hlow hhigh ih =>
    rw [ofUnits.eq_def] at h
    simp only [hlow, hhigh, Bool.false_eq_true, if_false] at h
    have hle := ih (fun u hu => hus u (List.mem_cons_of_mem _ hu)) h
    have hu := hus u List.mem_cons_self
    have hchar := length_units_of_lt ((toNat_ofNat_le u).trans_lt hu)
    rw [List.flatMap_cons, List.length_append] at hle
    rw [List.length_cons]
    omega

theorem length_units_bytes (bytes : Bytes) :
    ((bytes.map fun b => Char.ofNat b.toNat).flatMap units).length = bytes.length := by
  induction bytes with
  | nil => rfl
  | cons b rest ih =>
    have hb : b.toNat < 0x10000 := b.toNat_lt.trans (by decide)
    have hchar := length_units_of_lt ((toNat_ofNat_le b.toNat).trans_lt hb)
    rw [List.map_cons, List.flatMap_cons, List.length_append, hchar, ih, List.length_cons, Nat.add_comm]

theorem length_utf8Char_le (c : Char) :
    (utf8Char c).length ≤ 4 ∧ (c.toNat < 0x10000 → (utf8Char c).length ≤ 3) ∧
      (c.toNat < 0x800 → (utf8Char c).length ≤ 2) ∧ (c.toNat < 0x80 → (utf8Char c).length ≤ 1) := by
  unfold utf8Char
  dsimp only
  split
  · simp
  · split
    · simp
      omega
    · split
      · simp
        omega
      · simp
        omega

theorem toNat_charFrom? {least} (h : charFrom? least n = some c) : c.toNat ≤ n := by
  unfold charFrom? at h
  split at h
  · cases h
    exact toNat_ofNat_le n
  · cases h

theorem tailBits?_lt {b} (h : tailBits? b = some n) : n < 64 := by
  unfold tailBits? at h
  split at h
  · rename_i hb
    simp only [Bool.and_eq_true, decide_eq_true_eq] at hb
    have hn := Option.some.inj h
    omega
  · cases h

/-- What is read is at its end, or one character is read that takes no more bytes than are gone. -/
theorem ofUtf8_eq_some (h : ofUtf8 done bytes = some cs) :
    bytes = [] ∧ done.reverse = cs ∨ ∃ ch front rest, bytes = front ++ rest ∧ front ≠ [] ∧
      (utf8Char ch).length ≤ front.length ∧ ofUtf8 (ch :: done) rest = some cs := by
  rw [ofUtf8.eq_def] at h
  repeat' split at h
  -- most ways through the reader give nothing
  any_goals cases h
  · exact .inl ⟨rfl, rfl⟩
  · rename_i a rest ha
    have hchar := (length_utf8Char_le (Char.ofNat a.toNat)).2.2.2 ((toNat_ofNat_le _).trans_lt ha)
    exact .inr ⟨_, [a], rest, rfl, List.cons_ne_nil _ _, hchar, h⟩
  · rename_i a _ _ b rest _ y hy hlead _ ch hch
    have hlast := tailBits?_lt hy
    have hlt := toNat_charFrom? hch
    simp only [Bool.and_eq_true, decide_eq_true_eq] at hlead
    have hchar := (length_utf8Char_le ch).2.2.1 (by omega)
    exact .inr ⟨ch, [a, b], rest, rfl, List.cons_ne_nil _ _, hchar, h⟩
  · rename_i a _ _ b _ y hy _ _ c rest _ z hz hlead _ ch hch
    have hmiddle := tailBits?_lt hy
    have hlast := tailBits?_lt hz
    have hlt := toNat_charFrom? hch
    simp only [Bool.and_eq_true, decide_eq_true_eq] at hlead
    have hchar := (length_utf8Char_le ch).2.1 (by omega)
    exact .inr ⟨ch, [a, b, c], rest, rfl, List.cons_ne_nil _ _, hchar, h⟩
  · rename_i a _ _ b _ _ _ _ _ c _ _ _ _ _ d rest _ _ _ _
    dsimp only at h
    split at h
    · cases h
    rename_i ch _
    exact .inr ⟨ch, [a, b, c, d], rest, rfl, List.cons_ne_nil _ _, (length_utf8Char_le ch).1, h⟩

/-- Text takes no more bytes than it was read from. -/
theorem length_utf8_ofUtf8 (h : ofUtf8 done bytes = some cs) :
    (cs.flatMap utf8Char).length ≤ (done.flatMap utf8Char).length + bytes.length := by
  induction hlength : bytes.length using Nat.strongRecOn generalizing done bytes with
  | ind n ih =>
    rcases ofUtf8_eq_some h with ⟨rfl, rfl⟩ | ⟨ch, front, rest, rfl, hne, hchar, hrest⟩
    · simp [List.length_flatMap]
    · have hpos := List.length_pos_iff.mpr hne
      rw [List.length_append] at hlength
      have hle := ih rest.length (by omega) hrest rfl
      rw [List.flatMap_cons, List.length_append] at hle
      omega

theorem length_utf8_readUtf8? {s} (h : readUtf8? bytes = some s) : (utf8 s).length ≤ bytes.length := by
  obtain ⟨cs, hcs, rfl⟩ := Option.map_eq_some_iff.mp h
  simpa [utf8] using length_utf8_ofUtf8 hcs

end ScriptBytecode.Text
