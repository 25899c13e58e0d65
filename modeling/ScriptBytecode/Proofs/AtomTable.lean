import ScriptBytecode.Atom.Table
import Mathlib.Data.List.Basic
import Mathlib.Order.Nat

/-!
# Atom tables stay sound

However a table is used, its predefined entries stay, the handles on its free list have no entry, and a
string entry that was added is the one that its name is interned to.
-/

namespace ScriptBytecode

/-! ## Numerals -/

namespace Atom

variable {n : Nat} {s : String}

theorem head?_toDigits (h : 0 < n) : (Nat.toDigits 10 n).head? ≠ some '0' := by
  induction n using Nat.strongRecOn with
  | ind n ih =>
    by_cases hn : n < 10
    · have hdigit : ∀ n < 10, 0 < n → [Nat.digitChar n].head? ≠ some '0' := by decide
      rw [Nat.toDigits_of_lt_base hn]
      exact hdigit n hn h
    · rw [Nat.toDigits_of_base_le (by decide) (by omega), List.head?_append_of_ne_nil _ Nat.toDigits_ne_nil]
      exact ih (n / 10) (by omega) (by omega)

theorem toDigits_digit {c : Char} (h : c.isDigit) :
    c.toNat - 48 < 10 ∧ Nat.toDigits 10 (c.toNat - 48) = [c] := by
  simp only [Char.isDigit, Bool.and_eq_true, decide_eq_true_eq] at h
  have hlow : 48 ≤ c.toNat := UInt32.le_iff_toNat_le.mp h.1
  have hhigh : c.toNat ≤ 57 := UInt32.le_iff_toNat_le.mp h.2
  have hlt : c.toNat - 48 < 10 := by omega
  refine ⟨hlt, ?_⟩
  rw [Nat.toDigits_of_lt_base hlt, List.singleton_inj, ← Char.toNat_inj, Nat.toNat_digitChar_of_lt_ten hlt]
  omega

/-- Digits behind a numeral without leading zeros. -/
theorem toDigits_ofDigitChars {digits : List Char} (hall : ∀ c ∈ digits, c.isDigit) (hn : 0 < n) :
    Nat.toDigits 10 (Nat.ofDigitChars 10 digits n) = Nat.toDigits 10 n ++ digits := by
  induction digits generalizing n with
  | nil => simp
  | cons c digits ih =>
    obtain ⟨hc, hall⟩ := List.forall_mem_cons.mp hall
    obtain ⟨hlt, hdigit⟩ := toDigits_digit hc
    rw [Nat.ofDigitChars_cons, ih hall (Nat.lt_add_right _ (Nat.mul_pos (by decide) hn))]
    change Nat.toDigits 10 (10 * n + (c.toNat - 48)) ++ digits = _
    rw [← Nat.toDigits_append_toDigits (by decide) hn hlt, hdigit, List.append_assoc]
    rfl

/-- The names that are numbers below `2 ^ 31` are their numerals. -/
theorem parseIndex_eq_some_iff : parseIndex s = some n ↔ n ≤ maxIndex ∧ s = toString n := by
  have hparse : parseIndex s = some n ↔ (s.toList ≠ [] ∧ s.toList.length ≤ 10 ∧ ∀ c ∈ s.toList, c.isDigit) ∧
      (1 < s.toList.length → s.toList.head? ≠ some '0') ∧ Nat.ofDigitChars 10 s.toList 0 = n ∧ n ≤ maxIndex := by
    rw [Nat.ofDigitChars_eq_foldl]
    grind [parseIndex]
  rw [hparse, Nat.toString_eq_ofList_toDigits]
  constructor
  · rintro ⟨⟨hne, -, hall⟩, hhead, rfl, hn⟩
    refine ⟨hn, String.toList_inj.mp ?_⟩
    rw [String.toList_ofList]
    cases hdigits : s.toList with
    | nil => exact absurd hdigits hne
    | cons c digits =>
      rw [hdigits] at hall hhead
      obtain ⟨hc, hall⟩ := List.forall_mem_cons.mp hall
      obtain ⟨-, hdigit⟩ := toDigits_digit hc
      have hcons : Nat.ofDigitChars 10 (c :: digits) 0 = Nat.ofDigitChars 10 digits (c.toNat - 48) := by
        rw [Nat.ofDigitChars_cons, Nat.mul_zero, Nat.zero_add]
        rfl
      rw [hcons]
      rcases Nat.eq_zero_or_pos (c.toNat - 48) with hzero | hpos
      · -- a zero is the only digit
        rw [hzero] at hdigit ⊢
        cases digits with
        | nil => exact hdigit.symm
        | cons d digits =>
          obtain rfl : '0' = c := by simpa using hdigit
          exact absurd rfl (hhead (by simp))
      · rw [toDigits_ofDigitChars hall hpos, hdigit]
        rfl
  · rintro ⟨hn, rfl⟩
    rw [String.toList_ofList]
    refine ⟨⟨Nat.toDigits_ne_nil, ?_, ?_⟩, ?_, Nat.ofDigitChars_ten_toDigits, hn⟩
    · exact (Nat.length_toDigits_le_iff (by decide) (by decide)).mpr (hn.trans_lt (by decide))
    · exact fun c hc => Nat.isDigit_of_mem_toDigits (by decide) (by decide) hc
    · intro hlen
      refine head?_toDigits (Nat.pos_of_ne_zero ?_)
      rintro rfl
      simp at hlen

end Atom

namespace AtomTable

open Atom (firstDynamic parseIndex indexTag)

variable {t t' : AtomTable} {a b : Atom} {name : String} {e : AtomEntry} {id : Nat}

/-- A table that use of the predefined one leads to. Symbols are of the kinds that are not found by
name. -/
inductive Reachable : AtomTable → Prop
  | initial : Reachable initial
  | intern {t : AtomTable} (h : Reachable t) (name : String) : Reachable (t.intern name).2
  | newSymbol {t : AtomTable} (h : Reachable t) (name : String) {kind : AtomKind}
      (hkind : kind ≠ .string) : Reachable (t.newSymbol name kind).2
  | retain {t : AtomTable} (h : Reachable t) (a : Atom) : Reachable (t.retain a)
  | release {t : AtomTable} (h : Reachable t) (a : Atom) : Reachable (t.release a)

/-- The entry of a handle, if there is one. -/
def entryAt (t : AtomTable) (id : Nat) : Option AtomEntry :=
  (t.entries[id]?).join

structure Sound (t : AtomTable) : Prop where
  size : firstDynamic ≤ t.entries.size
  permanent : ∀ id < firstDynamic, ∀ e, t.entryAt id = some e → e.permanent = true
  free : ∀ id ∈ t.free, firstDynamic ≤ id ∧ id < t.entries.size ∧ t.entryAt id = none
  nodup : t.free.Nodup
  interned : ∀ id e, firstDynamic ≤ id → t.entryAt id = some e → e.kind = .string →
    parseIndex e.name = none ∧ t.find? e.name = some id

/-! ## Entries and names -/

theorem entryAt_eq_none_of_size_le (h : t.entries.size ≤ id) : t.entryAt id = none := by
  rw [entryAt, Array.getElem?_eq_none h]
  rfl

theorem lt_of_entryAt (h : t.entryAt id = some e) : id < t.entries.size := by
  by_contra hlt
  exact nomatch (entryAt_eq_none_of_size_le (not_lt.mp hlt)).symm.trans h

theorem entryAt_setEntry (t : AtomTable) (a : Atom) (e : Option AtomEntry) (id : Nat) :
    (t.setEntry a e).entryAt id = if id = a.id ∧ id < t.entries.size then e else t.entryAt id := by
  unfold entryAt setEntry
  dsimp only
  rw [Array.getElem?_setIfInBounds]
  by_cases hid : a.id = id
  · by_cases hsize : a.id < t.entries.size
    · rw [if_pos hid, if_pos hsize, if_pos ⟨hid.symm, hid ▸ hsize⟩]
      rfl
    · rw [if_pos hid, if_neg hsize, if_neg (by omega), Array.getElem?_eq_none (by omega)]
  · rw [if_neg hid, if_neg (by omega)]

theorem entry?_of_some (h : t.entry? a = some e) (t' : AtomTable) : t'.entry? a = t'.entryAt a.id := by
  unfold entry? at h ⊢
  split at h
  · cases h
  · exact if_neg ‹_›

theorem entry?_eq_some (h : t.entry? a = some e) : t.entryAt a.id = some e ∧ a.id < t.entries.size := by
  have hat := (entry?_of_some h t).symm.trans h
  exact ⟨hat, lt_of_entryAt hat⟩

theorem exists_of_isNamed {found} (h : isNamed name found) : ∃ e, found = some e ∧ e.kind = .string ∧ e.name = name := by
  cases found with
  | none => cases h
  | some e => exact ⟨e, rfl, by simpa [isNamed] using h⟩

theorem find?_eq_some_iff :
    t.find? name = some id ↔
      isNamed name (t.entryAt id) ∧ ∀ j < id, isNamed name (t.entryAt j) = false := by
  have hat : ∀ j (h : j < t.entries.toList.length), t.entryAt j = t.entries.toList[j] := by
    intro j h
    rw [Array.length_toList] at h
    simp [entryAt, h]
  unfold find?
  rw [List.findIdx?_eq_some_iff_getElem]
  constructor
  · rintro ⟨hlen, hnamed, hbefore⟩
    refine ⟨by rw [hat id hlen]; exact hnamed, ?_⟩
    intro j hj
    rw [hat j (by omega)]
    simpa using hbefore j hj
  · rintro ⟨hnamed, hbefore⟩
    obtain ⟨e, he, -⟩ := exists_of_isNamed hnamed
    have hlen : id < t.entries.toList.length := lt_of_entryAt he
    refine ⟨hlen, by rw [← hat id hlen]; exact hnamed, ?_⟩
    intro j hj
    rw [← hat j (by omega), hbefore j hj]
    simp

/-- Where a name is found depends only on which entries have it. -/
theorem find?_congr (h : ∀ id, isNamed name (t'.entryAt id) = isNamed name (t.entryAt id)) :
    t'.find? name = t.find? name := by
  apply Option.ext
  intro id
  simp only [find?_eq_some_iff, h]

theorem find?_eq_none_iff : t.find? name = none ↔ ∀ id, isNamed name (t.entryAt id) = false := by
  constructor
  · intro h id
    by_cases hsize : id < t.entries.size
    · have hall := List.findIdx?_eq_none_iff.mp h
      have hmem : t.entryAt id ∈ t.entries.toList := by
        simp [entryAt, hsize]
      exact hall _ hmem
    · rw [entryAt_eq_none_of_size_le (by omega)]
      rfl
  · intro h
    cases hfind : t.find? name with
    | none => rfl
    | some id =>
      have := (find?_eq_some_iff.mp hfind).1
      rw [h id] at this
      cases this

theorem isNamed_of_kind (h : e.kind = .string) : isNamed e.name (some e) := by
  simp [isNamed, h]

/-- An entry that is not predefined is the one that its name is interned to. -/
theorem Sound.find?_of_isNamed (h : t.Sound) (hid : firstDynamic ≤ id) (hnamed : isNamed name (t.entryAt id)) :
    t.find? name = some id := by
  obtain ⟨e, he, hkind, rfl⟩ := exists_of_isNamed hnamed
  exact (h.interned id e hid he hkind).2

theorem Sound.isNamed_other (h : t.Sound) (hid : firstDynamic ≤ id) (hfind : t.find? name = some id) {j}
    (hj : j ≠ id) : isNamed name (t.entryAt j) = false := by
  by_contra hnamed
  rw [Bool.not_eq_false] at hnamed
  rcases Nat.lt_or_gt_of_ne hj with hlt | hgt
  · exact nomatch hnamed.symm.trans ((find?_eq_some_iff.mp hfind).2 j hlt)
  · have hfind' := h.find?_of_isNamed (hid.trans hgt.le) hnamed
    exact hj (Option.some.inj (hfind'.symm.trans hfind))

/-! ## What each operation does to the entries -/

/-- A table with another entry for one handle, which is not predefined. -/
structure Updates (t : AtomTable) (id : Nat) (new : Option AtomEntry) (t' : AtomTable) : Prop where
  dynamic : firstDynamic ≤ id
  inside : id ≤ t.entries.size
  size : t'.entries.size = max t.entries.size (id + 1)
  entryAt_eq : ∀ j, t'.entryAt j = if j = id then new else t.entryAt j

theorem Updates.entryAt_of_lt {new j} (h : Updates t id new t') (hj : j < firstDynamic) :
    t'.entryAt j = t.entryAt j := by
  rw [h.entryAt_eq, if_neg (Nat.ne_of_lt (hj.trans_le h.dynamic))]

/-- A table stays sound if the new entry has a name of its own and handles are only freed with their entries. -/
theorem Sound.update {new} (h : t.Sound) (hup : Updates t id new t') (hnodup : t'.free.Nodup)
    (hfree : ∀ j ∈ t'.free, j ≠ id ∧ j ∈ t.free ∨ j = id ∧ new = none)
    (hnew : ∀ e, new = some e → e.kind = .string →
      parseIndex e.name = none ∧ ∀ j ≠ id, isNamed e.name (t.entryAt j) = false) : t'.Sound where
  size := h.size.trans (hup.size ▸ Nat.le_max_left _ _)
  permanent := fun j hj e he => h.permanent j hj e (hup.entryAt_of_lt hj ▸ he)
  free := by
    intro j hj
    rw [hup.size, hup.entryAt_eq]
    rcases hfree j hj with ⟨hne, hj⟩ | ⟨rfl, rfl⟩
    · obtain ⟨hdynamic, hsize, hnone⟩ := h.free j hj
      exact ⟨hdynamic, hsize.trans_le (Nat.le_max_left _ _), (if_neg hne).trans hnone⟩
    · exact ⟨hup.dynamic, Nat.le_max_right _ _, if_pos rfl⟩
  nodup := hnodup
  interned := by
    intro j e hj he hkind
    rw [hup.entryAt_eq] at he
    split at he
    · rename_i heq
      obtain ⟨hparse, hothers⟩ := hnew e he hkind
      refine ⟨hparse, find?_eq_some_iff.mpr ⟨?_, fun k hk => ?_⟩⟩
      · rw [hup.entryAt_eq, if_pos heq, he]
        exact isNamed_of_kind hkind
      · rw [hup.entryAt_eq, if_neg (by omega)]
        exact hothers k (by omega)
    · rename_i hne
      obtain ⟨hparse, hfind⟩ := h.interned j e hj he hkind
      refine ⟨hparse, (find?_congr fun k => ?_).trans hfind⟩
      rw [hup.entryAt_eq]
      split
      · -- neither the old entry nor the new one has the name of this one
        rename_i hk
        rw [hk, h.isNamed_other hj hfind (Ne.symm hne)]
        by_contra hnamed
        obtain ⟨e', rfl, hkind', hname⟩ := exists_of_isNamed (Bool.not_eq_false _ ▸ hnamed)
        have hother := (hnew e' rfl hkind').2 j hne
        rw [hname, he, isNamed_of_kind hkind] at hother
        cases hother
      · rfl

/-- A new entry goes where there was none. -/
structure Added (t : AtomTable) (e : AtomEntry) (id : Nat) (t' : AtomTable) : Prop extends Updates t id (some e) t' where
  vacant : t.entryAt id = none
  free : t'.free.Sublist t.free
  used : id ∉ t'.free

theorem Sound.insert (h : t.Sound) (name : String) (kind : AtomKind) :
    Added t ⟨name, kind, 1, false⟩ (t.insert name kind).1.id (t.insert name kind).2 := by
  unfold AtomTable.insert
  cases hfree : t.free with
  | nil =>
    refine ⟨⟨h.size, le_rfl, by simp, fun j => ?_⟩, entryAt_eq_none_of_size_le le_rfl, by simp [hfree],
      by simp⟩
    unfold entryAt
    dsimp only
    rw [Array.getElem?_push]
    split <;> rfl
  | cons id rest =>
    have hnodup := h.nodup
    rw [hfree, List.nodup_cons] at hnodup
    obtain ⟨hdynamic, hsize, hnone⟩ := h.free id (by simp [hfree])
    refine ⟨⟨hdynamic, hsize.le, ?_, fun j => ?_⟩, hnone, by simp [hfree], hnodup.1⟩
    · rw [Nat.max_eq_left hsize]
      simp [AtomTable.setEntry]
    · exact (entryAt_setEntry t ⟨id⟩ _ j).trans (if_congr (and_iff_left_of_imp fun hj => hj ▸ hsize) rfl rfl)

theorem Sound.setEntry (h : t.Sound) (hentry : t.entry? a = some e) (hperm : e.permanent = false)
    (new : Option AtomEntry) : Updates t a.id new (t.setEntry a new) := by
  obtain ⟨hat, hsize⟩ := entry?_eq_some hentry
  refine ⟨?_, hsize.le, ?_, fun j => ?_⟩
  · by_contra hlt
    exact nomatch hperm.symm.trans (h.permanent a.id (by omega) e hat)
  · rw [Nat.max_eq_left hsize]
    simp [AtomTable.setEntry]
  · exact (entryAt_setEntry t a new j).trans (if_congr (and_iff_left_of_imp fun hj => hj ▸ hsize) rfl rfl)

theorem Sound.notMem_free (h : t.Sound) (hat : t.entryAt id = some e) : id ∉ t.free :=
  fun hmem => nomatch hat.symm.trans (h.free id hmem).2.2

/-- What a table goes through unless an atom is given back: nothing, another number of references, or a new entry. -/
inductive Grows (t : AtomTable) : AtomTable → Prop
  | same : Grows t t
  | count {t' : AtomTable} {id : Nat} {e : AtomEntry} {refs : Nat} (entry : t.entryAt id = some e)
      (up : Updates t id (some { e with refs }) t') (free : t'.free = t.free) : Grows t t'
  | add {t' : AtomTable} {id : Nat} {e : AtomEntry} (added : Added t e id t')
      (name : e.kind = .string → parseIndex e.name = none ∧ t.find? e.name = none) : Grows t t'

theorem Sound.grows (h : t.Sound) (hgrows : Grows t t') : t'.Sound := by
  cases hgrows with
  | same => exact h
  | count hat hup hfree =>
    refine h.update hup (hfree ▸ h.nodup) (fun j hj => .inl ?_) fun e' he' hkind => ?_
    · rw [hfree] at hj
      refine ⟨?_, hj⟩
      rintro rfl
      exact h.notMem_free hat hj
    · cases he'
      obtain ⟨hparse, hfind⟩ := h.interned _ _ hup.dynamic hat hkind
      exact ⟨hparse, fun j hj => h.isNamed_other hup.dynamic hfind hj⟩
  | add hadd hname =>
    refine h.update hadd.toUpdates (hadd.free.nodup h.nodup) (fun j hj => .inl ?_) fun e' he' hkind => ?_
    · exact ⟨fun heq => hadd.used (heq ▸ hj), hadd.free.subset hj⟩
    · cases he'
      exact ⟨(hname hkind).1, fun j _ => find?_eq_none_iff.mp (hname hkind).2 j⟩

namespace Grows

theorem entryAt (h : Grows t t') (hat : t.entryAt id = some e) : ∃ refs, t'.entryAt id = some { e with refs } := by
  cases h with
  | same => exact ⟨e.refs, hat⟩
  | count hat' hup =>
    rw [hup.entryAt_eq]
    split
    · rename_i heq
      cases (heq ▸ hat).symm.trans hat'
      exact ⟨_, rfl⟩
    · exact ⟨e.refs, hat⟩
  | add hadd =>
    rw [hadd.entryAt_eq, if_neg]
    · exact ⟨e.refs, hat⟩
    · rintro rfl
      exact nomatch hadd.vacant.symm.trans hat

theorem entryAt_of_lt (h : Grows t t') (hid : id < firstDynamic) : t'.entryAt id = t.entryAt id := by
  cases h with
  | same => rfl
  | count _ hup => exact hup.entryAt_of_lt hid
  | add hadd => exact hadd.entryAt_of_lt hid

theorem size (h : Grows t t') : t.entries.size ≤ t'.entries.size ∧ t'.entries.size ≤ t.entries.size + 1 := by
  cases h with
  | same => exact ⟨le_rfl, Nat.le_succ _⟩
  | count _ hup | add hup =>
    have hsize := hup.size
    have hinside := hup.inside
    omega

/-- The new entry has another name, and stands where there was none. -/
theorem find? (h : Grows t t') (hfind : t.find? name = some id) : t'.find? name = some id := by
  refine (find?_congr fun j => ?_).trans hfind
  cases h with
  | same => rfl
  | count hat hup =>
    rw [hup.entryAt_eq]
    split
    · rename_i heq
      rw [heq, hat]
      rfl
    · rfl
  | add hadd hname =>
    rw [hadd.entryAt_eq]
    split
    · rename_i heq
      rw [heq, hadd.vacant]
      by_contra hnamed
      obtain ⟨e', he', hkind, rfl⟩ := exists_of_isNamed (Bool.not_eq_false _ ▸ hnamed)
      cases he'
      exact nomatch (hname hkind).2.symm.trans hfind
    · rfl

end Grows

/-! ## Every use -/

set_option maxRecDepth 4096 in
theorem sound_initial : initial.Sound := by
  have hsize : initial.entries.size = firstDynamic := by decide
  have hpermanent : ∀ e ∈ initial.entries.toList, ∀ e' ∈ e, e'.permanent := by decide
  have hentry : ∀ id e, initial.entryAt id = some e → id < firstDynamic := by
    intro id e he
    by_contra hlt
    rw [entryAt_eq_none_of_size_le (by omega)] at he
    cases he
  refine ⟨hsize.symm.le, ?_, by simp [initial], by simp [initial], ?_⟩
  · intro id hid e he
    have hlt : id < initial.entries.size := by omega
    refine hpermanent (initial.entryAt id) ?_ e he
    simp [entryAt, hlt]
  · intro id e hid he
    have := hentry id e he
    omega

theorem entry?_lt (h : t.entry? a = some e) : a.id < indexTag := by
  by_contra hlt
  exact nomatch (if_pos (decide_eq_true (not_lt.mp hlt))).symm.trans h

/-- An atom is taken or given back: the references of its entry change, and without any it goes. -/
inductive Recounts (t : AtomTable) (a : Atom) (count : Nat → Nat) : AtomTable → Prop
  | same (permanent : ∀ e, t.entry? a = some e → e.permanent = true) : Recounts t a count t
  | count {e : AtomEntry} (entry : t.entry? a = some e) (permanent : e.permanent = false) (live : count e.refs ≠ 0) :
      Recounts t a count (t.setEntry a (some { e with refs := count e.refs }))
  | remove {e : AtomEntry} (entry : t.entry? a = some e) (permanent : e.permanent = false) (gone : count e.refs = 0) :
      Recounts t a count { t.setEntry a none with free := a.id :: t.free }

theorem recounts_retain (t : AtomTable) (a : Atom) : Recounts t a (· + 1) (t.retain a) := by
  unfold AtomTable.retain
  cases hentry : t.entry? a with
  | none => exact .same (hentry ▸ nofun)
  | some e =>
    dsimp only
    split
    · rename_i hperm
      exact .same fun e' he' => Option.some.inj (hentry.symm.trans he') ▸ hperm
    · exact .count hentry (Bool.not_eq_true _ ▸ ‹_›) (Nat.succ_ne_zero _)

theorem recounts_release (t : AtomTable) (a : Atom) : Recounts t a (· - 1) (t.release a) := by
  unfold AtomTable.release
  cases hentry : t.entry? a with
  | none => exact .same (hentry ▸ nofun)
  | some e =>
    dsimp only
    split
    · rename_i hperm
      exact .same fun e' he' => Option.some.inj (hentry.symm.trans he') ▸ hperm
    · rename_i hperm
      rw [Bool.not_eq_true] at hperm
      split
      · exact .remove hentry hperm ‹_›
      · exact .count hentry hperm ‹_›

namespace Recounts

variable {count : Nat → Nat}

theorem grows (h : Recounts t a count t') (ht : t.Sound) (hcount : ∀ n, count n ≠ 0) : Grows t t' := by
  cases h with
  | same => exact .same
  | count hentry hperm => exact .count (entry?_eq_some hentry).1 (ht.setEntry hentry hperm _) rfl
  | remove _ _ hgone => exact absurd hgone (hcount _)

theorem sound (h : Recounts t a count t') (ht : t.Sound) : t'.Sound := by
  cases h with
  | same => exact ht
  | count hentry hperm => exact ht.grows (.count (entry?_eq_some hentry).1 (ht.setEntry hentry hperm _) rfl)
  | remove hentry hperm =>
    obtain ⟨hat, -⟩ := entry?_eq_some hentry
    have hup := ht.setEntry hentry hperm none
    refine ht.update ⟨hup.dynamic, hup.inside, hup.size, hup.entryAt_eq⟩
      (List.nodup_cons.mpr ⟨ht.notMem_free hat, ht.nodup⟩) (fun j hj => ?_) nofun
    by_cases heq : j = a.id
    · exact .inr ⟨heq, rfl⟩
    · exact .inl ⟨heq, (List.mem_cons.mp hj).resolve_left heq⟩

theorem entryAt_of_lt (h : Recounts t a count t') (ht : t.Sound) (hid : id < firstDynamic) :
    t'.entryAt id = t.entryAt id := by
  cases h with
  | same => rfl
  | count hentry hperm | remove hentry hperm => exact (ht.setEntry hentry hperm _).entryAt_of_lt hid

end Recounts

/-! ## The atom of a name -/

/-- The atom that a name has: the number it spells, or its string entry. -/
def atom? (t : AtomTable) (name : String) : Option Atom :=
  match (parseIndex name).bind Atom.ofIndex? with
  | some a => some a
  | none => (t.find? name).map (⟨·⟩)

theorem ofIndex?_parseIndex {n} (h : parseIndex name = some n) : Atom.ofIndex? n = some ⟨n + indexTag⟩ :=
  if_pos (Atom.parseIndex_eq_some_iff.mp h).1

theorem atom?_eq_some_iff :
    t.atom? name = some a ↔ (∃ n, parseIndex name = some n ∧ a = ⟨n + indexTag⟩) ∨
      parseIndex name = none ∧ t.find? name = some a.id := by
  unfold atom?
  cases hparse : parseIndex name with
  | some n => simp [ofIndex?_parseIndex hparse, eq_comm]
  | none =>
    simp only [Option.bind_none, Option.map_eq_some_iff, reduceCtorEq, false_and, exists_false, false_or, true_and]
    constructor
    · rintro ⟨id, hfind, rfl⟩
      exact hfind
    · exact fun hfind => ⟨a.id, hfind, rfl⟩

/-- Interning takes the atom that a name has, or makes one. -/
theorem intern_cases (t : AtomTable) (name : String) :
    t.atom? name = some (t.intern name).1 ∧ Recounts t (t.intern name).1 (· + 1) (t.intern name).2 ∨
      t.atom? name = none ∧ parseIndex name = none ∧ t.find? name = none ∧
        t.intern name = t.insert name .string := by
  unfold AtomTable.intern atom?
  cases hparse : parseIndex name with
  | some n =>
    rw [Option.bind_some, ofIndex?_parseIndex hparse]
    exact .inl ⟨rfl, .same fun e he => absurd (entry?_lt he) (Nat.not_lt.mpr (Nat.le_add_left _ _))⟩
  | none =>
    rw [Option.bind_none]
    cases t.find? name with
    | some id => exact .inl ⟨rfl, recounts_retain t ⟨id⟩⟩
    | none => exact .inr ⟨rfl, rfl, rfl, rfl⟩

theorem Sound.grows_retain (h : t.Sound) (a : Atom) : Grows t (t.retain a) :=
  (recounts_retain t a).grows h Nat.succ_ne_zero

theorem Sound.grows_intern (h : t.Sound) (name : String) : Grows t (t.intern name).2 := by
  rcases t.intern_cases name with ⟨-, hrecounts⟩ | ⟨-, hparse, hfind, hrun⟩
  · exact hrecounts.grows h Nat.succ_ne_zero
  · rw [hrun]
    exact .add (h.insert name .string) fun _ => ⟨hparse, hfind⟩

theorem Sound.grows_newSymbol (h : t.Sound) (name : String) {kind : AtomKind} (hkind : kind ≠ .string) :
    Grows t (t.newSymbol name kind).2 :=
  .add (h.insert name kind) fun hstring => absurd hstring hkind

theorem Sound.retain (h : t.Sound) (a : Atom) : (t.retain a).Sound :=
  (recounts_retain t a).sound h

theorem Sound.intern (h : t.Sound) (name : String) : (t.intern name).2.Sound :=
  h.grows (h.grows_intern name)

theorem Reachable.sound (h : t.Reachable) : t.Sound := by
  induction h with
  | initial => exact sound_initial
  | intern _ name ih => exact ih.intern name
  | newSymbol _ name hkind ih => exact ih.grows (ih.grows_newSymbol name hkind)
  | retain _ a ih => exact ih.retain a
  | release _ a ih => exact (recounts_release _ a).sound ih

/-- Predefined entries stay as they are. -/
theorem Reachable.entryAt_of_lt (h : t.Reachable) (hid : id < firstDynamic) :
    t.entryAt id = AtomTable.initial.entryAt id := by
  induction h with
  | initial => rfl
  | intern ht name ih => exact ((ht.sound.grows_intern name).entryAt_of_lt hid).trans ih
  | newSymbol ht name hkind ih => exact ((ht.sound.grows_newSymbol name hkind).entryAt_of_lt hid).trans ih
  | retain ht a ih => exact ((recounts_retain _ a).entryAt_of_lt ht.sound hid).trans ih
  | release ht a ih => exact ((recounts_release _ a).entryAt_of_lt ht.sound hid).trans ih

/-- Names keep their atoms. -/
def Extends (t t' : AtomTable) : Prop :=
  ∀ name a, t.atom? name = some a → t'.atom? name = some a

theorem Extends.refl (t : AtomTable) : t.Extends t :=
  fun _ _ h => h

theorem Extends.trans {t''} (h : t.Extends t') (h' : t'.Extends t'') : t.Extends t'' :=
  fun name a ha => h' name a (h name a ha)

theorem Grows.extends (h : Grows t t') : t.Extends t' := by
  intro name a ha
  rw [atom?_eq_some_iff] at ha ⊢
  exact ha.imp_right (And.imp_right h.find?)

theorem Sound.extends_intern (ht : t.Sound) (name : String) : t.Extends (t.intern name).2 :=
  (ht.grows_intern name).extends

/-- A name is interned to the atom that it has then. -/
theorem Sound.atom?_intern (ht : t.Sound) (name : String) : (t.intern name).2.atom? name = some (t.intern name).1 := by
  have hsound := ht.intern name
  rcases t.intern_cases name with ⟨hatom, -⟩ | ⟨-, hparse, -, hrun⟩
  · exact ht.extends_intern name _ _ hatom
  · rw [hrun] at hsound ⊢
    have hadd := ht.insert name .string
    have hat := (hadd.entryAt_eq _).trans (if_pos rfl)
    exact atom?_eq_some_iff.mpr (.inr ⟨hparse, (hsound.interned _ _ hadd.dynamic hat rfl).2⟩)

/-! ## Interning what is there -/

/-- The table knows the name of a string atom that is not predefined. -/
def Knows (t : AtomTable) (a : Atom) (name : String) : Prop :=
  firstDynamic ≤ a.id ∧ ∃ e, t.entry? a = some e ∧ e.kind = .string ∧ e.name = name

theorem Grows.entry? (h : Grows t t') (hentry : t.entry? a = some e) :
    ∃ refs, t'.entry? a = some { e with refs } := by
  rw [entry?_of_some hentry]
  exact h.entryAt (entry?_eq_some hentry).1

theorem Knows.grows (h : t.Knows b name) (hgrows : Grows t t') : t'.Knows b name := by
  obtain ⟨hdynamic, e, hentry, hkind, hname⟩ := h
  obtain ⟨refs, hentry'⟩ := hgrows.entry? hentry
  exact ⟨hdynamic, _, hentry', hkind, hname⟩

theorem Knows.intern {known} (h : t.Knows a known) (ht : t.Sound) (name : String) : (t.intern name).2.Knows a known :=
  h.grows (ht.grows_intern name)

/-- A name that the table knows is interned to its atom. -/
theorem Sound.intern_of_knows (h : t.Sound) (hknows : t.Knows a name) : t.intern name = (a, t.retain a) := by
  obtain ⟨hdynamic, e, hentry, hkind, rfl⟩ := hknows
  obtain ⟨hat, -⟩ := entry?_eq_some hentry
  obtain ⟨hparse, hfind⟩ := h.interned a.id e hdynamic hat hkind
  unfold AtomTable.intern
  rw [hparse, Option.bind_none]
  simp only [hfind]

theorem entry?_name (h : t.entry? a = some e) : t.kind? a = some e.kind ∧ t.name? a = some e.name := by
  have hindex : a.isIndex = false := decide_eq_false (Nat.not_le.mpr (entry?_lt h))
  simp [kind?, AtomTable.name?, Atom.index?, hindex, h]

theorem Knows.name? (h : t.Knows a name) : t.name? a = some name := by
  obtain ⟨-, e, hentry, -, rfl⟩ := h
  exact (entry?_name hentry).2

theorem Knows.name_unique {name'} (h : t.Knows a name) (h' : t.Knows a name') : name = name' := by
  have hsame := h.name?.symm.trans h'.name?
  exact Option.some.inj hsame

/-- A name has one atom. -/
theorem Sound.atom_unique (h : t.Sound) (ha : t.Knows a name) (hb : t.Knows b name) : a = b := by
  have hsame := (h.intern_of_knows ha).symm.trans (h.intern_of_knows hb)
  exact congrArg Prod.fst hsame

/-- The atom of a name is a number, or the table has a string entry of that name for it. -/
theorem Sound.entry?_intern (ht : t.Sound) (name : String) :
    (t.intern name).1.isIndex ∨
      ∃ e, entry? (t.intern name).2 (t.intern name).1 = some e ∧ e.kind = .string ∧ e.name = name := by
  rcases atom?_eq_some_iff.mp (ht.atom?_intern name) with ⟨n, -, ha⟩ | ⟨-, hfind⟩
  · exact .inl (decide_eq_true (ha ▸ Nat.le_add_left _ _))
  · obtain ⟨e, hat, hkind, hname⟩ := exists_of_isNamed (find?_eq_some_iff.mp hfind).1
    cases hindex : (t.intern name).1.isIndex with
    | true => exact .inl rfl
    | false => exact .inr ⟨e, (if_neg (by simp [hindex])).trans hat, hkind, hname⟩

/-! ## Atoms with a name -/

/-- An atom that has a name: a predefined one, one that holds a number, or one of the table. -/
def Covers (t : AtomTable) (a : Atom) : Prop :=
  a.isPredefined = true ∨ (a.isIndex = true ∧ a.id < 0x100000000) ∨ (t.entryAt a.id).isSome = true

theorem Covers.has (h : t.Covers a) (ha : a.isPredefined = false) : t.has a := by
  unfold AtomTable.has entry?
  cases hindex : a.isIndex with
  | true => rfl
  | false =>
    rcases h with h | ⟨h, -⟩ | h
    · cases ha.symm.trans h
    · cases hindex.symm.trans h
    · exact h

theorem Grows.isSome_entryAt (h : Grows t t') (hsome : (t.entryAt id).isSome) : (t'.entryAt id).isSome := by
  obtain ⟨e, he⟩ := Option.isSome_iff_exists.mp hsome
  obtain ⟨refs, he'⟩ := h.entryAt he
  exact Option.isSome_of_eq_some he'

theorem Covers.intern (h : t.Covers a) (ht : t.Sound) (name : String) : (t.intern name).2.Covers a :=
  h.imp_right (·.imp_right (ht.grows_intern name).isSome_entryAt)

theorem covers_of_atom? (h : t.atom? name = some a) : t.Covers a := by
  rcases atom?_eq_some_iff.mp h with ⟨n, hparse, rfl⟩ | ⟨-, hfind⟩
  · have hn := (Atom.parseIndex_eq_some_iff.mp hparse).1
    exact .inr (.inl ⟨decide_eq_true (Nat.le_add_left ..), Nat.add_lt_add_right (Nat.lt_succ_of_le hn) _⟩)
  · obtain ⟨e, he, -⟩ := exists_of_isNamed (find?_eq_some_iff.mp hfind).1
    exact .inr (.inr (Option.isSome_of_eq_some he))

/-- The atom of a name has a name. -/
theorem Sound.covers_intern (ht : t.Sound) (name : String) : (t.intern name).2.Covers (t.intern name).1 :=
  covers_of_atom? (ht.atom?_intern name)

theorem Covers.id_lt (h : t.Covers a) (hsize : t.entries.size ≤ 0x100000000) : a.id < 0x100000000 := by
  rcases h with hpredefined | ⟨-, hlt⟩ | hentry
  · have hlt : a.id < firstDynamic := by simpa [Atom.isPredefined] using hpredefined
    exact hlt.trans (by decide)
  · exact hlt
  · obtain ⟨e, he⟩ := Option.isSome_iff_exists.mp hentry
    exact (lt_of_entryAt he).trans_le hsize

/-! ## Tables without gaps -/

/-- Every handle of the table is in use. -/
def Dense (t : AtomTable) : Prop :=
  ∀ id, 0 < id → id < t.entries.size → (t.entryAt id).isSome = true

theorem dense_initial : Dense initial := by
  intro id hpos hid
  obtain ⟨k, rfl⟩ := Nat.exists_eq_succ_of_ne_zero (Nat.ne_of_gt hpos)
  have hk : k < Atom.predefined.length := by simpa [initial] using hid
  simp [entryAt, initial, hk]

theorem Dense.grows (h : t.Dense) (hgrows : Grows t t') : t'.Dense := by
  intro j hpos hj
  by_cases hlt : j < t.entries.size
  · exact hgrows.isSome_entryAt (h j hpos hlt)
  · -- the table has one handle more, and it is the new one
    cases hgrows with
    | same => exact absurd hj hlt
    | count _ hup | add hup =>
      have hsize := hup.size
      have hinside := hup.inside
      rw [hup.entryAt_eq, if_pos (by omega)]
      rfl

theorem Dense.intern (h : t.Dense) (ht : t.Sound) (name : String) : (t.intern name).2.Dense :=
  h.grows (ht.grows_intern name)

/-- Where a handle is too large for its field, what is left of it is in use as well. -/
theorem Dense.covers_mod (h : t.Dense) (ha : t.Covers a) : t.Covers ⟨a.id % 0x100000000⟩ := by
  have hsame : a.id < 0x100000000 → t.Covers ⟨a.id % 0x100000000⟩ := by
    intro hlt
    rw [Nat.mod_eq_of_lt hlt]
    exact ha
  rcases ha with hpredefined | ⟨-, hlt⟩ | hentry
  · have hlt : a.id < firstDynamic := by simpa [Atom.isPredefined] using hpredefined
    exact hsame (hlt.trans (by decide))
  · exact hsame hlt
  · obtain ⟨e, he⟩ := Option.isSome_iff_exists.mp hentry
    have hsize := lt_of_entryAt he
    rcases Nat.eq_zero_or_pos (a.id % 0x100000000) with hzero | hpos
    · rw [hzero]
      exact .inl rfl
    · exact .inr (.inr (h _ hpos ((Nat.mod_le _ _).trans_lt hsize)))

end AtomTable

end ScriptBytecode
