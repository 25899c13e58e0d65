import ScriptBytecode.Object.Tag
import ScriptBytecode.Proofs.Codec

/-!
# Atoms in code, replaced and put back

Numbers in place of the atoms of code leave everything else of it as it is, so that the places of the
atoms are found again and the atoms can be put back.
-/

namespace ScriptBytecode

variable {pos total start : Nat} {bytes rest : Bytes} {shape : Shape} {i : Instr} {a : Atom} {b : UInt8}

/-! ## Instructions with other atoms -/

def Operand.mapAtom (f : Atom → Atom) : Operand → Operand
  | .atom a => .atom (f a)
  | .atomInt a n => .atomInt (f a) n
  | .atomLabel a l n => .atomLabel (f a) l n
  | other => other

def Located.mapAtom (f : Atom → Atom) (here : Located) : Located :=
  ⟨here.pos, ⟨here.instr.op, here.instr.arg.mapAtom f⟩⟩

variable {arg : Operand}

namespace Operand

@[simp] theorem atom?_mapAtom (f : Atom → Atom) (arg : Operand) : (arg.mapAtom f).atom? = arg.atom?.map f := by
  cases arg <;> rfl

@[simp] theorem label?_mapAtom (f : Atom → Atom) (arg : Operand) : (arg.mapAtom f).label? = arg.label? := by
  cases arg <;> rfl

theorem mapAtom_id (arg : Operand) : (arg.mapAtom fun a => ⟨a.id⟩) = arg := by
  cases arg <;> rfl

theorem mapAtom_of_none (h : arg.atom? = Option.none) (f : Atom → Atom) : arg.mapAtom f = arg := by
  cases arg <;> first | rfl | cases h

end Operand

namespace Shape

/-- An operand with an atom: the atom's field, and fields that do not depend on it. -/
theorem encode_of_hasAtom (h : shape.hasAtom) (hfits : shape.fits arg) (word : Nat) :
    ∃ a more, arg.atom? = some a ∧ a.id < Nat.pow 256 4 ∧
      ∀ f, shape.encode (arg.mapAtom f) word = leBytes 4 (f a).id ++ more ∧
        ((f a).id < Nat.pow 256 4 → shape.fits (arg.mapAtom f)) := by
  cases shape with
  | atom =>
    cases arg with
    | atom a => exact ⟨a, [], rfl, of_decide_eq_true hfits, fun f => ⟨(List.append_nil _).symm, decide_eq_true⟩⟩
    | _ => cases hfits
  | atomInt w =>
    cases arg with
    | atomInt a n =>
      simp only [fits, Bool.and_eq_true, decide_eq_true_eq] at hfits
      refine ⟨a, encode.number (.atomInt a n) w, rfl, hfits.1, fun f => ⟨rfl, fun ha => ?_⟩⟩
      simpa [fits, Operand.mapAtom] using ⟨ha, hfits.2⟩
    | _ => cases hfits
  | atomLabel w =>
    cases arg with
    | atomLabel a l n =>
      simp only [fits, Bool.and_eq_true, decide_eq_true_eq] at hfits
      refine ⟨a, leBytes 4 word ++ encode.number (.atomLabel a l n) w, rfl, hfits.1, fun f => ⟨?_, fun ha => ?_⟩⟩
      · exact List.append_assoc ..
      · simpa [fits, Operand.mapAtom] using ⟨ha, hfits.2⟩
    | _ => cases hfits
  | _ => cases h

theorem atom?_of_fits (h : shape.hasAtom = false) (hfits : shape.fits arg) : arg.atom? = none := by
  cases shape with
  | int signed w => cases signed <;> cases arg <;> first | rfl | cases hfits
  | _ => cases arg <;> first | rfl | cases hfits | cases h

end Shape

variable {code instrs : List Located}

namespace Object

/-! ## Patches -/

theorem patch_append {sites} {before : Bytes} (rest : Bytes) (h : ∀ site ∈ sites, pos + before.length ≤ site.1) :
    patch pos sites (before ++ rest) = before ++ patch (pos + before.length) sites rest := by
  cases sites with
  | nil => rfl
  | cons site sites =>
    obtain ⟨at_, n⟩ := site
    have hat : pos + before.length ≤ at_ := h (at_, n) List.mem_cons_self
    obtain ⟨k, rfl⟩ : ∃ k, at_ = pos + before.length + k := ⟨at_ - (pos + before.length), by omega⟩
    have hone : pos + before.length + k - pos = before.length + k := by omega
    have htwo : pos + before.length + k - (pos + before.length) = k := by omega
    rw [patch, patch, hone, htwo, Nat.add_assoc before.length, List.take_length_add_append,
      List.drop_length_add_append]
    simp only [List.append_assoc]

theorem patch_cons (pos n m : Nat) (sites : List (Nat × Nat)) (b : UInt8) (rest : Bytes) :
    patch pos ((pos + 1, n) :: sites) (b :: (leBytes 4 m ++ rest))
      = b :: (leBytes 4 n ++ patch (pos + 5) sites rest) := by
  have hone : pos + 1 - pos = 1 := by omega
  have hdrop : (b :: (leBytes 4 m ++ rest)).drop (1 + 4) = rest := by
    rw [Nat.add_comm, List.drop_succ_cons]
    exact List.drop_left' (length_leBytes 4 m)
  rw [patch, hone, hdrop]
  rfl

theorem atomSites_cons_of_atom (code : List Located) (h : i.op.format.hasAtom) (ha : i.arg.atom? = some a) :
    atomSites (⟨pos, i⟩ :: code) = (pos + 1, a) :: atomSites code := by
  simp [atomSites, h, ha]

theorem atomSites_cons_of_not (code : List Located) (h : i.op.format.hasAtom = false) :
    atomSites (⟨pos, i⟩ :: code) = atomSites code := by
  simp [atomSites, h]

theorem le_of_mem_reads {phase} (h : Decode.Reads phase total pos bytes code) : ∀ here ∈ code, pos ≤ here.pos := by
  induction h with
  | nil => simp
  | cons _ _ ih =>
    intro here hhere
    rcases List.mem_cons.mp hhere with rfl | hhere
    · exact le_rfl
    · have := ih here hhere
      omega

theorem atomSites_map (f : Atom → Atom) (code : List Located) :
    atomSites (code.map (Located.mapAtom f)) = (atomSites code).map fun site => (site.1, f site.2) := by
  simp only [atomSites, List.filterMap_map, List.map_filterMap]
  congr 1
  funext here
  simp only [Function.comp_apply, Located.mapAtom, Operand.atom?_mapAtom]
  split
  · cases here.instr.arg.atom? <;> rfl
  · rfl

section

variable (h : Decode.Reads .final total pos bytes code)
include h

theorem le_of_mem_atomSites : ∀ site ∈ atomSites code, pos ≤ site.1 := by
  intro site hsite
  obtain ⟨here, hhere, hsome⟩ := List.mem_filterMap.mp hsite
  have hle := le_of_mem_reads h here hhere
  split at hsome
  · obtain ⟨a, -, rfl⟩ := Option.map_eq_some_iff.mp hsome
    exact Nat.le_succ_of_le hle
  · cases hsome

/-- The atoms of code have 32-bit handles. -/
theorem id_lt_of_mem_atomSites : ∀ site ∈ atomSites code, site.2.id < Nat.pow 256 4 := by
  induction h with
  | nil => exact nofun
  | @cons pos b bytes rest i code hi _ ih =>
    cases hatom : i.op.format.hasAtom with
    | true =>
      obtain ⟨a, -, ha, hlt, -⟩ := Shape.encode_of_hasAtom hatom (Decode.instr_bounds hi).1 0
      rw [atomSites_cons_of_atom code hatom ha, List.forall_mem_cons]
      exact ⟨hlt, ih⟩
    | false =>
      rw [atomSites_cons_of_not code hatom]
      exact ih

/-! ## Code with numbers for its atoms -/

/-- A number for each atom of code, with its place. -/
def siteNumbers (f : Atom → Nat) (code : List Located) : List (Nat × Nat) :=
  (atomSites code).map fun site => (site.1, f site.2)

theorem le_of_mem_siteNumbers (f : Atom → Nat) : ∀ number ∈ siteNumbers f code, pos ≤ number.1 := by
  intro number hnumber
  obtain ⟨site, hsite, rfl⟩ := List.mem_map.mp hnumber
  exact le_of_mem_atomSites h site hsite

omit h in
/-- How a patch runs over the first instruction of code: its atom's field gets the number, everything else
of it stays. -/
theorem patch_reads_cons (hi : Decode.instr .final total pos b bytes = .ok (i, rest))
    (hrest : Decode.Reads .final total (pos + 1 + i.op.format.operandSize) rest code) :
    ∃ field : (Atom → Nat) → Bytes, (∀ f, (field f).length = i.op.format.operandSize) ∧
      bytes = field Atom.id ++ rest ∧
      (∀ f g rest', patch pos (siteNumbers g (⟨pos, i⟩ :: code)) (b :: (field f ++ rest'))
        = b :: (field g ++ patch (pos + 1 + i.op.format.operandSize) (siteNumbers g code) rest')) ∧
      ∀ f, (∀ site ∈ atomSites (⟨pos, i⟩ :: code), f site.2 < Nat.pow 256 4) → ∀ rest',
        Decode.instr .final total pos b (field f ++ rest')
          = .ok ((Located.mapAtom (fun a => ⟨f a⟩) ⟨pos, i⟩).instr, rest') := by
  obtain ⟨hfits, hbytes, -⟩ := Decode.instr_bounds hi
  have hnew := fun arg (h : i.op.format.shape.fits arg) => Decode.instr_replace hi h
  generalize Decode.labelWord .final _ _ _ = word at hbytes hnew
  have hsize := fun arg => i.op.format.shape.length_encode arg word
  refine ⟨fun f => i.op.format.shape.encode (i.arg.mapAtom fun a => ⟨f a⟩) word, fun f => hsize _, ?_, ?_, ?_⟩
  · dsimp only
    rw [Operand.mapAtom_id]
    exact (List.cons.inj hbytes).2
  · intro f g rest'
    have hle := le_of_mem_siteNumbers hrest g
    dsimp only
    cases hatom : i.op.format.hasAtom with
    | true =>
      obtain ⟨a, more, ha, -, hmore⟩ := Shape.encode_of_hasAtom hatom hfits word
      have hnumbers : siteNumbers g (⟨pos, i⟩ :: code) = (pos + 1, g a) :: siteNumbers g code := by
        rw [siteNumbers, atomSites_cons_of_atom code hatom ha]
        rfl
      have hnext : pos + 5 + more.length = pos + 1 + i.op.format.operandSize := by
        have := hsize (i.arg.mapAtom fun a => ⟨f a⟩)
        rw [(hmore _).1, List.length_append, length_leBytes] at this
        rw [Format.operandSize]
        omega
      rw [← hnext] at hle
      rw [(hmore _).1, (hmore _).1, hnumbers, List.append_assoc, patch_cons, patch_append rest' hle, hnext,
        List.append_assoc]
    | false =>
      have hnone := Operand.mapAtom_of_none (Shape.atom?_of_fits hatom hfits)
      have hnumbers : siteNumbers g (⟨pos, i⟩ :: code) = siteNumbers g code := by
        rw [siteNumbers, atomSites_cons_of_not code hatom]
        rfl
      have hnext : pos + (b :: i.op.format.shape.encode i.arg word).length = pos + 1 + i.op.format.operandSize := by
        rw [List.length_cons, hsize, Format.operandSize]
        omega
      rw [← hnext] at hle
      rw [hnone, hnone, hnumbers, ← List.cons_append, patch_append rest' hle, hnext, List.cons_append]
  · intro f hf rest'
    refine hnew _ ?_ (Operand.label?_mapAtom _ _) rest'
    cases hatom : i.op.format.hasAtom with
    | true =>
      obtain ⟨a, more, ha, -, hmore⟩ := Shape.encode_of_hasAtom hatom hfits word
      rw [atomSites_cons_of_atom code hatom ha, List.forall_mem_cons] at hf
      exact (hmore _).2 hf.1
    | false => rwa [Operand.mapAtom_of_none (Shape.atom?_of_fits hatom hfits)]

theorem patch_siteNumbers_id : patch pos (siteNumbers Atom.id code) bytes = bytes := by
  induction h with
  | nil pos => rfl
  | cons hi hrest ih =>
    obtain ⟨field, -, rfl, hpatch, -⟩ := patch_reads_cons hi hrest
    rw [hpatch, ih]

/-- Numbers that were put in first leave no trace. -/
theorem patch_patch (f g : Atom → Nat) : patch pos (siteNumbers g code) (patch pos (siteNumbers f code) bytes)
      = patch pos (siteNumbers g code) bytes := by
  induction h with
  | nil pos => rfl
  | cons hi hrest ih =>
    obtain ⟨field, -, rfl, hpatch, -⟩ := patch_reads_cons hi hrest
    rw [hpatch, hpatch, hpatch, ih]

theorem reads_patch {f} (hf : ∀ site ∈ atomSites code, f site.2 < Nat.pow 256 4) :
    (patch pos (siteNumbers f code) bytes).length = bytes.length ∧
      Decode.Reads .final total pos (patch pos (siteNumbers f code) bytes)
        (code.map (Located.mapAtom fun a => ⟨f a⟩)) := by
  induction h with
  | nil pos => exact ⟨rfl, .nil pos⟩
  | @cons pos b bytes rest i code hi hrest ih =>
    obtain ⟨field, hlen, rfl, hpatch, hinstr⟩ := patch_reads_cons hi hrest
    have htail : ∀ site ∈ atomSites code, f site.2 < Nat.pow 256 4 := by
      intro site hsite
      apply hf
      rw [atomSites, List.filterMap_cons]
      split
      · exact hsite
      · exact List.mem_cons_of_mem _ hsite
    obtain ⟨hlen', hreads⟩ := ih htail
    rw [hpatch]
    exact ⟨by simp [hlen', hlen], .cons (hinstr f hf _) hreads⟩

end

/-- Code with a number for each of its atoms. -/
def recode (f : Atom → Nat) (code : Bytes) : Bytes :=
  match decodeFinal code with
  | .ok instrs => patch 0 (siteNumbers f instrs) code
  | .error _ => code

theorem recode_of_decode {code} (h : decodeFinal code = .ok instrs) (f : Atom → Nat) :
    recode f code = patch 0 (siteNumbers f instrs) code := by
  rw [recode, h]

theorem recode_congr {code} (h : decodeFinal code = .ok instrs) {f g}
    (hfg : ∀ site ∈ atomSites instrs, f site.2 = g site.2) : recode f code = recode g code := by
  rw [recode_of_decode h, recode_of_decode h]
  congr 1
  apply List.map_congr_left
  intro site hsite
  rw [hfg site hsite]

theorem recode_id (code : Bytes) : recode Atom.id code = code := by
  unfold recode
  split
  · exact patch_siteNumbers_id (Decode.decode_eq_ok_iff.mp ‹_›)
  · rfl

/-- Numbers that are too large for their fields are cut off there. -/
theorem patch_mod (pos : Nat) (numbers : List (Nat × Nat)) (bytes : Bytes) :
    patch pos (numbers.map fun number => (number.1, number.2 % Nat.pow 256 4)) bytes = patch pos numbers bytes := by
  induction numbers generalizing pos bytes with
  | nil => rfl
  | cons number numbers ih =>
    have hfield := leBytes_ofLeBytes (leBytes 4 number.2)
    rw [length_leBytes, ofLeBytes_leBytes] at hfield
    rw [List.map_cons, patch, patch, ih, hfield]

theorem recode_mod (f : Atom → Nat) (code : Bytes) : recode (fun a => f a % Nat.pow 256 4) code = recode f code := by
  unfold recode
  split
  · rw [← patch_mod 0 (siteNumbers f _), siteNumbers, siteNumbers, List.map_map]
    rfl
  · rfl

theorem length_recode (f : Atom → Nat) (code : Bytes) : (recode f code).length = code.length := by
  rw [← recode_mod, recode]
  split
  · exact (reads_patch (Decode.decode_eq_ok_iff.mp ‹_›) fun site _ => Nat.mod_lt _ (by decide)).1
  · rfl

section

variable {code : Bytes} {instrs : List Located} (h : decodeFinal code = .ok instrs) {f : Atom → Nat}
  (hf : ∀ site ∈ atomSites instrs, f site.2 < Nat.pow 256 4)

include h hf

/-- Code with numbers for its atoms is read as code with those numbers. -/
theorem decodeFinal_recode : decodeFinal (recode f code) = .ok (instrs.map (Located.mapAtom fun a => ⟨f a⟩)) := by
  have hreads := (reads_patch (Decode.decode_eq_ok_iff.mp h) hf).2
  rw [← recode_of_decode h] at hreads
  rw [decodeFinal, Decode.decode_eq_ok_iff, length_recode]
  exact hreads

theorem recode_recode (g : Atom → Nat) : recode g (recode f code) = recode (fun a => g ⟨f a⟩) code := by
  have hnumbers : siteNumbers g (instrs.map (Located.mapAtom fun a => ⟨f a⟩))
      = siteNumbers (fun a => g ⟨f a⟩) instrs := by
    simp [siteNumbers, atomSites_map]
  rw [recode_of_decode (decodeFinal_recode h hf), hnumbers, recode_of_decode h, recode_of_decode h]
  exact patch_patch (Decode.decode_eq_ok_iff.mp h) _ _

end

/-- Whatever numbers stand for its atoms, code stays code. -/
theorem exists_decodeFinal_recode {code} (h : decodeFinal code = .ok instrs) (f : Atom → Nat) :
    ∃ instrs', decodeFinal (recode f code) = .ok instrs' := by
  rw [← recode_mod]
  exact ⟨_, decodeFinal_recode h fun site _ => Nat.mod_lt _ (by decide)⟩

end Object

end ScriptBytecode
