import ScriptBytecode.Proofs.ObjectContents
import ScriptBytecode.Proofs.ObjectRewriting

/-!
# What is read can be written

The object format has many spellings for one value: numbers with groups that hold nothing, names that nothing uses or
that stand twice, wide text that could be narrow. Whatever spelling a reader accepts, its value can be written, and
from then on nothing changes.
-/

namespace ScriptBytecode.Object

/-- Whatever is read can be written, with references or without. Read once more it is the same value, and written once
more the same bytes. Handles have 32 bits, and so have the indices of references. -/
theorem encode_of_decode {t t' : AtomTable} (ht : t.Reachable) {bytes : Bytes} {v : Value}
    (h : decode bytes t ⟨true⟩ = .ok (v, t')) (hhandles : t'.entries.size ≤ 0x100000000) {o : WriteOptions}
    (hdebug : o.stripDebug = false) (hsource : o.stripSource = false)
    (hlength : o.allowReference = true → bytes.length < 0x100000000) :
    ∃ bytes' w t'', encode v t' o = .ok bytes' ∧ decode bytes' t' ⟨true⟩ = .ok (w, t'') ∧ w.same v = true ∧
      encode w t'' o = .ok bytes' := by
  obtain ⟨hsound, heap, hheap, hstable⟩ := decode_stable ht.sound h hhandles
  obtain ⟨bytes', hencode⟩ := exists_encode hstable.writable o
  have hsmall : o.allowReference = true → heap.length < 0x80000000 := by
    intro hallow
    have hlt := hlength hallow
    omega
  obtain ⟨s, names, hwritten⟩ := exists_written (p := .back t' o heap hsmall ⟨true⟩ fun _ => rfl) hstable.fits hencode
  have hatoms : (t'.internAll names).1 = s.atoms.toList :=
    internAll_of_knows hsound (hwritten.knows fun _ ha => ha)
  have hdynamic : ∀ a ∈ (t'.internAll names).1, a.isStatic = false := by
    rw [hatoms]
    exact fun a ha => isStatic_of_listed (hwritten.sound.listed a ha)
  obtain ⟨w, I, hdecode, hcopy, hencode'⟩ :=
    hwritten.rewrite (fun _ ha => ha) hsound ((List.map_id _).trans hatoms.symm) hdynamic hsound
  refine ⟨bytes', w, _, hencode, hdecode, ?_, hencode'⟩
  have hstored : v.stored o id = v := hstable.stored o hdebug hsource
  rw [← hstored]
  exact Value.same_of_mirrors _ w hcopy

/-- A count and a big integer with padding, a name that stands twice, one of them wide, and a name that is a number. The
items are an object and a reference to it. -/
def paddedItems : Bytes :=
  [2, 0x83, 0, 2, 0x78, 2, 0x37, 3, 0x78, 0] ++ [Tag.array.byte, 2, Tag.object.byte, 2] ++
    [0xa8, 3, Tag.bigInt.byte, 2, 5, 0] ++ [0xa6, 3, Tag.null.byte] ++ [Tag.reference.byte, 1]

theorem encode_of_decode_paddedItems :
    ∃ v t', decode paddedItems .initial ⟨true⟩ = .ok (v, t') ∧ t'.entries.size ≤ 0x100000000 ∧
      ∃ bytes' w t'', encode v t' ⟨true, false, false⟩ = .ok bytes' ∧ decode bytes' t' ⟨true⟩ = .ok (w, t'') ∧
        w.same v = true ∧ encode w t'' ⟨true, false, false⟩ = .ok bytes' := by
  have hsize : (decode paddedItems .initial ⟨true⟩).toOption.any (·.2.entries.size ≤ 0x100000000) = true := by
    decide +kernel
  cases hdecode : decode paddedItems .initial ⟨true⟩ with
  | error e =>
    rw [hdecode] at hsize
    cases hsize
  | ok result =>
    obtain ⟨v, t'⟩ := result
    rw [hdecode] at hsize
    have hhandles : t'.entries.size ≤ 0x100000000 := of_decide_eq_true hsize
    exact ⟨v, t', rfl, hhandles, encode_of_decode .initial hdecode hhandles rfl rfl fun _ => by decide⟩

end ScriptBytecode.Object
