import ScriptBytecode.Proofs.ObjectRewriting

/-!
# Atoms of another table

Tables agree on the predefined atoms and on those that hold a number. A name of the rest has an atom of its own in each
table, and `AtomTable.translate` leads from one to the other.
-/

namespace ScriptBytecode.AtomTable

/-! ## What all tables have in common -/

variable {t t' : AtomTable} {a b : Atom} {name : String}

theorem Knows.isStatic (h : t.Knows a name) : a.isStatic = false := by
  obtain ⟨hdynamic, e, hentry, -⟩ := h
  have hlt := entry?_lt hentry
  simp [Atom.isStatic, Atom.isIndex, Atom.isPredefined, hdynamic, hlt]

/-- Each atom is replaced by one of the same name, where the other table has one. -/
structure Translates (t t' : AtomTable) (ρ : Atom → Atom) : Prop where
  static : ∀ a, a.isStatic = true → ρ a = a
  named : ∀ a b name, t.Knows a name → t'.Knows b name → ρ a = b

/-- The atoms that a table gives to names take the place of those that another one has for them. -/
theorem Translates.map {ρ} (hρ : t.Translates t' ρ) {atoms targets names} (h : List.Forall₂ t.Knows atoms names)
    (h' : List.Forall₂ t'.Knows targets names) : atoms.map ρ = targets := by
  induction h generalizing targets with
  | nil => exact (List.forall₂_nil_right_iff.mp h').symm
  | cons hknows _ ih =>
    obtain ⟨b, targets, hb, hrest, rfl⟩ := List.forall₂_cons_right_iff.mp h'
    rw [List.map_cons, hρ.named _ _ _ hknows hb, ih hrest]

end ScriptBytecode.AtomTable
