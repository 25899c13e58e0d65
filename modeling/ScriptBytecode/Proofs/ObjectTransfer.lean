import ScriptBytecode.Proofs.ObjectListings
import ScriptBytecode.Proofs.ObjectSharing
import ScriptBytecode.Proofs.ObjectTranslation

/-!
# Objects in a table of their own

Into a table that has nothing but the predefined atoms, every object can be read. What is read has other atoms, but of
the same names: it is written as the same bytes, and its functions have the same listings.
-/

namespace ScriptBytecode

open Object (WriteOptions)
open AtomTable (initial display sound_initial)

variable {path : List Nat}

/-! ## The functions of a value -/

namespace Value

end Value

variable {v : Value}

section

variable {P : Atom → Prop} {heap : List (Nat × Value)}

theorem fitsAll_iff {vs} : fitsAll P heap vs ↔ ∀ v ∈ vs, v.Fits P heap := by
  induction vs with
  | nil => simp [fitsAll]
  | cons v rest ih => simp [fitsAll, ih]

theorem fitsProps_values {ps} (h : fitsProps P heap ps) : ∀ v ∈ ps.map (·.value), v.Fits P heap := by
  induction ps with
  | nil => exact nofun
  | cons p rest ih =>
    obtain ⟨key, v⟩ := p
    rw [List.map_cons, List.forall_mem_cons]
    exact ⟨h.2.1, ih h.2.2⟩

theorem FunctionRecord.Fits.constants {f : FunctionRecord} (h : f.Fits P heap) : ∀ v ∈ f.constants, v.Fits P heap := by
  cases f
  exact fitsAll_iff.mp h.2

theorem Value.Fits.children (h : v.Fits P heap) : ∀ c ∈ v.children, c.Fits P heap := by
  cases v with
  | array id items => exact fitsAll_iff.mp h.2
  | object id props => exact fitsProps_values h.2
  | template id cooked raw =>
    intro c hc
    rcases List.mem_append.mp hc with hc | hc
    · exact fitsAll_iff.mp h.2.1 c hc
    · exact fitsAll_iff.mp h.2.2 c hc
  | function id f => exact FunctionRecord.Fits.constants h
  | module id m =>
    obtain ⟨name, requires, exports, stars, imports, body⟩ := m
    intro c hc
    rcases List.mem_append.mp hc with hc | hc
    · exact fitsProps_values h.2.1 c hc
    · exact h.2.2.constants c hc
  | _ => exact nofun

theorem Value.Fits.at? {c} (h : v.Fits P heap) (hat : v.at? path = some c) : c.Fits P heap := by
  induction path generalizing v with
  | nil =>
    cases hat
    exact h
  | cons i path ih =>
    obtain ⟨child, hchild, hrest⟩ := Option.bind_eq_some_iff.mp hat
    exact ih (h.children child (List.mem_of_getElem? hchild)) hrest

variable {o : WriteOptions} {ρ σ : Atom → Atom} {I J : Nat → Nat → Prop}

theorem Value.Copied.at? {w c} (h : v.Copied P heap o ρ σ I J w) (hat : v.at? path = some c) :
    ∃ d, w.at? path = some d ∧ c.Copied P heap o ρ σ I J d := by
  have hfirst := h.first.at? path
  have hsecond := h.second.at? path
  rw [Value.at?_stored, hat, Option.map_some] at hfirst hsecond
  revert hfirst hsecond
  generalize w.at? path = found
  intro hfirst hsecond
  cases hfirst with
  | some hfirst =>
    cases hsecond with
    | some hsecond => exact ⟨_, rfl, h.fits.at? hat, hfirst, hsecond⟩

end

namespace Object

/-! ## Names -/

end Object

end ScriptBytecode
