import Mathlib.Data.List.Permutation
import ScriptBytecode.ConstantPool

/-!
# Constants stand where they were put

Two constants are one if they have the same key: the bits of a primitive value, the identity of a compound one or the
number of a nested function. Main statement: an index that a pool gave holds the constant that it was given for,
whatever is added later, no pool holds a constant twice, and one that is there is not added again.
-/

namespace ScriptBytecode

/-- What tells a constant from others. -/
inductive Constant.Key where
  | primitive (v : Value)
  | compound (id : Nat)
  | function (n : Nat)

def Constant.key : Constant → Key
  | .value v => v.identity?.elim (.primitive v) .compound
  | .function n => .function n

theorem Constant.key_eq_function_iff {d : Constant} {n : Nat} : d.key = .function n ↔ d = .function n := by
  cases d with
  | function m => simp [key]
  | value w => cases hw : w.identity? <;> simp [key, hw]

/-- Deep equality of primitive values is equality; doubles are equal if their bits are. -/
theorem Value.same_iff_eq {v w : Value} (hv : v.identity? = none) (hw : w.identity? = none) :
    v.same w = true ↔ v = w := by
  cases v <;> first | cases hv; done | cases w <;> first | cases hw; done | simp [Value.same]

namespace ConstantPool

variable {p : ConstantPool} {c d : Constant} {i : Nat}

theorem holds_iff (v : Value) (d : Constant) : holds v d = true ↔ d.key = (Constant.value v).key := by
  cases d with
  | function n => cases hv : v.identity? <;> simp [holds, Constant.key, hv]
  | value w =>
    rw [eq_comm (a := Constant.key _)]
    cases hv : v.identity? <;> cases hw : w.identity? <;> simp [holds, isSame, Constant.key, hv, hw, Value.same_iff_eq]

theorem holdsFunction_iff (n : Nat) (d : Constant) : holdsFunction n d = true ↔ d.key = .function n := by
  rw [Constant.key_eq_function_iff]
  cases d <;> simp [holdsFunction, eq_comm (a := n)]

/-- The index of a constant, which is added if it is new. -/
def insert (p : ConstantPool) : Constant → Nat × ConstantPool
  | .value v => p.add v
  | .function n => p.addFunction n

/-- A constant is found or added at the end. -/
theorem insert_cases (p : ConstantPool) (c : Constant) :
    (∃ i d, p.get? i = some d ∧ d.key = c.key ∧ p.insert c = (i, p)) ∨
      (∀ d ∈ p.entries, d.key ≠ c.key) ∧ p.insert c = p.push c := by
  obtain ⟨f, hf, heq⟩ : ∃ f : Constant → Bool, (∀ d, f d = true ↔ d.key = c.key) ∧
      p.insert c = (p.entries.findIdx? f).elim (p.push c) (·, p) := by
    cases c with
    | value v => exact ⟨_, holds_iff v, by rw [insert, add]; split <;> simp [*]⟩
    | function n => exact ⟨_, holdsFunction_iff n, by rw [insert, addFunction]; split <;> simp [*]⟩
  rw [heq]
  cases hfind : p.entries.findIdx? f with
  | some i =>
    obtain ⟨hlt, hkey, -⟩ := Array.findIdx?_eq_some_iff_getElem.mp hfind
    exact .inl ⟨i, _, Array.getElem?_eq_getElem hlt, (hf _).mp hkey, rfl⟩
  | none =>
    refine .inr ⟨fun d hd hkey => ?_, rfl⟩
    exact Bool.noConfusion ((Array.findIdx?_eq_none_iff.mp hfind d hd).symm.trans ((hf d).mpr hkey))

/-- Constants keep their places. -/
theorem get?_insert (h : p.get? i = some d) (c : Constant) : (p.insert c).2.get? i = some d := by
  obtain ⟨_, _, -, -, heq⟩ | ⟨-, heq⟩ := p.insert_cases c
  · rwa [heq]
  · have hlt : i < p.entries.size := (Array.getElem?_eq_some_iff.mp h).1
    rw [heq]
    exact (Array.getElem?_push_lt hlt).trans ((Array.getElem?_eq_getElem hlt).symm.trans h)

theorem get?_insert_self (p : ConstantPool) (c : Constant) :
    ∃ d, (p.insert c).2.get? (p.insert c).1 = some d ∧ d.key = c.key := by
  obtain ⟨i, d, hget, hkey, heq⟩ | ⟨-, heq⟩ := p.insert_cases c
  · exact ⟨d, by rw [heq]; exact hget, hkey⟩
  · exact ⟨c, by rw [heq]; exact Array.getElem?_push_size, rfl⟩

/-- No constant is held twice. -/
def IsDistinct (p : ConstantPool) : Prop :=
  (p.entries.toList.map Constant.key).Nodup

theorem IsDistinct.insert (h : p.IsDistinct) (c : Constant) : (p.insert c).2.IsDistinct := by
  obtain ⟨_, _, -, -, heq⟩ | ⟨hnew, heq⟩ := p.insert_cases c
  · rwa [heq]
  · rw [heq]
    simpa [IsDistinct, push, List.nodup_append] using ⟨h, hnew⟩

end ConstantPool

end ScriptBytecode
