import ScriptBytecode.Compiler
import ScriptBytecode.Proofs.Result

/-!
# Built records

What the record of a function is made of, and the functions that it holds.
-/

namespace ScriptBytecode

namespace FunctionRecord

/-- A function with the functions inside it, however deep. -/
inductive Holds : FunctionRecord → FunctionRecord → Prop
  | self (f : FunctionRecord) : Holds f f
  | child {f g inner : FunctionRecord} (mem : g ∈ f.children) (holds : Holds g inner) : Holds f inner

theorem mem_children {f : FunctionRecord} {g} : g ∈ f.children ↔ ∃ id, .function id g ∈ f.constants := by
  unfold children
  rw [List.mem_filterMap]
  constructor
  · rintro ⟨v, hv, hg⟩
    split at hg
    · cases hg
      exact ⟨_, hv⟩
    · cases hg
  · rintro ⟨id, hv⟩
    exact ⟨_, hv, rfl⟩

end FunctionRecord

namespace Build

variable {ctx : BuildContext} {outer owner : Frame} {n n' : Nat}

/-- A constant is a value of the pool or the record of a nested function. -/
theorem constant_eq_ok {children c v} (h : (constant children c).run n = .ok (v, n')) :
    n' = n ∧ (c = .value v ∨ ∃ k, c = .function k ∧ children[k]? = some v) := by
  cases c with
  | value w =>
    cases h
    exact ⟨rfl, .inl rfl⟩
  | function k =>
    unfold constant at h
    dsimp only at h
    split at h
    · rename_i v' hv
      cases h
      exact ⟨rfl, .inr ⟨k, rfl, hv⟩⟩
    · cases h

theorem constants_eq_ok {children} {cs : List Constant} {vs} (h : (cs.mapM (constant children)).run n = .ok (vs, n')) :
    List.Forall₂ (fun c v => c = .value v ∨ ∃ k, c = .function k ∧ children[k]? = some v) cs vs := by
  induction cs generalizing n vs with
  | nil =>
    cases h
    exact .nil
  | cons c cs ih =>
    rw [List.mapM_cons] at h
    obtain ⟨v, n₁, hv, h⟩ := run_bind_eq_ok.mp h
    obtain ⟨vs', n₂, hvs, h⟩ := run_bind_eq_ok.mp h
    cases h
    exact .cons (constant_eq_ok hv).2 (ih hvs)

/-- The values of nested functions hold their records, in order. -/
theorem functions_eq_ok {ts vs} (h : (functions ctx owner ts).run n = .ok (vs, n')) :
    List.Forall₂ (fun t v => ∃ id g m m', v = .function id g ∧ (function ctx owner t).run m = .ok (g, m'))
      ts vs := by
  induction ts generalizing n vs with
  | nil =>
    cases h
    exact .nil
  | cons t ts ih =>
    unfold functions at h
    obtain ⟨g, n₁, hg, h⟩ := run_bind_eq_ok.mp h
    obtain ⟨id, n₂, -, h⟩ := run_bind_eq_ok.mp h
    obtain ⟨vs', n₃, hvs, h⟩ := run_bind_eq_ok.mp h
    cases h
    exact .cons ⟨id, g, n, n₁, rfl, hg⟩ (ih hvs)

/-- The parts of a function that was built. -/
theorem function_eq_ok {f code pool children r}
    (h : (function ctx outer ⟨f, code, pool, children⟩).run n = .ok (r, n')) :
    ∃ values assembled constants,
      List.Forall₂ (fun t v => ∃ id g m m', v = .function id g ∧
        (function ctx (if f.isArrow then outer else f) t).run m = .ok (g, m')) children values ∧
      f.checkLimits = .ok () ∧ finishCode ctx.options.optimizer code = .ok assembled ∧
      List.Forall₂ (fun c v => c = .value v ∨ ∃ k, c = .function k ∧ values[k]? = some v)
        pool.entries.toList constants ∧
      record ctx f (if f.isArrow then outer else f) assembled constants = .ok r := by
  unfold function at h
  obtain ⟨values, n₁, hvalues, h₁⟩ := run_bind_eq_ok.mp h
  obtain ⟨⟨⟩, n₂, hlimits, h₂⟩ := run_bind_eq_ok.mp h₁
  obtain ⟨assembled, n₃, hcode, h₃⟩ := run_bind_eq_ok.mp h₂
  obtain ⟨constants, n₄, hconstants, h₄⟩ := run_bind_eq_ok.mp h₃
  have hlimits := (run_lift_eq_ok.mp hlimits).1
  have hcode := (run_lift_eq_ok.mp hcode).1
  have hrecord := (run_lift_eq_ok.mp h₄).1
  refine ⟨values, assembled, constants, functions_eq_ok hvalues, hlimits, hcode, ?_, hrecord⟩
  simpa using constants_eq_ok hconstants

/-- Where the pool has no functions as values, those among the constants are nested functions. -/
theorem exists_child {pool : ConstantPool} {children values constants id g}
    (hvalues : List.Forall₂ (fun t v => ∃ id g m m', v = .function id g ∧
      (function ctx owner t).run m = .ok (g, m')) children values)
    (hpool : List.Forall₂ (fun c v => c = .value v ∨ ∃ k, c = .function k ∧ values[k]? = some v)
      pool.entries.toList constants) (hfree : .value (.function id g) ∉ pool.entries)
    (hg : .function id g ∈ constants) : ∃ t ∈ children, ∃ m m', (function ctx owner t).run m = .ok (g, m') := by
  obtain ⟨c, hc, hcv⟩ := exists_left_of_forall₂ hpool hg
  rcases hcv with rfl | ⟨k, -, hk⟩
  · exact absurd (Array.mem_toList_iff.mp hc) hfree
  · obtain ⟨t, ht, id', g', m, m', heq, hrun⟩ := exists_left_of_forall₂ hvalues (List.mem_of_getElem? hk)
    cases heq
    exact ⟨t, ht, m, m', hrun⟩

/-- A record takes its slots from the frame, and its stack size from the code. -/
theorem record_eq_ok {f code constants r} (h : record ctx f owner code constants = .ok r) :
    ∃ size cache, stackSize code.code = .ok size ∧
      r = { name := f.name
            flags := f.flags owner (debugInfo ctx f code.lines).isSome
            kind := f.kind
            mode := if f.strict then 1 else 0
            argCount := f.scopes.args.size
            varCount := f.scopes.vars.size
            definedArgCount := f.definedArgs
            stackSize := size
            slotVars := f.scopes.args.toList ++ f.scopes.vars.toList
            closureVars := f.closureVars.toList
            code := code.code
            debug := debugInfo ctx f code.lines
            constants
            cache } := by
  obtain ⟨size, hsize, h⟩ := bind_eq_ok.mp h
  obtain ⟨cache, -, h⟩ := bind_eq_ok.mp h
  cases h
  exact ⟨size, cache, hsize, rfl⟩

end Build

end ScriptBytecode
