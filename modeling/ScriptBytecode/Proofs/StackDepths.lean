import ScriptBytecode.Proofs.Build
import ScriptBytecode.Proofs.Drafting.Code
import ScriptBytecode.Proofs.Naming
import ScriptBytecode.Proofs.Optimizer
import ScriptBytecode.Proofs.StackSize

/-!
# Stack depths of compiled programs

Main statement: in every function of a compiled program control comes to each instruction at one stack depth
only, finds the values that the instruction takes, and the stack size of the function is the greatest depth.
Programs with finalizers, empty sequences or a rest in the middle of an object pattern are left out.
-/

namespace ScriptBytecode

open Flow

/-- The code of a function can be read, and its paths agree on stack depths with each other and with the stack
size. -/
def FunctionRecord.IsMeasured (f : FunctionRecord) : Prop :=
  ∃ code, decodeFinal f.code = .ok code ∧ Measured code f.stackSize

namespace Build

/-- Every function of a tree with depths is built into a record with depths. -/
theorem isMeasured_function {ctx} {t : FunctionTree} (ht : t.HasDepths) :
    ∀ {outer : Frame} {n n' : Nat} {r f : FunctionRecord}, (function ctx outer t).run n = .ok (r, n') →
      r.Holds f → f.IsMeasured := by
  induction ht with
  | @mk frame code pool children depths _ hflows hinstrs hconstants _ ih =>
    intro outer n n' r f h hf
    obtain ⟨values, assembled, constants, hvalues, -, hcode, hpool, hrecord⟩ := function_eq_ok h
    obtain ⟨size, cache, hsize, rfl⟩ := record_eq_ok hrecord
    cases hf with
    | self =>
      have hconsistent : Consistent code := ⟨⟨_, hflows⟩, fun i hi => (hinstrs i hi).1⟩
      obtain ⟨read, D, hread, hD⟩ := depthsAt_finishCode hconsistent hcode
      exact ⟨read, hread, measured_stackSize hread hD hsize⟩
    | @child _ g _ hg hf =>
      -- a function among the constants is one of the nested functions
      obtain ⟨id, hmem⟩ := FunctionRecord.mem_children.mp hg
      obtain ⟨t, ht, m, m', hrun⟩ := exists_child hvalues hpool (fun h => nomatch hconstants _ h) hmem
      exact ih t ht hrun hf

end Build

/-- Control comes to each instruction of a compiled function at one depth of the stack only, no instruction takes
more values than there are, and the stack size is the greatest depth. -/
theorem Program.isMeasured_of_compile {p : Program} {options : CompileOptions} {c : Compiled}
    (hp : p.isRegular false = true) (h : p.compile options = .ok c) :
    ∃ body, c.function? = some body ∧ ∀ f, body.Holds f → f.IsMeasured := by
  obtain ⟨⟨tree, filename, s⟩, hemit, h⟩ := bind_eq_ok.mp h
  obtain ⟨⟨tree', naming⟩, hresolve, h⟩ := bind_eq_ok.mp h
  obtain ⟨value, hbuild, h⟩ := bind_eq_ok.mp h
  cases h
  have hdepths : tree.HasDepths := hasDepths_emitProgram hp hemit
  have hdepths' := (Naming.hasDepths_resolveTree hdepths hresolve).1
  obtain ⟨⟨f, nextId⟩, hfunction, hvalue⟩ := bind_eq_ok.mp hbuild
  refine ⟨f, ?_, fun g hg => Build.isMeasured_function hdepths' hfunction hg⟩
  dsimp only at hvalue
  split at hvalue
  · cases hvalue
    rfl
  · obtain ⟨m, hm, hvalue⟩ := bind_eq_ok.mp hvalue
    cases hvalue
    obtain ⟨exports, -, hm⟩ := bind_eq_ok.mp hm
    cases hm
    rfl

/-- The program `for (const [x] of a) try { if (x) continue; f(() => x); } catch { break; }`, where loops, handlers and
patterns have values on the stack while control leaves them. -/
def Program.leavingLoop : Program where
  body :=
    let x : Ident := ⟨"x", .unknown⟩
    let closure : FunctionNode := ⟨none, [], .expr (.ident x), false, false, true, none, .unknown⟩
    [.forOf (.decl ⟨.const, [⟨.array [some (.ident x)] .unknown, none, .unknown⟩], .unknown⟩)
      (.ident ⟨"a", .unknown⟩)
      (.tryCatch
        ⟨[.ifElse (.ident x) (.continueTo none .unknown) none .unknown,
          .expr (.call (.ident ⟨"f", .unknown⟩) [.arrow closure] false .unknown) .unknown], .unknown⟩
        (some ⟨none, ⟨[.breakTo none .unknown], .unknown⟩, .unknown⟩) none .unknown)
      false .unknown]
  sourceType := .script
  strict := false
  source := none
  span := .unknown

theorem Program.isMeasured_leavingLoop :
    leavingLoop.isRegular false = true ∧ ∃ c, leavingLoop.compile .standard = .ok c ∧
      ∃ body, c.function? = some body ∧ ∀ f, body.Holds f → f.IsMeasured := by
  have hregular : leavingLoop.isRegular false = true := by decide +kernel
  have hok : (leavingLoop.compile .standard).isOk = true := by decide +kernel
  cases hc : leavingLoop.compile .standard with
  | error e =>
    rw [hc] at hok
    cases hok
  | ok c => exact ⟨hregular, c, rfl, isMeasured_of_compile hregular hc⟩

end ScriptBytecode
