import ScriptBytecode.Proofs.Build
import ScriptBytecode.Proofs.Linking
import ScriptBytecode.Proofs.Naming.Names
import ScriptBytecode.Proofs.WellFormed

/-!
# Valid records

A record is valid if its code can be run without looking beside it: jumps lead to instructions, the code cannot be
left at its end, and operands and closure variables name what there is. A function whose names are resolved is built
into such a record.
-/

namespace ScriptBytecode

/-! ## Validity -/

namespace FunctionRecord

/-- The function has the entry of a table. A constant that closures are made of is a function. -/
def HasEntry (f : FunctionRecord) : Table → Nat → Prop
  | .vars, n => n < f.varCount
  | .args, n => n < f.argCount
  | .closureVars, n => n < f.closureVars.length
  | .constants, n => n < f.constants.length
  | .functions, n => ∃ id g, f.constants[n]? = some (.function id g)

/-- Operands have room for all indices of the table. Only constants can be too many, as the number of other entries is
limited when the record is built. -/
def HasRoom (f : FunctionRecord) : Table → Prop
  | .constants | .functions => f.constants.length ≤ 0x80000000
  | _ => True

/-- The function has what a closure variable of a function inside it is for. -/
def Provides (f : FunctionRecord) (c : ClosureVar) : Prop :=
  f.HasEntry (if c.isLocal then if c.isArg then .args else .vars else .closureVars) c.varIdx

/-- Code of a function that does not look beside the function. -/
structure Runs (f : FunctionRecord) (code : List Located) : Prop where
  targets : ∀ here ∈ code, ∀ pos, here.instr.target? = some pos → ∃ there ∈ code, there.pos = pos
  exit : ∃ last, code.getLast? = some last ∧ last.instr.isExit = true
  operands : ∀ here ∈ code, ∀ o table, here.instr.opcode? = some o → o.table? = some table → f.HasRoom table →
    ∃ n : Nat, here.instr.index? = some (n : Int) ∧ f.HasEntry table n

structure IsValid (f : FunctionRecord) : Prop where
  code : ∃ code, decodeFinal f.code = .ok code ∧ f.Runs code
  slots : f.slotVars.length = f.argCount + f.varCount
  captures : ∀ g ∈ f.children, ∀ c ∈ g.closureVars, f.Provides c

/-- What the instructions of the function may refer to. -/
def referents (f : FunctionRecord) (t : AtomTable) : Referents where
  views := f.HasRoom
  entry := f.HasEntry
  atom := t.Covers
  length := .inl rfl
  emptyString := .inl rfl

theorem runs_of_wellFormed {f : FunctionRecord} {t code} (h : WellFormed (f.referents t) code) : f.Runs code where
  targets := h.targets
  exit := h.exit
  operands := by
    intro here hhere o table ho htable hroom
    obtain ⟨n, hn, -, hentry⟩ := (h.refers here hhere).entry ho htable hroom
    exact ⟨n, hn, hentry⟩

end FunctionRecord

/-! ## Built records -/

namespace Build

/-- What a record has from the function that it was built from. -/
structure Built (ctx : BuildContext) (t : FunctionTree) (r : FunctionRecord) : Prop where
  name : r.name = t.frame.name
  argCount : r.argCount = t.frame.scopes.args.size
  varCount : r.varCount = t.frame.scopes.vars.size
  slotVars : r.slotVars = t.frame.scopes.args.toList ++ t.frame.scopes.vars.toList
  closureVars : r.closureVars = t.frame.closureVars.toList
  argLimit : r.argCount < 0x10000
  varLimit : r.varCount < 0x10000
  closureLimit : r.closureVars.length < 0x10000
  code : ∃ assembled, finishCode ctx.options.optimizer t.code = .ok assembled ∧ r.code = assembled.code
  filename : ∀ d ∈ r.debug, d.filename = ctx.filename
  constants : List.Forall₂ (fun c v => c = .value v ∨ ∃ k child, c = .function k ∧ t.children[k]? = some child ∧
    ∃ id g owner n n', v = .function id g ∧ (function ctx owner child).run n = .ok (g, n'))
    t.pool.entries.toList r.constants

theorem checkLimits_eq_ok {f : Frame} (h : f.checkLimits = .ok ()) :
    f.scopes.args.size < 0x10000 ∧ f.scopes.vars.size < 0x10000 ∧ f.closureVars.size < 0x10000 := by
  unfold Frame.checkLimits at h
  by_cases hargs : 0xffff < f.scopes.args.size
  · simp [hargs] at h
    cases h
  · by_cases hvars : 0xffff < f.scopes.vars.size
    · simp [hargs, hvars] at h
      cases h
    · by_cases hclosure : 0xffff < f.closureVars.size
      · simp [hargs, hvars, hclosure] at h
      · omega

theorem built_of_function {ctx outer t n n' r} (h : (function ctx outer t).run n = .ok (r, n')) : Built ctx t r := by
  obtain ⟨f, code, pool, children⟩ := t
  obtain ⟨values, assembled, constants, hvalues, hlimits, hcode, hpool, hrecord⟩ := function_eq_ok h
  obtain ⟨size, cache, -, rfl⟩ := record_eq_ok hrecord
  obtain ⟨hargs, hvars, hclosure⟩ := checkLimits_eq_ok hlimits
  refine ⟨rfl, rfl, rfl, rfl, rfl, hargs, hvars, by simpa using hclosure, ⟨assembled, hcode, rfl⟩, fun d hd => ?_,
    hpool.imp fun c v hcv => ?_⟩
  · have hinfo : debugInfo ctx f assembled.lines = some d := hd
    unfold debugInfo at hinfo
    split at hinfo
    · cases hinfo
    · cases hinfo
      rfl
  · rcases hcv with hvalue | ⟨k, hk, hget⟩
    · exact .inl hvalue
    · obtain ⟨hlt, rfl⟩ := List.getElem?_eq_some_iff.mp hget
      have hlt' : k < children.length := hvalues.length_eq ▸ hlt
      obtain ⟨id, g, m, m', hg, hrun⟩ := hvalues.get hlt' hlt
      exact .inr ⟨k, _, hk, List.getElem?_eq_getElem hlt', id, g, _, m, m', hg, hrun⟩

namespace Built

variable {ctx : BuildContext} {t : FunctionTree} {r : FunctionRecord}

variable (h : Built ctx t r)
include h

theorem length_constants : r.constants.length = t.pool.size := by
  rw [← h.constants.length_eq, Array.length_toList]
  rfl

/-- What a constant is. -/
theorem constant {v} (hv : v ∈ r.constants) : .value v ∈ t.pool.entries ∨
    ∃ child ∈ t.children, ∃ id g owner n n', v = .function id g ∧ (function ctx owner child).run n = .ok (g, n') := by
  obtain ⟨c, hc, hcv⟩ := exists_left_of_forall₂ h.constants hv
  rcases hcv with rfl | ⟨k, child, -, hchild, hv⟩
  · exact .inl (Array.mem_toList_iff.mp hc)
  · exact .inr ⟨child, List.mem_of_getElem? hchild, hv⟩

/-- A function of the pool is built from a nested function. -/
theorem function_of_pool {idx k} (hidx : t.pool.get? idx = some (.function k)) :
    ∃ child id g owner n n', t.children[k]? = some child ∧ r.constants[idx]? = some (.function id g) ∧
      (function ctx owner child).run n = .ok (g, n') := by
  have hidx : t.pool.entries.toList[idx]? = some (.function k) := Array.getElem?_toList.trans hidx
  obtain ⟨hlt, heq⟩ := List.getElem?_eq_some_iff.mp hidx
  have hlt' : idx < r.constants.length := h.constants.length_eq ▸ hlt
  rcases h.constants.get hlt hlt' with hvalue | ⟨k', child, hk', hchild, id, g, owner, n, n', hg, hrun⟩
  · exact nomatch heq.symm.trans hvalue
  · cases heq.symm.trans hk'
    exact ⟨child, id, g, owner, n, n', hchild, List.getElem?_eq_some_iff.mpr ⟨hlt', hg⟩, hrun⟩

/-- The functions among the constants are those that are nested in the function. -/
theorem exists_tree (hpool : t.pool.IsLiteral) {g} (hg : g ∈ r.children) :
    ∃ child ∈ t.children, ∃ owner n n', (function ctx owner child).run n = .ok (g, n') := by
  obtain ⟨id, hmem⟩ := FunctionRecord.mem_children.mp hg
  rcases h.constant hmem with hvalue | ⟨child, hchild, id', g', owner, n, n', heq, hrun⟩
  · exact nomatch hpool _ hvalue
  · cases heq
    exact ⟨child, hchild, owner, n, n', hrun⟩

theorem hasFunction {idx} (hidx : t.pool.HasFunction idx) : r.HasEntry .functions idx := by
  obtain ⟨k, hk⟩ := hidx
  obtain ⟨-, id, g, -, -, -, -, hg, -⟩ := h.function_of_pool hk
  exact ⟨id, g, hg⟩

/-- The slots of a frame are entries of the record, with indices of sixteen bits. -/
theorem hasSlot {slot} (hslot : t.frame.HasSlot slot) : slot.index < 0x10000 ∧
    r.HasEntry (if slot.isLocal then if slot.isArg then .args else .vars else .closureVars) slot.index := by
  cases slot with
  | var idx =>
    have hlt : idx < r.varCount := h.varCount ▸ Frame.hasSlot_var.mp hslot
    exact ⟨hlt.trans h.varLimit, hlt⟩
  | arg idx =>
    have hlt : idx < r.argCount := h.argCount ▸ Frame.hasSlot_arg.mp hslot
    exact ⟨hlt.trans h.argLimit, hlt⟩
  | closure idx =>
    have hlt : idx < r.closureVars.length := by
      rw [h.closureVars, Array.length_toList]
      exact Frame.hasSlot_closure.mp hslot
    exact ⟨hlt.trans h.closureLimit, hlt⟩

/-- Closure variables of nested functions are for slots that there are. -/
theorem provides {c E S scope} (hc : Captured E (t.frame :: S) scope c) : r.Provides c := by
  obtain ⟨slot, hrefers, ⟨f, hf, htraits⟩, -⟩ := hc
  cases hf
  obtain ⟨hlt, hentry⟩ := h.hasSlot (Option.isSome_of_eq_some htraits)
  rw [FunctionRecord.Provides, hrefers.isLocal, hrefers.isArg, hrefers.varIdx, Nat.mod_eq_of_lt hlt]
  exact hentry

end Built

end Build

/-! ## Resolved code -/

variable {o : Opcode}

theorem Opcode.table?_of_isFree (h : o.isFree) : o.table? = none := by
  simp only [Opcode.isFree, Bool.and_eq_true, Bool.not_eq_true'] at h
  obtain ⟨⟨-, hslot⟩, hreference⟩ := h
  unfold Opcode.table?
  split
  case h_10 => split <;> first | rfl | cases hreference
  all_goals
    first
    | rfl
    | rename_i hformat
      rw [hformat] at hslot
      cases hslot

theorem Opcode.longForm_of_isLong (h : o.isShort = false) : o.longForm.2 = none := by
  revert h
  cases o <;> decide

namespace Frame.Admits

variable {ctx : BuildContext} {tree : FunctionTree} {r : FunctionRecord} {t : AtomTable} {i : Instr}

/-- What a frame admits refers to nothing but entries of the record and atoms with names. -/
theorem refers (h : tree.frame.Admits tree.pool t i) (hbuilt : Build.Built ctx tree r) (ht : t.Dense) :
    i.Refers (r.referents t) := by
  have hhandle : ∀ {a : Atom} {arg : Operand}, arg.atom? = some a → t.Covers a → t.Covers arg.handle := by
    intro a arg harg ha
    rw [Operand.handle, harg]
    exact ht.covers_mod ha
  cases h with
  | @free o arg isFree hasAtom known =>
    refine ⟨fun ho htable => ?_, fun ho hatom => ?_⟩
    · cases ho
      cases (Opcode.table?_of_isFree isFree).symm.trans htable
    · cases ho
      obtain ⟨a, ha⟩ := Option.isSome_iff_exists.mp (hasAtom.symm.trans hatom)
      exact hhandle ha (known a ha)
  | @slot o slot format isLong has =>
    obtain ⟨hlt, hentry⟩ := hbuilt.hasSlot has
    refine ⟨fun ho htable _ => ?_, fun ho hatom => ?_⟩
    · cases ho
      refine ⟨slot.index, ?_, ?_, ?_⟩
      · rw [Instr.index?_of, Opcode.longForm_of_isLong isLong]
        rfl
      · rw [format]
        cases slot <;> exact hlt
      · unfold Opcode.table? at htable
        rw [format] at htable
        cases slot <;> cases htable <;> exact hentry
    · cases ho
      rw [format] at hatom
      cases slot <;> cases hatom
  | reference slot known has =>
    obtain ⟨hlt, hentry⟩ := hbuilt.hasSlot has
    have hindex : signedWord 32 slot.index = slot.index := if_pos (hlt.trans (by decide))
    refine ⟨fun ho htable _ => ⟨slot.index, ?_, ?_, ?_⟩, fun ho hatom => hhandle rfl known⟩
    · rw [← hindex]
      cases slot <;> rfl
    · cases ho
      cases slot <;> exact hlt
    · cases ho
      cases slot <;> cases htable <;> exact hentry
  | @constant idx lt =>
    refine ⟨fun ho htable hroom => ?_, fun ho hatom => ?_⟩
    · cases ho
      cases htable
      have hlt : idx < r.constants.length := hbuilt.length_constants ▸ lt
      exact ⟨idx, rfl, hlt.trans_le hroom, hlt⟩
    · cases ho
      cases hatom
  | @closure idx isFunction =>
    refine ⟨fun ho htable hroom => ?_, fun ho hatom => ?_⟩
    · cases ho
      cases htable
      have hlt : idx < r.constants.length := hbuilt.length_constants ▸ isFunction.lt_size
      exact ⟨idx, rfl, hlt.trans_le hroom, hbuilt.hasFunction isFunction⟩
    · cases ho
      cases hatom
  | @jump o isJump l => cases o <;> cases isJump <;> exact Instr.refers_of_closed rfl rfl _
  | tryWith op known =>
    refine ⟨fun ho htable => ?_, fun _ _ => hhandle rfl known⟩
    cases ho
    cases op <;> cases htable
  | mark | line => exact Instr.refers_of_pseudo rfl

end Frame.Admits

namespace Naming

/-- Terminators are left as they are, so resolved code ends like the code before. -/
theorem CodeResolved.endsInExit {s s' body pieces arg} (h : CodeResolved s body pieces s')
    (hlast : body.getLast? = some (.of o arg)) (hexit : o.isTerminator) : EndsInExit pieces.flatten := by
  induction h with
  | nil => cases hlast
  | @cons s s₁ s' i rest piece pieces first hrest ih =>
    rw [List.flatten_cons]
    cases rest with
    | nil =>
      cases hrest
      cases hlast
      cases first with
      | final => exact endsInExit_cons.mpr (.inl ⟨hexit, rfl⟩)
      | marker isMarker => cases isMarker
    | cons j rest => exact (ih (by rwa [List.getLast?_cons_cons] at hlast)).append piece

variable {outer outer' : List Frame} {tree tree' : FunctionTree} {t : AtomTable} {ctx : BuildContext}
  {r : FunctionRecord}

theorem ResolvedFunction.endsInExit (h : ResolvedFunction outer outer' tree tree') (htree : tree.Emitted t) :
    EndsInExit tree'.code := by
  obtain ⟨s, pieces, s', -, -, hcode, -, -, hresult⟩ := h.run
  obtain ⟨o, arg, hlast, hexit⟩ := htree.closed
  rw [hresult]
  exact (hcode.endsInExit hlast hexit).append _

/-- The code of a function whose names are resolved is finished in good form. -/
theorem ResolvedFunction.wellFormed (h : ResolvedFunction outer outer' tree tree') (htree : tree.Emitted t)
    (ht : t.Dense) (hbuilt : Build.Built ctx tree' r) :
    ∃ code, decodeFinal r.code = .ok code ∧ WellFormed (r.referents t) code := by
  have hadmits := h.admits htree
  rw [← h.pool_eq] at hadmits
  obtain ⟨assembled, hassembled, hcode⟩ := hbuilt.code
  rw [hcode]
  exact wellFormed_finishCode (fun i hi => (hadmits i hi).labelled) (h.endsInExit htree)
    (fun i hi => (hadmits i hi).refers hbuilt ht) hassembled

end Naming

end ScriptBytecode
