import ScriptBytecode.Proofs.Drafting.Frames
import ScriptBytecode.Proofs.Flow

/-!
# Emitted code

What holds of the code of every emitted function: which instructions it is made of, and that its labels are wired.
Every label that is jumped to is marked once in the same function, some of them only when names are resolved.
-/

namespace ScriptBytecode

variable {t atoms : AtomTable} {measured : Bool} {labels : List (Nat × Nat)} {marks : List Nat} {d e l : Nat}

/-! ## Instructions -/

section

variable {s s' : EmitState} {i : Instr}

theorem Permitted.mono (hatoms : ∀ a, s.atoms.Covers a → s'.atoms.Covers a)
    (hcompletion : ∀ idx, s.draft.completion = some idx → s'.draft.completion = some idx)
    (hargs : s.draft.frame.scopes.args.size ≤ s'.draft.frame.scopes.args.size)
    (hpool : ∀ i c, s.draft.pool.get? i = some c → s'.draft.pool.get? i = some c) (h : Permitted s i) :
    Permitted s' i := by
  have hfunction : ∀ idx, s.draft.pool.HasFunction idx → s'.draft.pool.HasFunction idx := fun idx ⟨c, hc⟩ =>
    ⟨c, hpool idx _ hc⟩
  cases h with
  | free isFree hasAtom known => exact .free isFree hasAtom fun a ha => hatoms a (known a ha)
  | completion isLoc at_ => exact .completion isLoc (hcompletion _ at_)
  | arg isArg lt => exact .arg isArg (lt.trans_le hargs)
  | constant lt =>
    have hget : s.draft.pool.get? _ = some _ := Array.getElem?_eq_getElem lt
    exact .constant (Array.getElem?_eq_some_iff.mp (hpool _ _ hget)).1
  | closure isFunction => exact .closure (hfunction _ isFunction)
  | access isAccess known scope => exact .access isAccess (hatoms _ known) scope
  | scope isScope n => exact .scope isScope n
  | chainField known => exact .chainField (hatoms _ known)
  | chainElement => exact .chainElement
  | line n => exact .line n

theorem Emittable.mono (hatoms : ∀ a, s.atoms.Covers a → s'.atoms.Covers a)
    (hcompletion : ∀ idx, s.draft.completion = some idx → s'.draft.completion = some idx)
    (hargs : s.draft.frame.scopes.args.size ≤ s'.draft.frame.scopes.args.size)
    (hpool : ∀ i c, s.draft.pool.get? i = some c → s'.draft.pool.get? i = some c) (h : Emittable s i) :
    Emittable s' i := by
  cases h with
  | permitted h => exact .permitted (h.mono hatoms hcompletion hargs hpool)
  | mark l => exact .mark l
  | makeRef known l scope => exact .makeRef (hatoms _ known) l scope
  | jump isJump l => exact .jump isJump l
  | optionalLink l => exact .optionalLink l

theorem Emittable.kept (hs : s.atoms.Sound) (hk : Kept s s') (h : Emittable s i) : Emittable s' i :=
  h.mono (hk.covers hs) (fun _ hidx => hk.completion.trans hidx) hk.frame.args hk.pool

/-- The same draft up to the constructs around the code. -/
theorem Emittable.congr (h : Emittable s i) (hatoms : s'.atoms = s.atoms)
    (hcompletion : s'.draft.completion = s.draft.completion) (hframe : s'.draft.frame = s.draft.frame)
    (hpool : s'.draft.pool = s.draft.pool) : Emittable s' i :=
  h.mono (fun _ ha => hatoms ▸ ha) (fun _ hidx => hcompletion.trans hidx) (Nat.le_of_eq (by rw [hframe]))
    fun _ _ hc => hpool ▸ hc

end

variable {s s' : EmitState}

theorem Drafted.mem_code (h : Drafted measured labels marks d e s s') (hs : s.atoms.Sound) :
    ∀ i ∈ s'.draft.code, i ∈ s.draft.code ∨ Emittable s' i := by
  induction h with
  | refl => exact fun _ hi => .inl hi
  | step step => cases step <;> exact fun _ hi => .inl hi
  | put emittable =>
    intro i hi
    refine (Array.mem_push.mp hi).imp_right ?_
    rintro rfl
    exact emittable.congr rfl rfl rfl rfl
  | trans first second ih₁ ih₂ =>
    intro i hi
    have hs₁ := first.kept.sound hs
    rcases ih₂ hs₁ i hi with hi | hi
    · exact (ih₁ hs i hi).imp_right (.kept hs₁ second.kept)
    · exact .inr hi
  | unmeasured _ _ _ _ ih | reorder _ _ ih | label _ _ ih | spareLabel _ ih => exact ih hs
  | within _ _ ih | chained _ _ ih =>
    exact fun i hi => (ih hs i hi).imp id fun h => h.congr rfl rfl rfl rfl
  | uncompleted inner ih =>
    refine fun i hi => (ih hs i hi).imp id ?_
    -- no completion value was set in between
    have hnone : _ = none := inner.kept.completion
    exact Emittable.mono (fun _ ha => ha) (fun idx hidx => nomatch hnone.symm.trans hidx) le_rfl
      fun _ _ h => h
  | nested _ _ _ _ _ inner _ _ _ _ ih => exact ih (inner.kept.sound hs)

/-! ## Constants -/

namespace ConstantPool

/-- Values among the constants are literals. -/
def IsLiteral (p : ConstantPool) : Prop :=
  ∀ v, .value v ∈ p.entries → v.isLiteral = true

theorem IsLiteral.insert {p : ConstantPool} (h : p.IsLiteral) {c : Constant} (hc : ∀ v, c = .value v → v.isLiteral) :
    (p.insert c).2.IsLiteral := by
  obtain ⟨_, _, -, -, heq⟩ | ⟨-, heq⟩ := p.insert_cases c
  · rwa [heq]
  · rw [heq]
    exact fun v hv => (Array.mem_push.mp hv).elim (h v) fun heq => hc v heq.symm

end ConstantPool

theorem EmitStep.isLiteral (h : EmitStep s s') (hs : s.draft.pool.IsLiteral) : s'.draft.pool.IsLiteral := by
  cases h with
  | constant isLiteral => exact hs.insert (c := .value _) fun _ h => Constant.value.inj h ▸ isLiteral
  | function child => exact hs.insert (c := .function child) fun _ h => Constant.noConfusion h
  | _ => exact hs

theorem Drafted.isLiteral (h : Drafted measured labels marks d e s s') (hs : s.draft.pool.IsLiteral) :
    s'.draft.pool.IsLiteral := by
  induction h with
  | refl | put => exact hs
  | step step => exact step.isLiteral hs
  | trans _ _ ih₁ ih₂ => exact ih₂ (ih₁ hs)
  | unmeasured _ _ _ _ ih | reorder _ _ ih | label _ _ ih | spareLabel _ ih | within _ _ ih | chained _ _ ih
  | uncompleted _ ih | nested _ _ _ _ _ _ _ _ _ _ ih => exact ih hs

/-- A nested function that was emitted is a constant. -/
theorem Drafted.holdsChild (h : Drafted measured labels marks d e s s') {k} (hk : k < s'.draft.children.size) :
    k < s.draft.children.size ∨ s'.draft.pool.HoldsChild k := by
  induction h with
  | refl | put => exact .inl hk
  | step step => cases step <;> exact .inl hk
  | trans _ second ih₁ ih₂ =>
    rcases ih₂ hk with hk | hk
    · exact (ih₁ hk).imp_right fun ⟨idx, hidx⟩ => ⟨idx, second.kept.pool idx _ hidx⟩
    · exact .inr hk
  | unmeasured _ _ _ _ ih | reorder _ _ ih | label _ _ ih | spareLabel _ ih | within _ _ ih | chained _ _ ih
  | uncompleted _ ih => exact ih hk
  | nested _ _ _ _ _ _ _ _ isConstant _ ih =>
    rcases ih hk with hk | hk
    · rw [EmitState.adopt, Array.size_push] at hk
      rcases Nat.lt_succ_iff_lt_or_eq.mp hk with hk | rfl
      · exact .inl hk
      · exact .inr isConstant
    · exact .inr hk

/-! ## States behind functions -/

namespace Draft.Begins

variable {d : Draft}

theorem pool_eq (h : d.Begins t) : d.pool = .empty := by
  cases h <;> rfl

theorem code_eq (h : d.Begins t) : d.code = #[] := by
  cases h <;> rfl

theorem nextLabel_eq (h : d.Begins t) : d.frame.nextLabel = 0 := by
  cases h <;> rfl

theorem completion_lt (h : d.Begins t) :
    ∀ idx, d.completion = some idx → idx < d.frame.scopes.vars.size := by
  intro idx hidx
  cases h with
  | function | module => cases hidx
  | script =>
    cases hidx
    exact Nat.one_pos

end Draft.Begins

/-- The state behind the code of a function; `t` has at least its atoms. -/
structure EmitState.Finished (s : EmitState) (t : AtomTable) : Prop where
  covers : ∀ a, s.atoms.Covers a → t.Covers a
  completion : ∀ idx, s.draft.completion = some idx → idx < s.draft.frame.scopes.vars.size
  made : s.draft.frame.Made
  backed : s.draft.frame.Backed t s.draft.pool
  emittable : ∀ i ∈ s.draft.code, Emittable s i
  literals : s.draft.pool.IsLiteral
  holdsChild : ∀ k, k < s.draft.children.size → s.draft.pool.HoldsChild k

theorem Drafted.finished (h : Drafted measured [] [] d e s s') (hsound : s.atoms.Sound)
    (hbegins : s.draft.Begins s.atoms) (hcovers : ∀ a, s'.atoms.Covers a → t.Covers a) : s'.Finished t where
  covers := hcovers
  completion := by
    intro idx hidx
    have hlt := hbegins.completion_lt idx (h.kept.completion.symm.trans hidx)
    exact h.keeps_frame (Frame.hasVars_invariant (idx + 1)) hsound hlt
  made := h.keeps_frame Frame.Made.invariant hsound hbegins.made
  backed := Frame.Backed.invariant.mono hcovers (fun _ _ h => h)
    (h.keeps_frame Frame.Backed.invariant hsound hbegins.backed)
  emittable := fun i hi => (h.mem_code hsound i hi).resolve_left (by simp [hbegins.code_eq])
  literals := h.isLiteral fun v hv => by simp [hbegins.pool_eq, ConstantPool.empty] at hv
  holdsChild := fun k hk => (h.holdsChild hk).resolve_left (by simp [hbegins.children_eq])

theorem FunctionTree.Emitted.finished {t : FunctionTree} (h : t.Emitted atoms) :
    ∃ s : EmitState, t = s.draft.tree ∧ s.Finished atoms := by
  cases h with
  | mk sound begins drafted closed covers => exact ⟨_, rfl, drafted.finished sound begins covers⟩

theorem FunctionTree.Emitted.closed {t : FunctionTree} (h : t.Emitted atoms) :
    ∃ o arg, t.code.getLast? = some (.of o arg) ∧ o.isTerminator := by
  cases h with
  | mk _ _ _ closed =>
    obtain ⟨o, arg, hlast, hexit⟩ := closed
    exact ⟨o, arg, by simpa [Draft.tree] using hlast, hexit⟩

/-! ## Labels -/

/-- The labels that code marks, itself or once its names are resolved. -/
def ends (code : List Instr) : List Nat :=
  code.filterMap Instr.endLabel?

/-- The labels that code jumps to. -/
def jumps (code : List Instr) : List Nat :=
  code.filterMap Instr.jump?

theorem ends_append (a b : List Instr) : ends (a ++ b) = ends a ++ ends b :=
  List.filterMap_append

theorem jumps_append (a b : List Instr) : jumps (a ++ b) = jumps a ++ jumps b :=
  List.filterMap_append

/-- Different labels that were made one after the other, the next label being `n` before and `n'` behind. -/
structure Fresh (n n' : Nat) (labels : List Nat) : Prop where
  le : n ≤ n'
  nodup : labels.Nodup
  between : ∀ l ∈ labels, n ≤ l ∧ l < n'

namespace Fresh

variable {n m n' : Nat} {a b : List Nat}

theorem nil (h : n ≤ n') : Fresh n n' [] :=
  ⟨h, .nil, nofun⟩

theorem one (n : Nat) : Fresh n (n + 1) [n] :=
  ⟨Nat.le_succ n, by simp, by simp⟩

theorem append (ha : Fresh n m a) (hb : Fresh m n' b) : Fresh n n' (a ++ b) where
  le := ha.le.trans hb.le
  nodup := by
    refine List.nodup_append.mpr ⟨ha.nodup, hb.nodup, ?_⟩
    rintro l hla _ hlb rfl
    exact lt_irrefl l (Nat.lt_of_lt_of_le (ha.between l hla).2 (hb.between l hlb).1)
  between := by
    intro l hl
    have hle := ha.le
    have hle' := hb.le
    rcases List.mem_append.mp hl with hl | hl
    · have := ha.between l hl
      omega
    · have := hb.between l hl
      omega

end Fresh

/-- Code that jumps to `labels` and to its `own` labels. The latter it marks itself, and beside them `marks`. -/
structure Wired (labels marks own : List Nat) (code : List Instr) : Prop where
  ends : (ends code).Perm (marks ++ own)
  jumps : ∀ l ∈ jumps code, l ∈ labels ∨ l ∈ own

namespace Wired

variable {labels marks marks' own own' : List Nat} {code code' : List Instr} {i : Instr}

theorem nil (labels : List Nat) : Wired labels [] [] [] :=
  ⟨.nil, nofun⟩

theorem append (h : Wired labels marks own code) (h' : Wired labels marks' own' code') :
    Wired labels (marks ++ marks') (own ++ own') (code ++ code') where
  ends := by
    rw [ends_append]
    refine (h.ends.append h'.ends).trans ?_
    simp only [List.append_assoc]
    refine .append_left marks ?_
    simp only [← List.append_assoc]
    exact .append_right own' List.perm_append_comm
  jumps := by
    intro l hl
    rw [jumps_append] at hl
    simp only [List.mem_append] at hl ⊢
    rcases hl with hl | hl
    · exact (h.jumps l hl).imp_right .inl
    · exact (h'.jumps l hl).imp_right .inr

theorem mono {labels'} (h : Wired labels marks own code) (hlabels : labels ⊆ labels') : Wired labels' marks own code :=
  ⟨h.ends, fun l hl => (h.jumps l hl).imp_left fun hmem => hlabels hmem⟩

/-- An instruction refers to its own labels only. -/
theorem self (i : Instr) : Wired (ScriptBytecode.jumps [i]) (ScriptBytecode.ends [i]) [] [i] :=
  ⟨by rw [List.append_nil], fun _ hl => .inl hl⟩

/-- Code without labels. -/
theorem unlabelled (h : ∀ i ∈ code, i.target? = none) (labels : List Nat) : Wired labels [] [] code := by
  have hend : ∀ i ∈ code, i.endLabel? = none := by
    intro i hi
    cases hl : i.endLabel? with
    | none => rfl
    | some l => exact absurd ((h i hi).symm.trans (Flow.target?_of_endLabel? hl)) (Option.some_ne_none l).symm
  have hjump : ∀ i ∈ code, i.jump? = none := by
    intro i hi
    rw [Instr.jump?, hend i hi]
    exact h i hi
  constructor
  · rw [ScriptBytecode.ends, List.filterMap_eq_nil_iff.mpr hend]
    exact .nil
  · rw [ScriptBytecode.jumps, List.filterMap_eq_nil_iff.mpr hjump]
    exact List.forall_mem_nil _

/-- An instruction that marks its label, at once or when names are resolved. -/
theorem marks_one (h : i.endLabel? = some l) (labels : List Nat) : Wired labels [l] [] [i] := by
  constructor
  · simp [ScriptBytecode.ends, h]
  · simp [ScriptBytecode.jumps, Instr.jump?, h]

theorem jumps_to (hend : i.endLabel? = none) (h : i.target? = some l) (hl : l ∈ labels) : Wired labels [] [] [i] := by
  constructor
  · simp [ScriptBytecode.ends, hend]
  · simpa [ScriptBytecode.jumps, Instr.jump?, hend, h] using hl

/-- A label of `labels` that the code marks is its own. -/
theorem own_label (h : Wired (l :: labels) (marks ++ [l]) own code) : Wired labels marks (l :: own) code where
  ends := by simpa using h.ends
  jumps := by
    intro l' hl'
    rcases h.jumps l' hl' with hmem | hmem
    · exact (List.mem_cons.mp hmem).elim (fun heq => .inr (heq ▸ List.mem_cons_self)) .inl
    · exact .inr (List.mem_cons_of_mem _ hmem)

end Wired

theorem FrameStep.nextLabel_eq {pool f f'} (h : FrameStep t pool f f') : f'.nextLabel = f.nextLabel := by
  cases h <;> rfl

theorem EmitStep.code_eq (h : EmitStep s s') : s'.draft.code = s.draft.code ∧ s'.nextLabel = s.nextLabel := by
  cases h with
  | frame step => exact ⟨rfl, step.nextLabel_eq⟩
  | _ => exact ⟨rfl, rfl⟩

/-- Emission wires its labels. -/
theorem Drafted.wired (h : Drafted measured labels marks d e s s') :
    ∃ new own, s'.draft.code.toList = s.draft.code.toList ++ new ∧ Wired (labels.map (·.1)) marks own new ∧
      Fresh s.nextLabel s'.nextLabel own := by
  induction h with
  | refl labels d s => exact ⟨[], [], (List.append_nil _).symm, .nil _, .nil le_rfl⟩
  | step step =>
    obtain ⟨hcode, hnext⟩ := step.code_eq
    exact ⟨[], [], by rw [hcode, List.append_nil], .nil _, .nil hnext.symm.le⟩
  | @put labels d e s i emittable jump shifts =>
    refine ⟨[i], [], Array.toList_push, ⟨?_, fun l hl => .inl ?_⟩, .nil le_rfl⟩
    · cases hend : i.endLabel? <;> simp [ends, hend]
    · obtain ⟨k, hk⟩ := jump l (by simpa [jumps] using hl)
      exact List.mem_map_of_mem (f := (·.1)) hk
  | trans _ _ ih₁ ih₂ =>
    obtain ⟨new₁, own₁, hcode₁, hwired₁, hfresh₁⟩ := ih₁
    obtain ⟨new₂, own₂, hcode₂, hwired₂, hfresh₂⟩ := ih₂
    exact ⟨new₁ ++ new₂, own₁ ++ own₂, by rw [hcode₂, hcode₁, List.append_assoc], hwired₁.append hwired₂,
      hfresh₁.append hfresh₂⟩
  | reorder _ perm ih =>
    obtain ⟨new, own, hcode, hwired, hfresh⟩ := ih
    exact ⟨new, own, hcode, ⟨hwired.ends.trans (perm.append_right own), hwired.jumps⟩, hfresh⟩
  | @label _ _ _ _ s _ _ _ ih =>
    obtain ⟨new, own, hcode, hwired, hfresh⟩ := ih
    exact ⟨new, s.nextLabel :: own, hcode, hwired.own_label, (Fresh.one s.nextLabel).append hfresh⟩
  | @spareLabel _ _ _ _ s _ _ ih =>
    obtain ⟨new, own, hcode, hwired, hfresh⟩ := ih
    exact ⟨new, own, hcode, hwired, (Fresh.nil (Nat.le_succ s.nextLabel)).append hfresh⟩
  | unmeasured _ _ _ _ ih | within _ _ ih | chained _ _ ih | uncompleted _ ih => exact ih
  | nested _ _ _ _ _ _ _ _ _ _ ih => exact ih

theorem getElem?_of_isPrefix {α : Type} {xs ys : List α} {i : Nat} {x : α} (h : xs <+: ys) (hx : xs[i]? = some x) :
    ys[i]? = some x := by
  obtain ⟨more, rfl⟩ := h
  rw [List.getElem?_append_left (List.getElem?_eq_some_iff.mp hx).1, hx]

/-- Where depths are measured, the labels that emission makes can be given depths. -/
theorem Drafted.adds (h : Drafted true labels marks d e s s') {depths : List (Option Nat)}
    (hlabels : ∀ l k, (l, k) ∈ labels → depths[l]? = some (some k)) (hnext : s.nextLabel = depths.length) :
    ∃ depths' new, depths <+: depths' ∧ s'.nextLabel = depths'.length ∧
      s'.draft.code.toList = s.draft.code.toList ++ new ∧ Adds depths' d new e := by
  induction h generalizing depths with
  | refl labels d s => exact ⟨depths, [], List.prefix_rfl, hnext, (List.append_nil _).symm, adds_nil depths d⟩
  | @step labels d s s' step =>
    obtain ⟨hcode, hsame⟩ := step.code_eq
    exact ⟨depths, [], List.prefix_rfl, hsame.trans hnext, by rw [hcode, List.append_nil], adds_nil depths d⟩
  | @put labels d e s i emittable jump shifts =>
    exact ⟨depths, [i], List.prefix_rfl, hnext, Array.toList_push, shifts rfl depths hlabels⟩
  | trans _ _ ih₁ ih₂ =>
    obtain ⟨depths₁, new₁, hle₁, hnext₁, hcode₁, hadds₁⟩ := ih₁ hlabels hnext
    obtain ⟨depths₂, new₂, hle₂, hnext₂, hcode₂, hadds₂⟩ :=
      ih₂ (fun l k hl => getElem?_of_isPrefix hle₁ (hlabels l k hl)) hnext₁
    exact ⟨depths₂, new₁ ++ new₂, hle₁.trans hle₂, hnext₂, by rw [hcode₂, hcode₁, List.append_assoc],
      (hadds₁.mono hle₂).append hadds₂⟩
  | unmeasured _ free => cases free
  | @label labels _ _ _ s _ k _ ih =>
    have hmore : ∀ l k', (l, k') ∈ (s.nextLabel, k) :: labels → (depths ++ [some k])[l]? = some (some k') := by
      intro l k' hl
      rcases List.mem_cons.mp hl with heq | hl
      · cases heq
        simp [hnext]
      · exact getElem?_of_isPrefix (List.prefix_append _ _) (hlabels l k' hl)
    obtain ⟨depths', new, hle, hrest⟩ := ih hmore (by simpa [EmitState.withLabel, EmitState.nextLabel] using hnext)
    exact ⟨depths', new, (List.prefix_append _ _).trans hle, hrest⟩
  | spareLabel _ ih =>
    obtain ⟨depths', new, hle, hrest⟩ := ih
      (fun l k hl => getElem?_of_isPrefix (List.prefix_append depths [none]) (hlabels l k hl))
      (by simpa [EmitState.withLabel, EmitState.nextLabel] using hnext)
    exact ⟨depths', new, (List.prefix_append _ _).trans hle, hrest⟩
  | reorder _ _ ih | within _ _ ih | chained _ _ ih | uncompleted _ ih => exact ih hlabels hnext
  | nested _ _ _ _ _ _ _ _ _ _ ih => exact ih hlabels hnext

/-! ## Functions -/

/-- In a function, every label that is jumped to is marked, and none is marked twice. -/
structure FunctionTree.IsWired (t : FunctionTree) : Prop where
  nodup : (ends t.code).Nodup
  lt : ∀ l ∈ ends t.code, l < t.frame.nextLabel
  jumps : ∀ l ∈ jumps t.code, l ∈ ends t.code

theorem FunctionTree.Emitted.isWired {t : FunctionTree} (h : t.Emitted atoms) : t.IsWired := by
  cases h with
  | @mk s s' e sound begins drafted closed covers nested children =>
    obtain ⟨new, own, hcode, hwired, hfresh⟩ := drafted.wired
    have hnew : s'.draft.tree.code = new := by simpa [Draft.tree, begins.code_eq] using hcode
    have hends : (ends new).Perm own := hwired.ends
    rw [← hnew] at hends
    refine ⟨hends.nodup_iff.mpr hfresh.nodup, fun l hl => (hfresh.between l (hends.mem_iff.mp hl)).2, fun l hl => ?_⟩
    rcases hwired.jumps l (hnew ▸ hl) with hmem | hmem
    · cases hmem
    · exact hends.mem_iff.mpr hmem

theorem Value.isFunction_of_isLiteral {v : Value} (h : v.isLiteral = true) : v.isFunction = false := by
  cases v <;> first | rfl | cases h

/-- The labels of every function that was emitted with measured depths have depths. -/
theorem FunctionTree.Emitted.hasDepths {t : FunctionTree} (h : t.Emitted atoms true) : t.HasDepths := by
  induction h with
  | @mk s s' e sound begins drafted closed covers nested children ih =>
    have hstart : s.nextLabel = ([] : List (Option Nat)).length := begins.nextLabel_eq
    obtain ⟨depths, new, -, hnext, hcode, hadds⟩ := drafted.adds nofun hstart
    have hnew : s'.draft.code.toList = new := by simpa [begins.code_eq] using hcode
    have hliterals := drafted.isLiteral fun v hv => by simp [begins.pool_eq, ConstantPool.empty] at hv
    exact .mk depths hnext (hnew ▸ hadds.flows) (hnew ▸ hadds.instrs)
      (fun v hv => Value.isFunction_of_isLiteral (hliterals v hv)) fun c hc => ih c (Array.mem_toList_iff.mp hc)

theorem hasDepths_emitProgram {options} {p : Program} {tree filename} (hp : p.isRegular false)
    (h : emitProgram options p = .ok (tree, filename, s)) : tree.HasDepths :=
  (emittedProgram_of_regular (fun _ => hp) h).tree.hasDepths

end ScriptBytecode
