import ScriptBytecode.Proofs.Drafting.Functions

/-!
# Drafts of statements

Every statement leaves the stack as it was, at the depth of what the constructs around it hold, if it is regular. Every
construct marks the labels that it makes, and exports what the statements in it export.
-/

namespace ScriptBytecode

/-- More is required of other modules. -/
theorem ModuleTables.Covered.require {t} {m : ModuleTables} (h : m.Covered t) {source} (hsource : t.Covers source)
    {attributes : Value} (hattributes : attributes.IsAttributes t) : (m.require source attributes).2.Covered t := by
  unfold ModuleTables.require
  split
  · exact h
  · refine { h with requires := fun r hr => ?_ }
    rcases Array.mem_push.mp hr with hr | rfl
    · exact h.requires r hr
    · exact ⟨hsource, hattributes⟩

theorem ModuleTables.Covered.exportFrom {t} {m : ModuleTables} (h : m.Covered t) {source name exported}
    (hsource : t.Covers source) (hname : t.Covers name) (hexported : t.Covers exported) :
    (m.exportFrom source name exported).Covered t := by
  refine { h.require hsource (.inl rfl) with indirectExports := fun e he => ?_ }
  rcases Array.mem_push.mp he with he | rfl
  · exact (h.require hsource (.inl rfl)).indirectExports e he
  · exact ⟨hname, hexported⟩

/-- A loop in some scope. -/
def loopIn (names : List Atom) (breakTo : Nat) (continueTo : Option Nat) (held scope : Nat) : JumpTarget where
  names
  breakTo := some breakTo
  continueTo
  held
  finalizer := none
  hasIterator := false
  scope
  answersBreak := true

@[simp] theorem held_loopIn (names : List Atom) (breakTo : Nat) (continueTo : Option Nat) (held scope : Nat) :
    (loopIn names breakTo continueTo held scope).held = held := rfl

namespace Drafts

open Supply (allows_and allows_all names_self)

variable {C : Supply} {d e : Nat} {r : Parts} [hr : r.Drafting] {marks : List Nat} {β : Type} {post : β → Nat}
  {names' : β → List Atom} {exports : List ExportItem}

variable {body : Stmt} {head : ForHead} {test : Expr}

/-! ## Loops -/

theorem putCompletion {idx} (h : C.completion = some idx) : Drafts C (d + 1) (Emit.opCount .putLoc idx) (fun _ => d) :=
  put (fun _ hs => .completion (.inr rfl) (hs.completion.trans h)) fun _ _ => adds_plain 1 0 _ rfl

theorem resetCompletion : Drafts C d Emit.resetCompletion (fun _ => d) :=
  draft fun _ _ _ hc => optionForM fun _ hidx => .seq (.op 0 1 rfl) fun _ => putCompletion (hc.symm.trans hidx)

theorem loopTarget {names breakTo held continueTo f}
    (h : ∀ scope, Drafts C d (f (loopIn names breakTo continueTo held scope)) post marks names' exports) :
    Drafts C d (Emit.loopTarget names breakTo continueTo held >>= f) post marks names' exports := by
  unfold Emit.loopTarget
  rw [bind_assoc]
  refine .read (.of_state _) fun scope => ?_
  rw [pure_bind]
  exact h scope

/-- The labels of a loop have the depth of its inside. -/
theorem placed_loopIn {names breakTo held continueTo scope} (hbreak : (breakTo, C.base + held) ∈ C.labels)
    (hcontinue : ∀ l, continueTo = some l → (l, C.base + held) ∈ C.labels) :
    (loopIn names breakTo continueTo held scope).Placed C.measured C.labels C.base where
  breakTo := by
    intro l hl
    cases hl
    exact hbreak
  continueTo := hcontinue
  finalizer := nofun
  iterator := nofun

theorem placed_withIterator {t : JumpTarget} (h : t.Placed C.measured C.labels C.base) (hheld : t.held = 3) :
    ({ t with hasIterator := true } : JumpTarget).Placed C.measured C.labels C.base :=
  ⟨h.breakTo, h.continueTo, h.finalizer, fun _ => hheld⟩

section

variable (names : List Atom) (hbody : C.Allows (body.isRegular false))
include hbody

theorem whileLoop (htest : C.Allows (test.isRegular false)) :
    Drafts C C.base (Emit.whileLoop r names test body) (fun _ => C.base) [] noNames body.exports := by
  refine .seq resetCompletion fun _ => newLabel C.base fun top => newLabel C.base fun exit => ?_
  refine loopTarget fun scope => within (placed_loopIn (by simp) (by simp)) ?_
  exact mark_seq (by simp) fun _ =>
    .seq (hr.value le_rfl htest) fun _ =>
    .seq (branch 1 0 rfl (by simp)) fun _ =>
    .exporting_all (hr.stmt [] hbody) fun _ =>
    .seq (goto (by simp) C.base) fun _ =>
    mark (by simp)

theorem doWhile (htest : C.Allows (test.isRegular false)) :
    Drafts C C.base (Emit.doWhile r names body test) (fun _ => C.base) [] noNames body.exports := by
  refine .seq resetCompletion fun _ => newLabel C.base fun top => newLabel C.base fun next =>
    newLabel C.base fun exit => ?_
  refine loopTarget fun scope => within (placed_loopIn (by simp) (by simp)) ?_
  exact mark_seq (by simp) fun _ =>
    .exporting_all (hr.stmt [] hbody) fun _ =>
    mark_seq (by simp) fun _ =>
    .seq (hr.value le_rfl htest) fun _ =>
    .seq (branch 1 0 rfl (by simp)) fun _ =>
    mark (by simp)

end

/-! ## Declarations -/

theorem declarator (hd : C.base ≤ d) (kind : DeclKind) {dc : Declarator} (hdc : C.Allows (dc.isRegular false)) :
    Drafts C d (Emit.declarator r kind dc) (fun _ => d) := by
  obtain ⟨target, init, span⟩ := dc
  simp only [Declarator.isRegular, allows_and] at hdc
  refine .seq (locate span) fun _ => ?_
  dsimp only
  split
  · exact intern _ fun name => .seq (hr.expr hd hdc.2 (C.knows_self name).some) fun _ => hr.bind _ hd hdc.1
  · exact .seq (hr.value hd hdc.2) fun _ => hr.bind _ hd hdc.1
  · split
    · exact .pure _
    · exact intern _ fun name => .seq (.op 0 1 rfl) fun _ => access 1 0 rfl (C.knows_self name)
    · exact misuse _ _
  · exact misuse _ _

theorem varDecl (hd : C.base ≤ d) {v : VarDecl} (hv : C.Allows (v.isRegular false)) :
    Drafts C d (Emit.varDecl r v) (fun _ => d) := by
  obtain ⟨kind, declarators, span⟩ := v
  simp only [VarDecl.isRegular, declaratorsRegular_eq, allows_all] at hv
  exact forM fun dc hdc => declarator hd kind (hv dc hdc)

theorem declareHead {v : VarDecl} (hC : C.enclosed = true) : Drafts C d (Emit.declareHead v) (fun _ => d) :=
  .ite (fun _ => declareBound hC) fun _ => .pure _

/-! ## For loops -/

theorem forInit (hC : C.enclosed = true) (hd : C.base ≤ d) {init} (hinit : C.Allows (optForInitRegular false init)) :
    Drafts C d (Emit.forInit r init) (fun _ => d) := by
  unfold Emit.forInit
  split
  · exact .seq (declareHead hC) fun _ => varDecl hd hinit
  · exact .seq (hr.value hd hinit) fun _ => .op 1 0 rfl
  · exact .pure _

theorem inHeadScope {rest} (hrest : ∀ enclosed, Drafts (C.enclose enclosed) d rest (fun _ => d) [] noNames exports) :
    Drafts C d (Emit.inHeadScope head rest) (fun _ => d) [] noNames exports := by
  cases head with
  | decl v => exact .ite (fun _ => inScope (.seq (declareHead rfl) fun _ => hrest true)) fun _ => hrest C.enclosed
  | pattern p => exact hrest C.enclosed

theorem bindHead (hd : C.base ≤ d) (hhead : C.Allows (head.isRegular false)) :
    Drafts C (d + 1) (Emit.bindHead r head) (fun _ => d) := by
  cases head with
  | decl v =>
    obtain ⟨kind, declarators, span⟩ := v
    simp only [ForHead.isRegular, VarDecl.isRegular, declaratorsRegular_eq, allows_all] at hhead
    cases declarators with
    | nil => exact fault _
    | cons first rest =>
      obtain ⟨target, init, span'⟩ := first
      have hfirst := hhead ⟨target, init, span'⟩ List.mem_cons_self
      simp only [Declarator.isRegular, allows_and] at hfirst
      exact hr.bind _ hd hfirst.1
  | pattern p => exact hr.bind .assign hd hhead

section

variable (names : List Atom) (hbody : C.Allows (body.isRegular false))
include hbody

theorem forLoop {init test update} (hinit : C.Allows (optForInitRegular false init))
    (htest : C.Allows (optExprRegular false test)) (hupdate : C.Allows (optExprRegular false update)) :
    Drafts C C.base (Emit.forLoop r names init test update body) (fun _ => C.base) [] noNames body.exports := by
  refine .seq resetCompletion fun _ => ?_
  let loop (scope : Nat) : Emit Unit := do
    Emit.forInit r init
    let top ← Emit.newLabel
    let next ← Emit.newLabel
    let exit ← Emit.newLabel
    Emit.within (← Emit.loopTarget names exit (some next) 0) do
      Emit.mark top
      test.forM fun e => do
        r.value e
        Emit.jump .ifFalse exit
      r.stmt [] body
      Emit.mark next
      if Emit.hasFreshBindings init then Emit.leaveScope scope
      update.forM fun e => do
        r.value e
        Emit.op .drop
      Emit.jump .goto top
      Emit.mark exit
  suffices hloop : ∀ scope, Drafts C.enclose C.base (loop scope) (fun _ => C.base) [] noNames body.exports by
    simpa only [loop, bind_assoc] using inNewScope hloop
  intro scope
  refine .seq (forInit rfl le_rfl hinit) fun _ => newLabel C.base fun top => newLabel C.base fun next =>
    newLabel C.base fun exit => loopTarget fun _ => within (placed_loopIn (by simp) (by simp)) ?_
  refine mark_seq (by simp) fun _ => .seq (optionForM fun e hsome => ?_) fun _ =>
    .exporting_all (hr.stmt [] hbody) fun _ => mark_seq (by simp) fun _ =>
    optionally (fun _ => leaveScope scope) fun _ => .seq (optionForM fun e hsome => ?_) fun _ =>
    .seq (goto (by simp) C.base) fun _ => mark (by simp)
  · subst hsome
    exact .seq (hr.value le_rfl htest) fun _ => branch 1 0 rfl (by simp)
  · subst hsome
    exact .seq (hr.value le_rfl hupdate) fun _ => .op 1 0 rfl

theorem forIn {object : Expr} (hhead : C.Allows (head.isRegular false)) (hobject : C.Allows (object.isRegular false)) :
    Drafts C C.base (Emit.forIn r names head object body) (fun _ => C.base) [] noNames body.exports := by
  refine .seq resetCompletion fun _ => inHeadScope fun _ => .seq (hr.value le_rfl hobject) fun _ => ?_
  refine .seq (.op 1 1 rfl) fun _ => newLabel (C.base + 2) fun top => newLabel (C.base + 1) fun next =>
    newLabel (C.base + 1) fun exit => .seq (goto (by simp) (C.base + 2)) fun _ => ?_
  refine loopTarget fun scope => within (placed_loopIn (by simp) (by simp)) ?_
  exact mark_seq (by simp) fun _ =>
    .seq (bindHead le_rfl hhead) fun _ =>
    .exporting_all (hr.stmt [] hbody) fun _ =>
    mark_seq (by simp) fun _ =>
    .seq (.op 1 3 rfl) fun _ =>
    .seq (branch 1 0 rfl (by simp)) fun _ =>
    .seq (.op 1 0 rfl) fun _ =>
    mark_seq (by simp) fun _ =>
    .op 1 0 rfl

theorem forOf {iterable : Expr} (hhead : C.Allows (head.isRegular false))
    (hiterable : C.Allows (iterable.isRegular false)) (isAwait : Bool) (span : Span) :
    Drafts C C.base (Emit.forOf r names head iterable body isAwait span) (fun _ => C.base) [] noNames body.exports := by
  refine .read (.of_state _) fun _ => guarded (.seq resetCompletion fun _ => inHeadScope fun _ => ?_)
  refine .seq (hr.value le_rfl hiterable) fun _ => .seq (iteratorStart isAwait) fun _ =>
    newLabel (C.base + 4) fun top => newLabel (C.base + 3) fun next => newLabel (C.base + 3) fun exit =>
    .seq (goto (by simp) (C.base + 4)) fun _ => ?_
  refine loopTarget fun scope => within (placed_withIterator (placed_loopIn (by simp) (by simp)) rfl) ?_
  refine mark_seq (by simp) fun _ => .seq (bindHead le_rfl hhead) fun _ =>
    .exporting_all (hr.stmt [] hbody) fun _ => mark_seq (by simp) fun _ => ?_
  exact either (fun _ => ops 3 5 rfl) (fun _ => opInt 3 5 0 rfl) fun _ =>
    .seq (branch 1 0 rfl (by simp)) fun _ =>
    .seq (.op 1 0 rfl) fun _ =>
    mark_seq (by simp) fun _ =>
    .op 3 0 rfl

end

/-! ## Conditions and switches -/

theorem completeWith : Drafts C (d + 1) Emit.completeWith (fun _ => d) := by
  refine draft fun _ _ _ hc => ?_
  split
  · rename_i hidx
    exact putCompletion (hc.symm.trans hidx)
  · exact .op 1 0 rfl

theorem ifElse {yes : Stmt} {no} (htest : C.Allows (test.isRegular false)) (hyes : C.Allows (yes.isRegular false))
    (hno : C.Allows (optStmtRegular false no)) :
    Drafts C C.base (Emit.ifElse r test yes no) (fun _ => C.base) [] noNames (yes.exports ++ optStmtExports no) := by
  refine .seq resetCompletion fun _ => newLabel C.base fun other => .seq (hr.value le_rfl htest) fun _ =>
    .seq (branch 1 0 rfl (by simp)) fun _ => .exporting (hr.stmt [] hyes) fun _ => ?_
  cases no with
  | none => exact mark (by simp)
  | some s =>
    exact newLabel C.base fun _ =>
      .seq (goto (by simp) C.base) fun _ =>
      mark_seq (by simp) fun _ =>
      .exporting_all (hr.stmt [] hno) fun _ =>
      mark (by simp)

/-- Tests leave the discriminant on the stack, and so do the jumps to cases. -/
theorem switchTests (hd : C.base ≤ d + 1) {exit} (hexit : (exit, d + 1) ∈ C.labels) {cases}
    (hcases : ∀ c ∈ cases, C.Allows (c.1.isRegular false) ∧ (c.2, d + 1) ∈ C.labels) (default? : Option Nat)
    (hdefault : ∀ l, default? = some l → (l, d + 1) ∈ C.labels) (e : Nat) :
    Drafts C (d + 1) (Emit.switchTests r exit cases default?) (fun _ => e) := by
  induction cases generalizing default? with
  | nil =>
    cases default? with
    | none => exact goto hexit e
    | some l => exact goto (hdefault l rfl) e
  | cons c cases ih =>
    obtain ⟨⟨test, body, span⟩, label⟩ := c
    rw [List.forall_mem_cons] at hcases
    obtain ⟨hregular, hlabel⟩ := hcases.1
    simp only [SwitchCase.isRegular, allows_and] at hregular
    cases test with
    | some test =>
      exact .seq (locate span) fun _ =>
        .seq (.op 1 2 rfl) fun _ =>
        .seq (hr.value (Nat.le_succ_of_le hd) hregular.1) fun _ =>
        .seq (.op 2 1 rfl) fun _ =>
        .seq (branch 1 0 rfl hlabel) fun _ =>
        ih hcases.2 default? hdefault
    | none =>
      refine ih hcases.2 (some label) ?_
      intro l hl
      cases hl
      exact hlabel

/-- A supply with more labels. -/
structure Wider (C C' : Supply) : Prop where
  base : C'.base = C.base
  measured : C'.measured = C.measured
  labels : C.labels ⊆ C'.labels

/-- Every case gets a label, which is marked once. -/
theorem labelCases {f : List (SwitchCase × Nat) → Emit β} (k : Nat) {cases}
    (h : ∀ C', Wider C C' → ∀ labeled, labeled.map (·.1) = cases → (∀ c ∈ labeled, (c.2, k) ∈ C'.labels) →
      Drafts C' d (f labeled) post (marks ++ labeled.map (·.2)) names' exports) :
    Drafts C d (cases.mapM (fun c => do return (c, ← Emit.newLabel)) >>= f) post marks names' exports := by
  induction cases generalizing C f marks with
  | nil =>
    have hnil := h C ⟨rfl, rfl, List.Subset.refl _⟩ [] rfl nofun
    rwa [List.map_nil, List.append_nil] at hnil
  | cons c cases ih =>
    rw [List.mapM_cons, bind_assoc, bind_assoc]
    refine newLabel k fun l => ?_
    rw [pure_bind, bind_assoc]
    refine ih fun C' hwider labeled hcases hlabeled => ?_
    rw [pure_bind]
    have hcons := h C' ⟨hwider.base, hwider.measured, fun _ hl => hwider.labels (List.mem_cons_of_mem _ hl)⟩
      ((c, l) :: labeled) (congrArg (c :: ·) hcases)
      (List.forall_mem_cons.mpr ⟨hwider.labels List.mem_cons_self, hlabeled⟩)
    rwa [List.map_cons, List.append_cons] at hcons

/-- Every item marks a label and exports something. -/
theorem forM_marks {α : Type} {f : α → Emit Unit} {label : α → Nat} {items : α → List ExportItem} {xs : List α}
    (h : ∀ x ∈ xs, Drafts C d (f x) (fun _ => d) [label x] noNames (items x)) :
    Drafts C d (xs.forM f) (fun _ => d) (xs.map label) noNames (xs.flatMap items) := by
  induction xs with
  | nil => exact .pure ()
  | cons x xs ih =>
    rw [List.forall_mem_cons] at h
    exact append h.1 fun _ => ih h.2

theorem switch (names : List Atom) {discriminant : Expr} {cases : List SwitchCase}
    (hdiscriminant : C.Allows (discriminant.isRegular false)) (hcases : ∀ c ∈ cases, C.Allows (c.isRegular false)) :
    Drafts C C.base (Emit.switch r names discriminant cases) (fun _ => C.base) [] noNames
      (switchCasesExports cases) := by
  have hbodies : ∀ c ∈ cases, ∀ s ∈ c.body, C.Allows (s.isRegular false) := by
    intro c hc
    obtain ⟨test, body, span⟩ := c
    have hregular := hcases _ hc
    simp only [SwitchCase.isRegular, stmtsRegular_eq, allows_and, allows_all] at hregular
    exact hregular.2
  refine .seq resetCompletion fun _ => .seq (hr.value le_rfl hdiscriminant) fun _ => inScope ?_
  refine .seq (forM fun c hc => hoistBlock rfl false (hbodies c hc)) fun _ => newLabel (C.base + 1) fun exit => ?_
  refine loopTarget fun scope => within (placed_loopIn (by simp) (by simp)) (labelCases (C.base + 1) ?_)
  intro C' hwider labeled hlabeled hlabels
  have hbase : C'.base = C.base + 1 := hwider.base
  have hsame : C'.measured = C.measured := hwider.measured
  have hexit : (exit, C.base + 1) ∈ C'.labels := hwider.labels List.mem_cons_self
  have hmem : ∀ c ∈ labeled, c.1 ∈ cases := fun c hc => hlabeled ▸ List.mem_map_of_mem hc
  have htests := switchTests (r := r) hbase.le hexit
    (fun c hc => ⟨fun hC => hcases c.1 (hmem c hc) (hsame ▸ hC), hlabels c hc⟩) none nofun (C.base + 1)
  have hexports : switchCasesExports cases = (labeled.flatMap fun c => stmtsExports c.1.body) ++ [] := by
    rw [switchCasesExports_eq_flatMap, ← hlabeled, List.flatMap_map, List.append_nil]
    simp only [SwitchCase.exports_eq]
  rw [hexports]
  refine reorder (.seq htests fun _ => append (forM_marks fun c hc => ?_) fun _ =>
    mark_seq hexit fun _ => .op 1 0 rfl) List.perm_append_comm
  refine mark_seq (hlabels c hc) fun _ => ?_
  rw [← hbase]
  exact stmts fun s hs hC => hbodies c.1 (hmem c hc) s hs (hsame ▸ hC)

/-! ## Labels -/

theorem labeled (names : List Atom) (label : Ident) (hbody : C.Allows (body.isRegular false)) (span : Span) :
    Drafts C C.base (Emit.labeled r names label body span) (fun _ => C.base) [] noNames body.exports := by
  refine intern _ fun name => .read (.of_state _) fun _ => guarded (.ite (fun _ => hr.stmt _ hbody) fun _ => ?_)
  refine newLabel C.base fun exit => loopTarget fun scope => ?_
  refine within ⟨fun l hl => ?_, nofun, nofun, nofun⟩ ?_
  · cases hl
    exact List.mem_cons_self
  exact .exporting_all (hr.stmt [] hbody) fun _ => mark (by simp)

/-! ## Exceptions -/

/-- A block whose finalizer is there. -/
theorem guardedBlock {ss : List Stmt} (hss : ∀ s ∈ ss, C.Allows (s.isRegular false)) (held : Nat) {finalizer}
    (h : ∀ l, finalizer = some l → C.measured = false ∧ ∃ k, (l, k) ∈ C.labels) (scope : Nat) :
    Drafts C (C.base + held) (Emit.within (Emit.guardTarget held finalizer scope) (Emit.block r ss))
      (fun _ => C.base + held) [] noNames (stmtsExports ss) :=
  within ⟨nofun, nofun, h, nofun⟩ (block hss)

theorem inCatchScope (hd : C.base ≤ d) {param} (hparam : C.Allows (optPatternRegular false param)) {rest}
    (hrest : Drafts C.enclose d rest (fun _ => e) [] noNames exports) :
    Drafts C (d + 1) (Emit.inCatchScope r param rest) (fun _ => e) [] noNames exports := by
  refine inScope ?_
  cases param with
  | none => exact .seq (.op 1 0 rfl) fun _ => hrest
  | some p => exact .seq (declareBound rfl) fun _ => .seq (hr.bind .lexical hd hparam) fun _ => hrest

/-- The completion value is put aside while a finalizer is emitted. -/
theorem finalizerBody {body : Block} (hbody : C.Allows (body.isRegular false)) (scope e : Nat) :
    Drafts C (C.base + 2) (Emit.finalizerBody r body scope) (fun _ => e) [] noNames body.exports := by
  obtain ⟨ss, span⟩ := body
  simp only [Block.isRegular, stmtsRegular_eq, allows_all] at hbody
  intro s a s' hs hrun
  obtain ⟨_, s₀, hread, hrest⟩ := run_bind_eq_ok.mp hrun
  obtain ⟨_, s₁, hset, hrest⟩ := run_bind_eq_ok.mp hrest
  obtain ⟨_, s₂, hinner, hrest⟩ := run_bind_eq_ok.mp hrest
  obtain ⟨_, s₃, hreset, hret⟩ := run_bind_eq_ok.mp hrest
  cases hread
  cases hset
  cases hreset
  have hready : C.uncompleted.Ready (s.withCompletion none) := { hs with completion := rfl }
  have hblock := guardedBlock (C := C.uncompleted) hbody 2 (by nofun) scope _ _ s₂ hready hinner
  have hdone : C.Outcome [] (C.base + 2) (C.base + 2) [] (stmtsExports ss) s (s₂.withCompletion s.draft.completion) :=
    ⟨hblock.drafted.uncompleted, nofun, fun hC => { hblock.exported hC with }, hblock.scope⟩
  have hlast := Drafts.opLast (o := .ret) (k := C.base + 1) 1 rfl e _ _ s' (hdone.ready hs) hret
  rw [Block.exports_eq, ← List.append_nil (stmtsExports _)]
  exact hdone.trans hlast

theorem handle {handler} (hhandler : C.Allows (optCatchRegular false handler)) {finalizer}
    (h : ∀ l, finalizer = some l → C.measured = false ∧ ∃ k, (l, k) ∈ C.labels) (scope : Nat) {exit}
    (hexit : (exit, C.base) ∈ C.labels) (e : Nat) :
    Drafts C (C.base + 1) (Emit.handle r handler finalizer scope exit) (fun _ => e) [] noNames
      (optCatchExports handler) := by
  cases handler with
  | none => exact .seq (runFinalizer h) fun _ => opLast 1 rfl e
  | some c =>
    obtain ⟨param, ⟨ss, span⟩, span'⟩ := c
    simp only [optCatchRegular, CatchClause.isRegular, Block.isRegular, stmtsRegular_eq, allows_and,
      allows_all] at hhandler
    -- without a finalizer, the label of the rethrow is not used
    cases finalizer with
    | none =>
      exact spareLabel fun _ => .exporting_all (inCatchScope le_rfl hhandler.1 (block hhandler.2)) fun _ =>
        goto hexit e
    | some l =>
      refine newLabel (C.base + 1) fun rethrow => ?_
      have h' : ∀ l', some l = some l' →
          C.measured = false ∧ ∃ k, (l', k) ∈ (C.withLabel rethrow (C.base + 1)).labels :=
        fun l' hl' => (h l' hl').imp_right fun ⟨k, hk⟩ => ⟨k, List.mem_cons_of_mem _ hk⟩
      refine .exporting_all (inCatchScope (C := C.withLabel rethrow _) le_rfl hhandler.1
        (.seq (branch 0 1 rfl (by simp)) fun _ =>
          guardedBlock (C := (C.withLabel rethrow _).enclose) hhandler.2 1 h' scope)) fun _ => ?_
      exact .seq (.op 1 0 rfl) fun _ =>
        .seq (runFinalizer h') fun _ =>
        .seq (goto (List.mem_cons_of_mem _ hexit) (C.base + 1)) fun _ =>
        mark_seq (by simp) fun _ =>
        .seq (runFinalizer h') fun _ =>
        opLast 1 rfl e

/-- The protected block and the handler. -/
theorem protect {ss : List Stmt} (hss : ∀ s ∈ ss, C.Allows (s.isRegular false)) {handler}
    (hhandler : C.Allows (optCatchRegular false handler)) {finalizer}
    (h : ∀ l, finalizer = some l → C.measured = false ∧ ∃ k, (l, k) ∈ C.labels) {caught exit}
    (hcaught : (caught, C.base + 1) ∈ C.labels) (hexit : (exit, C.base) ∈ C.labels) (scope : Nat) {rest}
    (hrest : Drafts C d rest post marks names' exports) :
    Drafts C C.base (do
      Emit.jump .catchTo caught
      Emit.within (Emit.guardTarget 1 finalizer scope) (Emit.block r ss)
      Emit.op .drop
      Emit.runFinalizer finalizer
      Emit.jump .goto exit
      Emit.mark caught
      Emit.handle r handler finalizer scope exit
      rest) post (caught :: marks) names' (stmtsExports ss ++ (optCatchExports handler ++ exports)) :=
  .seq (branch 0 1 rfl hcaught) fun _ =>
  .exporting (guardedBlock hss 1 h scope) fun _ =>
  .seq (.op 1 0 rfl) fun _ =>
  .seq (runFinalizer h) fun _ =>
  .seq (goto hexit (C.base + 1)) fun _ =>
  mark_seq hcaught fun _ =>
  .exporting (handle hhandler h scope hexit d) fun _ =>
  hrest

theorem tryCatch {body : Block} {handler finalizer} (hnone : C.Allows finalizer.isNone)
    (hbody : C.Allows (body.isRegular false)) (hhandler : C.Allows (optCatchRegular false handler))
    (hfinalizer : C.Allows (optBlockRegular false finalizer)) :
    Drafts C C.base (Emit.tryCatch r body handler finalizer) (fun _ => C.base) [] noNames
      (body.exports ++ (optCatchExports handler ++ optBlockExports finalizer)) := by
  obtain ⟨ss, span⟩ := body
  simp only [Block.isRegular, stmtsRegular_eq, allows_all] at hbody
  refine .seq resetCompletion fun _ => newLabel (C.base + 1) fun caught => newLabel C.base fun exit => ?_
  cases finalizer with
  | none =>
    rw [show (none : Option Block).mapM (fun _ => Emit.newLabel) = pure none from rfl, pure_bind]
    refine .read (.of_state _) fun scope => ?_
    exact protect (C := (C.withLabel caught _).withLabel exit _) hbody hhandler (by nofun) (by simp) (by simp)
      scope (mark (by simp))
  | some b =>
    rw [show (some b).mapM (fun _ => Emit.newLabel) = some <$> Emit.newLabel from rfl, bind_map_left]
    refine newLabel (C.base + 2) fun finally_ => .read (.of_state _) fun scope => ?_
    -- the finalizer comes before the exit
    have hperm : [caught, finally_, exit].Perm [caught, exit, finally_] := .cons _ (.swap ..)
    let C' := ((C.withLabel caught (C.base + 1)).withLabel exit C.base).withLabel finally_ (C.base + 2)
    have hfinally : (finally_, C.base + 2) ∈ C'.labels := List.mem_cons_self
    refine reorder (protect (C := C') hbody hhandler (fun l hl => ⟨Supply.measured_of_allows hnone, C.base + 2, ?_⟩)
      (by simp [C']) (by simp [C']) scope (mark_seq hfinally fun _ =>
        .exporting_all (finalizerBody (C := C') hfinalizer scope _) fun _ => mark (by simp [C']))) hperm
    cases hl
    exact hfinally

theorem withObject {object : Expr} (hobject : C.Allows (object.isRegular false))
    (hbody : C.Allows (body.isRegular false)) (span : Span) :
    Drafts C C.base (Emit.withObject r object body span) (fun _ => C.base) [] noNames body.exports :=
  .read (.of_state _) fun _ => guarded <|
  .seq resetCompletion fun _ =>
  .seq (hr.value le_rfl hobject) fun _ =>
  .seq (.op 1 1 rfl) fun _ =>
  inScope <| .seq (declare rfl (.inl rfl)) fun _ =>
  .seq (access 1 0 rfl (.inl rfl)) fun _ =>
  hr.stmt [] hbody

/-! ## Exports -/

/-- The tables change: something is exported, or imports are declared. -/
theorem modifyTables {f} (hmodule : C.inModule)
    (hcovered : ∀ s, C.Ready s → ∀ m, m.Covered s.atoms → (f m).Covered s.atoms)
    (hlists : C.importing = false → ∀ s, C.Ready s → ∀ m before, m.Lists s.atoms before →
      (f m).imports = m.imports ∧ (f m).Lists s.atoms (before ++ exports)) :
    Drafts C d (Emit.modifyTables f) (fun _ => d) [] noNames exports := by
  refine of_exported (fun s hs => .step (.tables fun hold m hm => ?_)) (fun _ => rfl) fun hC s hs =>
    ⟨rfl, fun h => ?_, ?_⟩
  · obtain ⟨m₀, hm₀, rfl⟩ := Option.map_eq_some_iff.mp hm
    exact hcovered s hs m₀ (hold m₀ hm₀)
  · exact absurd (hs.role hmodule) h
  · intro m hm before hbefore
    exact ⟨f m, congrArg (Option.map f) hm, hlists hC s hs m before hbefore⟩

theorem exportLocal {name exported binding a place} (hname : C.Names name binding) (hexported : C.Names exported a)
    (hmodule : C.inModule) :
    Drafts C d (Emit.exportLocal binding a place) (fun _ => d) [] noNames [.binding name exported] := by
  refine modifyTables hmodule (fun s hs m hm => { hm with localExports := fun e he => ?_ }) fun _ s hs m before h => ?_
  · rcases Array.mem_push.mp he with he | rfl
    · exact hm.localExports e he
    · exact hs.covers_of_names hexported
  · exact ⟨rfl, h.exportLocal (.mk (hs.atom?_eq hname) (hs.atom?_eq hexported))⟩

theorem exportFrom {source name exported sourceAtom nameAtom exportedAtom} (hsource : C.Names source sourceAtom)
    (hname : C.Names name nameAtom) (hexported : C.Names exported exportedAtom) (hmodule : C.inModule) :
    Drafts C d (Emit.modifyTables (·.exportFrom sourceAtom nameAtom exportedAtom)) (fun _ => d) [] noNames
      [.reexport source name exported] := by
  refine modifyTables hmodule (fun s hs m hm => ?_) fun _ s hs m before h => ⟨m.imports_require _ _, ?_⟩
  · exact hm.exportFrom (hs.covers_of_names hsource) (hs.covers_of_names hname) (hs.covers_of_names hexported)
  · exact h.exportFrom (hs.atom?_eq hsource) (hs.atom?_eq hname) (hs.atom?_eq hexported)

theorem exportAllFrom {source sourceAtom} (hsource : C.Names source sourceAtom) (hmodule : C.inModule) :
    Drafts C d (Emit.modifyTables (·.exportAllFrom sourceAtom)) (fun _ => d) [] noNames [.all source] := by
  refine modifyTables hmodule (fun s hs m hm => ?_) fun _ s hs m before h => ⟨m.imports_require _ _, ?_⟩
  · exact { hm.require (hs.covers_of_names hsource) (.inl rfl) with }
  · exact h.exportAllFrom (hs.atom?_eq hsource)

theorem bindClass (hd : C.base ≤ d) {c : ClassNode} (hc : C.Allows (c.isRegular false)) {name binding}
    (hname : C.Knows name) (hbinding : C.Knows binding) :
    Drafts C d (Emit.bindClass r c name binding) (fun _ => d) :=
  .seq (hr.classDef hd hc hname) fun _ => access 1 0 rfl hbinding

theorem exportDefaultDecl (hmodule : C.inModule) (hd : C.base ≤ d) {s : Stmt} (hs : C.Allows (s.isRegular false))
    (place : Location) : Drafts C d (Emit.exportDefaultDecl r s place) (fun _ => d) [] noNames
      [.binding s.defaultBinding "default"] := by
  cases s with
  | functionDecl f =>
    simp only [Emit.exportDefaultDecl, Stmt.defaultBinding]
    cases f.id with
    | none => exact exportLocal C.names_defaultBinding C.names_default hmodule
    | some id => exact name _ fun _ => exportLocal (names_self ..) (Supply.names_default _) hmodule
  | classDecl c =>
    simp only [Emit.exportDefaultDecl, Stmt.defaultBinding]
    cases c.id with
    | none =>
      exact .seq (bindClass hd hs (.inl rfl) (.inl rfl)) fun _ =>
        exportLocal C.names_defaultBinding C.names_default hmodule
    | some id =>
      have hknown := fun a => C.knows_withName id.name a
      exact name _ fun a => .seq (bindClass (C := C.withName id.name a) hd hs (hknown a) (hknown a)) fun _ =>
        exportLocal (names_self ..) (Supply.names_default _) hmodule
  | _ => exact unsupported _ _

theorem exportDecl (hmodule : C.inModule) {kind : ExportKind} (hkind : C.Allows (kind.isRegular false)) (span : Span) :
    Drafts C C.base (Emit.exportDecl r kind span) (fun _ => C.base) [] noNames kind.exports := by
  cases kind with
  | named specifiers source =>
    cases source with
    | none =>
      simp only [ExportKind.exports, List.map_eq_flatMap]
      exact forM_exporting fun _ _ => name _ fun _ => name _ fun _ =>
        exportLocal ((names_self ..).withName _ _) (names_self ..) hmodule
    | some source =>
      simp only [ExportKind.exports, List.map_eq_flatMap]
      exact forM_exporting fun _ _ => name _ fun _ => name _ fun _ => name _ fun _ =>
        exportFrom (names_self ..) (((names_self ..).withName _ _).withName _ _)
          ((names_self ..).withName _ _) hmodule
  | byDefault e =>
    exact .seq (hr.expr le_rfl hkind (Supply.Knows.some (.inl rfl))) fun _ =>
      .seq (access 1 0 rfl (.inl rfl)) fun _ => exportLocal C.names_defaultBinding C.names_default hmodule
  | defaultDecl s => exact exportDefaultDecl hmodule le_rfl hkind _
  | decl s =>
    simp only [ExportKind.exports, List.map_eq_flatMap]
    exact .exporting (hr.stmt [] hkind) fun _ => forM_exporting fun _ _ => name _ fun _ =>
      exportLocal (names_self ..) (names_self ..) hmodule
  | all source => exact name _ fun _ => exportAllFrom (names_self ..) hmodule
  | allAs exported source =>
    exact name _ fun _ => name _ fun _ =>
      exportFrom (names_self ..) (Supply.names_star _) ((names_self ..).withName _ _) hmodule

/-- Exports stand in modules only. -/
theorem exportStmt {kind : ExportKind} (hkind : C.Allows (kind.isRegular false)) (span : Span) :
    Drafts C C.base (do
      if (← get).tables.isNone || (← Emit.frame).role != .module then Emit.misuse .exportOutsideModule span
      Emit.exportDecl r kind span) (fun _ => C.base) [] noNames kind.exports := by
  intro s a s' hs hrun
  obtain ⟨_, _, hget, hrun⟩ := run_bind_eq_ok.mp hrun
  obtain ⟨_, _, hframe, hrun⟩ := run_bind_eq_ok.mp hrun
  cases hget
  cases hframe
  split at hrun
  · obtain ⟨_, _, hmisuse, -⟩ := run_bind_eq_ok.mp hrun
    cases hmisuse
  · rename_i hmodule
    have hrole : s.draft.frame.role = .module := by
      rw [Bool.not_eq_true, Bool.or_eq_false_iff] at hmodule
      exact bne_eq_false_iff_eq.mp hmodule.2
    exact { exportDecl (C := C.asModule) rfl hkind span s a s' { hs with role := fun _ => hrole } hrun with }

/-! ## All statements -/

theorem stmt (names : List Atom) {s : Stmt} (hs : C.Allows (s.isRegular false)) :
    Drafts C C.base (Emit.stmt r names s) (fun _ => C.base) [] noNames s.exports := by
  refine .seq (locate _) fun _ => ?_
  cases s with
  | empty span => exact .pure _
  | debugger span => exact .pure _
  | functionDecl f => exact .pure _
  | expr e span => exact .seq (hr.value le_rfl hs) fun _ => completeWith
  | block b =>
    obtain ⟨ss, span⟩ := b
    simp only [Stmt.isRegular, Block.isRegular, stmtsRegular_eq, allows_all] at hs
    exact block hs
  | varDecl v => exact varDecl le_rfl hs
  | ifElse test yes no span =>
    simp only [Stmt.isRegular, allows_and] at hs
    exact ifElse hs.1.1 hs.1.2 hs.2
  | whileLoop test body span =>
    simp only [Stmt.isRegular, allows_and] at hs
    exact whileLoop names hs.2 hs.1
  | doWhile body test span =>
    simp only [Stmt.isRegular, allows_and] at hs
    exact doWhile names hs.1 hs.2
  | forLoop init test update body span =>
    simp only [Stmt.isRegular, allows_and] at hs
    exact forLoop names hs.2 hs.1.1.1 hs.1.1.2 hs.1.2
  | forIn left right body span =>
    simp only [Stmt.isRegular, allows_and] at hs
    exact forIn names hs.2 hs.1.1 hs.1.2
  | forOf left right body isAwait span =>
    simp only [Stmt.isRegular, allows_and] at hs
    exact forOf names hs.2 hs.1.1 hs.1.2 isAwait span
  | switch discriminant cases span =>
    simp only [Stmt.isRegular, switchCasesRegular_eq, allows_and, allows_all] at hs
    exact switch names hs.1 hs.2
  | breakTo label span => exact jumpOut _ label span _
  | continueTo label span => exact jumpOut _ label span _
  | returnValue value span =>
    refine .read (.of_state _) fun _ => guarded ?_
    cases value with
    | none => exact .seq (.op 0 1 rfl) fun _ => returnFrom le_rfl _
    | some e => exact .seq (hr.value le_rfl hs) fun _ => returnFrom le_rfl _
  | throwValue value span => exact .seq (hr.value le_rfl hs) fun _ => opLast 1 rfl _
  | tryCatch body handler finalizer span =>
    simp only [Stmt.isRegular, Bool.false_or, allows_and] at hs
    exact tryCatch hs.1.1.1 hs.1.1.2 hs.1.2 hs.2
  | labeled label body span =>
    have hbody : C.Allows (body.isRegular false) := hs
    exact labeled names label hbody span
  | withObject object body span =>
    simp only [Stmt.isRegular, allows_and] at hs
    exact withObject hs.1 hs.2 span
  | classDecl c =>
    have hc : C.Allows (c.isRegular false) := hs
    dsimp only
    split
    · exact intern _ fun name =>
        bindClass (C := C.know [name]) le_rfl hc (C.knows_self name) (C.knows_self name)
    · exact misuse _ _
  | importDecl v => exact .read (.of_state id) fun _ => .ite (fun _ => misuse _ _) fun _ => .pure _
  | exportDecl kind span =>
    have hkind : C.Allows (kind.isRegular false) := hs
    exact exportStmt hkind span

end Drafts

end ScriptBytecode
