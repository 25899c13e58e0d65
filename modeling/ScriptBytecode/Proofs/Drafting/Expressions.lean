import ScriptBytecode.Proofs.Drafting.Calls
import ScriptBytecode.Proofs.Drafting.Exits

/-!
# Drafts of expressions

Every expression leaves one value on the stack, if it is regular.
-/

namespace ScriptBytecode.Drafts

open Supply (allows_and allows_all)

variable {C : Supply} {d : Nat} {r : Parts} [hr : r.Drafting]

variable {arg value : Expr} {name : Option Atom}

/-! ## Literals, templates and objects -/

theorem number_cases (x : Binary64) : Value.number x = .float x ∨ ∃ n, Value.number x = .int n := by
  unfold Value.number
  split
  · split
    · exact .inr ⟨_, rfl⟩
    · exact .inl rfl
  · exact .inl rfl

theorem literal (l : Literal) (span : Span) : Drafts C d (Emit.literal l span) (fun _ => d + 1) := by
  unfold Emit.literal
  split
  · exact .op 0 1 rfl
  · exact .op 0 1 rfl
  · exact .op 0 1 rfl
  · exact .op 0 1 rfl
  · split
    · exact pushInt _
    · rename_i hne
      rcases number_cases _ with h | ⟨n, h⟩
      · rw [h]
        exact pushConstant rfl
      · exact absurd h (hne n)
  · split
    · exact pushConstant rfl
    · exact misuse _ _
  · exact pushText _
  · exact .seq (pushConstant rfl) fun _ => .seq (pushConstant rfl) fun _ => .op 2 1 rfl

theorem cookedText (q : TemplateElement) : Drafts C d (Emit.cookedText q) (fun _ => d) := by
  unfold Emit.cookedText
  split
  · exact .pure _
  · exact misuse _ _

theorem templateObject (t : Template) : Drafts C d (Emit.templateObject t) (fun _ => d + 1) := by
  refine .seq freshId fun _ => pushConstant (Bool.and_eq_true_iff.mpr ⟨?_, ?_⟩)
  · refine List.all_eq_true.mpr (List.forall_mem_map.mpr fun q _ => ?_)
    cases q.cooked <;> rfl
  · exact List.all_eq_true.mpr (List.forall_mem_map.mpr fun _ _ => rfl)

variable (hd : C.base ≤ d)
include hd

/-- As many values are put on the stack as the result says. -/
theorem templateParts {es} (hes : ∀ e ∈ es, C.Allows (e.isRegular false)) (texts : List String) :
    Drafts C d (Emit.templateParts r es texts) (fun n => d + n) := by
  induction es generalizing d texts with
  | nil => exact result _ rfl nofun
  | cons e es ih =>
    rw [List.forall_mem_cons] at hes
    have hrest : ∀ here, Drafts C (d + here) (do return here + (← Emit.templateParts r es texts.tail))
        (fun n => d + n) := fun here =>
      .seq (ih (Nat.le_add_right_of_le hd) hes.2 _) fun n => result _ (Nat.add_assoc ..).symm nofun
    have hresult : ∀ here : Nat, Drafts C (d + here) (Pure.pure here) (fun n => d + n) := fun here => result here rfl nofun
    unfold Emit.templateParts
    refine .seq (hr.value hd hes.1) fun _ => ?_
    split
    · split
      · exact .seq (hresult 1) hrest
      · exact .seq (pushText _) fun _ => .seq (hresult 2) hrest
    · exact .seq (hresult 1) hrest

theorem template {t : Template} (ht : C.Allows (t.isRegular false)) :
    Drafts C d (Emit.template r t) (fun _ => d + 1) := by
  obtain ⟨quasis, expressions, span⟩ := t
  simp only [Template.isRegular, exprsRegular_eq, allows_all] at ht
  refine .seq (anonymous (mapM noNames fun _ q _ => cookedText q)) fun _ => .seq (pushText _) fun _ => ?_
  refine .ite (fun _ => .seq (opAtom 1 2 rfl (.inl rfl)) fun _ => ?_) fun _ => .pure _
  exact .seq (templateParts (Nat.le_add_right_of_le hd) ht _) fun n => opCount 2 1 n rfl

theorem method {key : PropertyKey} (hkey : C.Allows (key.isRegular false)) {role : Role}
    (hrole : role.isTopLevel = false) (flags : Nat) {f : FunctionNode} (hf : C.Allows (f.isRegular false)) :
    Drafts C (d + 1) (Emit.method r key role flags f) (fun _ => d + 1) := by
  unfold Emit.method
  split
  · exact .seq (hr.value (Nat.le_add_right_of_le hd) hkey) fun _ => .seq (.op 1 1 rfl) fun _ =>
      nesting (hr.function hf (.inl rfl) hrole) fun child => .before (.pushClosure child) fun _ => opInt 3 1 _ rfl
  · exact .bind (keyAtom _) fun key => nesting (hr.function hf (C.knows_self key) hrole) fun child =>
      .before (.pushClosure child) fun _ => opAtomInt 2 1 _ rfl (C.knows_self key)

theorem property {key : PropertyKey} (hkey : C.Allows (key.isRegular false))
    (hvalue : C.Allows (value.isRegular false)) (isShorthand : Bool) (span : Span) :
    Drafts C (d + 1) (Emit.property r key value isShorthand span) (fun _ => d + 1) := by
  have hd' : ∀ k, C.base ≤ d + k := fun k => Nat.le_add_right_of_le hd
  unfold Emit.property
  split
  · exact .seq (hr.value (hd' 1) hkey) fun _ => .seq (.op 1 1 rfl) fun _ => .seq (hr.value (hd' 2) hvalue) fun _ =>
      optionally (fun _ => .op 2 2 rfl) fun _ => ops 3 1 rfl
  · exact misuse _ _
  · refine .bind (keyAtom _) fun key => .ite (fun _ => ?_) fun _ => ?_
    · exact .seq (hr.value (hd' 1) hvalue) fun _ => .op 2 1 rfl
    · exact .seq (hr.expr (hd' 1) hvalue (C.knows_self key).some) fun _ => opAtom 2 1 rfl (C.knows_self key)

theorem objectMember {m : ObjectMember} (hm : C.Allows (m.isRegular false)) :
    Drafts C (d + 1) (Emit.objectMember r m) (fun _ => d + 1) := by
  cases m with
  | spread arg span =>
    exact .seq (hr.value (Nat.le_add_right_of_le hd) hm) fun _ => .seq (.op 0 1 rfl) fun _ =>
      .seq (opInt 3 3 _ rfl) fun _ => ops 2 0 rfl
  | property key value kind isMethod isShorthand span =>
    simp only [ObjectMember.isRegular, allows_and] at hm
    refine .seq (locate span) fun _ => ?_
    split
    · split
      · exact method hd hm.1 rfl _ hm.2
      · exact misuse _ _
    · exact property hd hm.1 hm.2 _ _

theorem object {members} (hmembers : ∀ m ∈ members, C.Allows (m.isRegular false)) :
    Drafts C d (Emit.object r members) (fun _ => d + 1) :=
  .seq (.op 0 1 rfl) fun _ => forM fun m hm => objectMember hd (hmembers m hm)

/-! ## Suspending -/

omit hd in
theorem awaitIf (isAsync : Bool) : Drafts C (d + 1) (Emit.awaitIf isAsync) (fun _ => d + 1) :=
  .ite (fun _ => .op 1 1 rfl) fun _ => .pure _

omit hd in
theorem iteratorResult (isAsync : Bool) : Drafts C (d + 1) (Emit.iteratorResult isAsync) (fun _ => d + 2) :=
  .seq (awaitIf isAsync) fun _ => .seq (.op 1 1 rfl) fun _ => opAtom 1 2 rfl (.inl rfl)

omit hd in
theorem request (q : Emit.IteratorRequest) : Drafts C (d + 4) (Emit.request q) (fun _ => d + 5) :=
  opInt 4 5 _ rfl

omit hd in
theorem iteratorStart (isAsync : Bool) :
    Drafts C (d + 1) (Emit.op (if isAsync then .forAwaitOfStart else .forOfStart)) (fun _ => d + 3) := by
  cases isAsync <;> exact .op 1 3 rfl

/-- While an iterator is delegated to, it takes three values; what it was sent or sent back is above them. The eight
labels are marked in the order in which they are made. -/
theorem yieldFrom (harg : C.Allows (arg.isRegular false)) (isAsync : Bool) :
    Drafts C d (Emit.yieldFrom r arg isAsync) (fun _ => d + 1) := by
  refine newLabel (d + 4) fun loop => newLabel (d + 4) fun yielding => newLabel (d + 5) fun resumed =>
    newLabel (d + 4) fun returned => newLabel (d + 4) fun throwing => newLabel (d + 4) fun cannotThrow =>
    newLabel (d + 4) fun closed => newLabel (d + 4) fun done => ?_
  refine .seq (hr.value hd harg) fun _ => .seq (iteratorStart isAsync) fun _ => .seq (.op 0 1 rfl) fun _ => ?_
  refine mark_seq (by simp) fun _ => .seq (.op 4 4 rfl) fun _ => .seq (iteratorResult isAsync) fun _ =>
    .seq (branch 1 0 rfl (by simp)) fun _ => mark_seq (by simp) fun _ => ?_
  extract_lets rest
  have hrest : ∀ C' : Supply, C'.base ≤ d → (∀ p ∈ [(loop, d + 4), (yielding, d + 4), (resumed, d + 5),
      (returned, d + 4), (throwing, d + 4), (cannotThrow, d + 4), (closed, d + 4), (done, d + 4)],
      p ∈ C'.labels) → ∀ u, Drafts C' (d + 5) (rest u) (fun _ => d + 1)
        [resumed, returned, throwing, cannotThrow, closed, done] := by
    intro C' hd' hl u
    refine .seq (.op 1 2 rfl) fun _ => .seq (branch 1 0 rfl (hl _ (by simp))) fun _ =>
      .seq (.op 1 0 rfl) fun _ => .seq (goto (hl _ (by simp)) (d + 5)) fun _ => ?_
    -- told to return or to throw
    refine mark_seq (hl _ (by simp)) fun _ => .seq (pushInt _) fun _ => .seq (.op 2 1 rfl) fun _ =>
      .seq (branch 1 0 rfl (hl _ (by simp))) fun _ => .seq (awaitIf isAsync) fun _ =>
      .seq (request _) fun _ => .seq (branch 1 0 rfl (hl _ (by simp))) fun _ =>
      .seq (iteratorResult isAsync) fun _ => .seq (branch 1 0 rfl (hl _ (by simp))) fun _ =>
      .seq (opAtom 1 1 rfl (.inl rfl)) fun _ => mark_seq (hl _ (by simp)) fun _ =>
      .seq (ops 4 1 rfl) fun _ => .seq (returnFrom hd' (d + 4)) fun _ => ?_
    refine mark_seq (hl _ (by simp)) fun _ => .seq (request _) fun _ =>
      .seq (branch 1 0 rfl (hl _ (by simp))) fun _ => .seq (iteratorResult isAsync) fun _ =>
      .seq (branch 1 0 rfl (hl _ (by simp))) fun _ => .seq (goto (hl _ (by simp)) (d + 4)) fun _ => ?_
    refine mark_seq (hl _ (by simp)) fun _ => .seq (request _) fun _ =>
      .seq (branch 1 0 rfl (hl _ (by simp))) fun _ => .seq (awaitIf isAsync) fun _ =>
      mark_seq (hl _ (by simp)) fun _ => .seq (opAtomIntLast 0 _ rfl (.inl rfl) (d + 4)) fun _ => ?_
    exact mark_seq (hl _ (by simp)) fun _ => .seq (opAtom 1 1 rfl (.inl rfl)) fun _ => ops 4 1 rfl
  cases isAsync with
  | true => exact .seq (opAtom 1 1 rfl (.inl rfl)) fun _ => .seq (.op 1 2 rfl) (hrest _ hd (by simp))
  | false => exact .seq (.op 1 2 rfl) (hrest _ hd (by simp))

theorem yield {arg} (harg : C.Allows (optExprRegular false arg)) (delegate : Bool) (span : Span) :
    Drafts C d (Emit.yield r arg delegate span) (fun _ => d + 1) := by
  refine .read (.of_state _) fun _ => guarded (.ite (fun _ => ?_) fun _ => ?_)
  · cases arg with
    | none => exact misuse _ _
    | some arg => exact yieldFrom hd harg _
  · extract_lets rest
    have hrest : ∀ u, Drafts C (d + 1) (rest u) (fun _ => d + 1) := fun _ =>
      .seq (awaitIf _) fun _ => .seq (.op 1 2 rfl) fun _ => newLabel (d + 1) fun next =>
      .seq (branch 1 0 rfl (by simp)) fun _ => .seq (returnFrom (C := C.withLabel next (d + 1)) hd (d + 1)) fun _ =>
      mark (by simp)
    cases arg with
    | none => exact .seq (.op 0 1 rfl) hrest
    | some arg => exact .seq (hr.value hd harg) hrest

theorem await (harg : C.Allows (arg.isRegular false)) (span : Span) :
    Drafts C d (Emit.await r arg span) (fun _ => d + 1) :=
  .read (.of_state _) fun _ => guarded <| .seq (hr.value hd harg) fun _ => .op 1 1 rfl

/-! ## Operators -/

theorem unary (hchain : C.ChainAt (d + 1)) (o : UnaryOp) (harg : C.Allows (arg.isRegular false))
    (span : Span) : Drafts C d (Emit.unary r o arg span) (fun _ => d + 1) := by
  have hvalue := hr.value hd harg
  cases o with
  | typeof =>
    unfold Emit.unary
    dsimp only
    split
    · exact intern _ fun name => .seq (access 0 1 rfl (C.knows_self name)) fun _ => .op 1 1 rfl
    · exact .seq hvalue fun _ => .op 1 1 rfl
  | void => exact .seq hvalue fun _ => ops 1 1 rfl
  | delete => exact delete hd hchain harg span
  | minus | plus | not | bitNot => exact .seq hvalue fun _ => .op 1 1 rfl

theorem update (o : UpdateOp) (isPrefix : Bool) (harg : C.Allows (arg.isRegular false)) :
    Drafts C d (Emit.update r o isPrefix arg) (fun _ => d + 1) := by
  refine .bind (exprTarget hd harg true) fun t => ?_
  have hstore : ∀ keep k, Drafts (C.know t.names) (k + t.depth + 1) (Emit.store t keep) (fun _ => k + keep.toNat) :=
    fun keep _ => store (fun _ ha => Supply.knows_of_mem ha) keep
  cases isPrefix with
  | true =>
    cases o with
    | increment | decrement => exact .seq (.op 1 1 rfl) fun _ => hstore true d
  | false =>
    cases o with
    | increment | decrement => exact .seq (.op 1 2 rfl) fun _ => .seq (sinkOldValue t) fun _ => hstore false (d + 1)

omit hd in
theorem shortCircuit (o : LogicalOp) {exit} (hexit : (exit, d + 1) ∈ C.labels) :
    Drafts C (d + 1) (Emit.shortCircuit o exit) (fun _ => d + 1) := by
  cases o with
  | and | or => exact .seq (.op 1 2 rfl) fun _ => branch 1 0 rfl hexit
  | nullish => exact .seq (.op 1 2 rfl) fun _ => .seq (.op 1 1 rfl) fun _ => branch 1 0 rfl hexit

theorem logical (o : LogicalOp) {left right : Expr} (hleft : C.Allows (left.isRegular false))
    (hright : C.Allows (right.isRegular false)) : Drafts C d (Emit.logical r o left right) (fun _ => d + 1) :=
  newLabel (d + 1) fun _ =>
  .seq (hr.value hd hleft) fun _ =>
  .seq (shortCircuit o (by simp)) fun _ =>
  .seq (.op 1 0 rfl) fun _ =>
  .seq (hr.value hd hright) fun _ =>
  mark (by simp)

theorem conditional {test yes no : Expr} (htest : C.Allows (test.isRegular false))
    (hyes : C.Allows (yes.isRegular false)) (hno : C.Allows (no.isRegular false)) (hname : ∀ a ∈ name, C.Knows a) :
    Drafts C d (Emit.conditional r test yes no name) (fun _ => d + 1) :=
  newLabel d fun _ => newLabel (d + 1) fun _ =>
  .seq (hr.value hd htest) fun _ =>
  .seq (branch 1 0 rfl (by simp)) fun _ =>
  .seq (hr.expr hd hyes hname) fun _ =>
  .seq (goto (by simp) d) fun _ =>
  mark_seq (by simp) fun _ =>
  .seq (hr.expr hd hno hname) fun _ =>
  mark (by simp)

/-- A sequence of no expressions leaves nothing on the stack. -/
theorem sequence {es} (hne : C.Allows (!es.isEmpty))
    (hes : ∀ e ∈ es, C.Allows (e.isRegular false)) : Drafts C d (Emit.sequence r es) (fun _ => d + 1) := by
  cases es with
  | nil => exact .unmeasured (Supply.measured_of_allows hne) (.pure (d := d) _)
  | cons e es =>
    rw [List.forall_mem_cons] at hes
    exact .seq (hr.value hd hes.1) fun _ => forM fun e he =>
      .seq (.op 1 0 rfl) fun _ => hr.value hd (hes.2 e he)

omit hd in
theorem binaryOp (o : BinaryOp) : Drafts C (d + 2) (Emit.op o.opcode) (fun _ => d + 1) := by
  cases o <;> exact .op 2 1 rfl

/-! ## Assignments -/

omit hd in
theorem assign_of_plain {o : AssignOp} (hlogical : o.logical? = none) (hbinary : o.binary? = none) : o = .assign := by
  revert hlogical hbinary
  cases o <;> decide

theorem assignTo (o : AssignOp) {push}
    (hpush : ∀ read, Drafts C d (push read) (fun t => d + t.depth + read.toNat) [] Target.names)
    (hname : ∀ a ∈ name, C.Knows a) (hvalue : C.Allows (value.isRegular false)) :
    Drafts C d (Emit.assignTo r o push name value) (fun _ => d + 1) := by
  have hd' : ∀ k, C.base ≤ d + k := fun k => Nat.le_add_right_of_le hd
  have hname' : ∀ names, ∀ a ∈ name, (C.know names).Knows a := fun names a ha => (hname a ha).know names
  have hknown : ∀ t : Target, ∀ a ∈ t.names, (C.know t.names).Knows a := fun _ _ ha => Supply.knows_of_mem ha
  refine .ite (fun _ => ?_) fun hne => .bind (hpush true) fun t => ?_
  · exact .bind (hpush false) fun t => .seq (hr.expr (hd' _) hvalue (hname' _)) fun _ => store (hknown t) true
  · split
    · exact newLabel (d + t.depth + 1) fun short => newLabel (d + 1) fun exit =>
        .seq (shortCircuit _ (by simp)) fun _ =>
        .seq (.op 1 0 rfl) fun _ =>
        .seq (hr.expr (hd' _) hvalue (hname' t.names)) fun _ =>
        .seq (store (C := ((C.know t.names).withLabel short _).withLabel exit _) (hknown t) true) fun _ =>
        .seq (goto (by simp) (d + t.depth + 1)) fun _ =>
        mark_seq (by simp) fun _ =>
        .seq (dropParts t) fun _ =>
        mark (by simp)
    · exact .seq (hr.value (hd' (t.depth + 1)) hvalue) fun _ => .seq (binaryOp _) fun _ => store (hknown t) true
    · rename_i hlogical hbinary
      exact absurd (assign_of_plain hlogical hbinary) hne

theorem assign (o : AssignOp) {target : Pattern} (htarget : C.Allows (target.isRegular false))
    (hvalue : C.Allows (value.isRegular false)) (span : Span) :
    Drafts C d (Emit.assign r o target value span) (fun _ => d + 1) := by
  unfold Emit.assign
  split
  · exact intern _ fun name =>
      assignTo (C := C.know [name]) hd o (fun read => identTarget _ read) (C.knows_self name).some hvalue
  · exact assignTo hd o (fun read => memberTarget hd htarget read) C.knows_none hvalue
  · exact guarded <| .seq (hr.value hd hvalue) fun _ => .seq (.op 1 2 rfl) fun _ =>
      hr.bind .assign (Nat.le_add_right_of_le hd) htarget

/-! ## All expressions -/

theorem taggedTemplate (hchain : C.ChainAt (d + 1)) {tag : Expr} {t : Template}
    (htag : C.Allows (tag.isRegular false)) (ht : C.Allows (t.isRegular false)) :
    Drafts C d (Emit.taggedTemplate r tag t) (fun _ => d + 1) := by
  obtain ⟨quasis, expressions, span⟩ := t
  simp only [Template.isRegular, exprsRegular_eq, allows_all] at ht
  have hcall : ∀ c : Emit.Callee, Drafts C (d + c.values + (expressions.length + 1))
      (Emit.opCount (if c = .plain then .call else .callMethod) (expressions.length + 1)) (fun _ => d + 1) := by
    intro c
    cases c with
    | plain => exact opCount 1 1 _ rfl
    | method => exact opCount 2 1 _ rfl
  refine .seq (callee hd hchain htag) fun c => .seq (templateObject _) fun _ => ?_
  refine .seq (forM_push fun e he k hk => hr.value (by omega) (ht e he)) fun _ => ?_
  rw [Nat.add_assoc, Nat.add_comm 1]
  exact hcall c

omit hd in
theorem metaProperty (object property : String) (span : Span) :
    Drafts C d (Emit.metaProperty object property span) (fun _ => d + 1) := by
  refine .ite (fun _ => .read (.of_state _) fun _ => guarded (access 0 1 rfl (.inl rfl))) fun _ =>
    .ite (fun _ => ?_) fun _ => unsupported _ _
  exact .read (.of_state id) fun _ => guarded (opInt 0 1 _ rfl)

omit hd in
/-- A function or class without a name of its own. -/
theorem knows_getD (hname : ∀ a ∈ name, C.Knows a) : C.Knows (name.getD .emptyString) := by
  cases name with
  | none => exact .inl rfl
  | some name => exact hname name rfl

omit hd in
theorem functionExpr {f : FunctionNode} (hf : C.Allows (f.isRegular false)) (hname : ∀ a ∈ name, C.Knows a) :
    Drafts C d (Emit.functionExpr r f name) (fun _ => d + 1) := by
  unfold Emit.functionExpr
  split
  · exact intern _ fun own => nesting (hr.function hf (C.knows_self own) rfl) .pushClosure
  · exact nesting (hr.function hf (knows_getD hname) rfl) .pushClosure

theorem spine (hchain : C.ChainAt (d + 1)) (hname : ∀ a ∈ name, C.Knows a) {e : Expr}
    (he : C.Allows (e.isRegular false)) : Drafts C d (Emit.spine r name e) (fun _ => d + 1) := by
  cases e with
  | ident id => exact intern _ fun name => access 0 1 rfl (C.knows_self name)
  | literal l span => exact literal l span
  | template t => exact template hd he
  | tagged tag t span =>
    simp only [Expr.isRegular, allows_and] at he
    exact taggedTemplate hd hchain he.1 he.2
  | array elements span =>
    simp only [Expr.isRegular, optExprsRegular_eq, allows_all] at he
    exact array hd he
  | object members span =>
    simp only [Expr.isRegular, objectMembersRegular_eq, allows_all] at he
    exact object hd he
  | function f => exact functionExpr he hname
  | arrow f => exact functionExpr he hname
  | classExpr c =>
    unfold Emit.spine
    dsimp only
    split
    · exact intern _ fun own => hr.classDef hd he (C.knows_self own)
    · rw [pure_bind]
      exact hr.classDef hd he (knows_getD hname)
  | thisValue span => exact pushThis
  | superValue span => exact misuse _ _
  | member m =>
    refine ownChain hchain fun C' hbase hsame hchain' => ?_
    exact member (hbase ▸ hd) hchain' fun hC => he (hsame ▸ hC)
  | call callee args isOptional span =>
    refine ownChain hchain fun C' hbase hsame hchain' => ?_
    have he' : C'.Allows ((Expr.call callee args isOptional span).isRegular false) := fun hC => he (hsame ▸ hC)
    simp only [Expr.isRegular, exprsRegular_eq, allows_and, allows_all] at he'
    exact call (hbase ▸ hd) hchain' he'.1 he'.2 isOptional
  | chain inner span =>
    refine chainOf fun C' hbase hsame hchain' => ?_
    exact hr.spine (hbase ▸ hd) hchain' fun hC => he (hsame ▸ hC)
  | new callee args span =>
    simp only [Expr.isRegular, exprsRegular_eq, allows_and, allows_all] at he
    exact new hd he.1 he.2
  | unary o arg span =>
    have harg : C.Allows (arg.isRegular false) := he
    exact unary hd hchain o harg span
  | update o isPrefix arg span => exact update hd o isPrefix he
  | binary o left right span =>
    simp only [Expr.isRegular, allows_and] at he
    exact .seq (hr.value hd he.1) fun _ => .seq (hr.value (Nat.le_add_right_of_le hd) he.2) fun _ => binaryOp o
  | logical o left right span =>
    simp only [Expr.isRegular, allows_and] at he
    exact logical hd o he.1 he.2
  | assign o target value span =>
    simp only [Expr.isRegular, allows_and] at he
    exact assign hd o he.1 he.2 span
  | conditional test yes no span =>
    simp only [Expr.isRegular, allows_and] at he
    exact conditional hd he.1.1 he.1.2 he.2 hname
  | sequence es span =>
    simp only [Expr.isRegular, exprsRegular_eq, allows_and, allows_all] at he
    exact sequence hd he.1 he.2
  | spread arg span => exact misuse _ _
  | yield arg delegate span => exact yield hd he delegate span
  | await arg span =>
    have harg : C.Allows (arg.isRegular false) := he
    exact await hd harg span
  | metaProperty object property span => exact metaProperty object property span
  | dynamicImport source options span =>
    simp only [Expr.isRegular, allows_and] at he
    refine .seq (hr.value hd he.1) fun _ => .seq (optionForM fun e hsome => ?_) fun _ => .op 1 1 rfl
    subst hsome
    exact .seq (hr.value (Nat.le_add_right_of_le hd) he.2) fun _ => .op 1 0 rfl
  | privateIn s right span =>
    exact .bind (privateAtom s) fun name => .seq (hr.value hd he) fun _ => access 1 1 rfl (C.knows_self name)

/-- An expression is no part of the chain around it. -/
theorem expr (hname : ∀ a ∈ name, C.Knows a) {e : Expr} (he : C.Allows (e.isRegular false)) :
    Drafts C d (Emit.expr r name e) (fun _ => d + 1) :=
  withChainEnd (spine (C := C.chained none) hd nofun hname he)

end ScriptBytecode.Drafts
