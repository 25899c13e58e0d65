import Mathlib.Data.List.TakeDrop
import Mathlib.Data.List.TakeWhile
import ScriptBytecode.Proofs.Drafting.Targets

/-!
# Drafts of members and calls

An optional link may leave the chain that it belongs to, with one value in place of what the chain has put on
the stack so far.
-/

namespace ScriptBytecode

variable {e : Expr} {args : List Expr} {m : Member}

/-- How many values a callee leaves on the stack. -/
def Emit.Callee.values : Emit.Callee → Nat
  | .plain => 1
  | .method => 2

namespace Drafts

variable {C : Supply} {d : Nat} {r : Parts} [hr : r.Drafting]

/-! ## Chains -/

/-- A whole chain ends at one value. -/
theorem chainOf {body} (hbody : ∀ C' : Supply, C'.base = C.base → C'.measured = C.measured → C'.ChainAt (d + 1) →
    Drafts C' d body (fun _ => d + 1)) : Drafts C d (Emit.chain body) (fun _ => d + 1) := by
  refine chain fun exit => hbody _ rfl rfl ?_
  intro exit' hexit
  cases hexit
  exact List.mem_cons_self

/-- An expression is a chain of its own, or the chain around it goes on. -/
theorem ownChain {body} (hchain : C.ChainAt (d + 1)) (hbody : ∀ C' : Supply, C'.base = C.base →
    C'.measured = C.measured → C'.ChainAt (d + 1) → Drafts C' d body (fun _ => d + 1)) :
    Drafts C d (Emit.ownChain e body) (fun _ => d + 1) :=
  .read (.of_state _) fun _ => .ite (fun _ => chainOf hbody) fun _ => hbody C rfl rfl hchain

/-- An optional link leaves the stack as it is, unless it leaves the chain. -/
theorem optionalLink (hchain : C.ChainAt (d + 1)) (below : Nat) :
    Drafts C (d + 1 + below) (Emit.optionalLink below) (fun _ => d + 1 + below) := by
  refine draft fun dr _ hend _ => ?_
  split
  · rename_i exit hexit
    have hexit : (exit, d + 1) ∈ C.labels := hchain exit (hend ▸ hexit)
    rw [Nat.add_right_comm]
    refine .ite (fun hzero => ?_) fun _ => newLabel (d + below + 1) fun present => ?_
    · subst hzero
      refine emits rfl (fun _ _ => .optionalLink exit) (fun l hl => ?_) fun _ _ hknown =>
        adds_put ⟨fun _ => rfl, nofun, nofun⟩ rfl (Nat.le_add_left 1 d) ?_ fun _ _ => rfl
      · cases hl
        exact ⟨_, hexit⟩
      · intro l hl
        cases hl
        exact hknown exit _ hexit
    · have hpresent : (present, d + below + 1) ∈ (C.withLabel present (d + below + 1)).labels := List.mem_cons_self
      exact .seq (ops 1 2 rfl) fun _ =>
        .seq (branch 1 0 rfl hpresent) fun _ =>
        .seq (drops (below + 1)) fun _ =>
        .seq (.op 0 1 rfl) fun _ =>
        .seq (goto (List.mem_cons_of_mem _ hexit) (d + below + 1)) fun _ =>
        mark hpresent
  · exact fault _

variable (hd : C.base ≤ d)
include hd

theorem superMember (hkey : C.Allows (m.key.isRegular false)) (span : Span) :
    Drafts C d (Emit.superMember r m span) (fun _ => d + 1) :=
  .seq (superBase span) fun _ =>
  .seq (superKey (Nat.le_add_right_of_le hd) hkey _) fun _ =>
  .op 3 1 rfl

theorem memberObject (hchain : C.ChainAt (d + 1)) (hobject : C.Allows (m.object.isRegular false)) :
    Drafts C d (Emit.memberObject r m) (fun _ => d + 1) :=
  .seq (hr.spine hd hchain hobject) fun _ =>
  .ite (fun _ => optionalLink hchain 0) fun _ => .pure _

theorem member (hchain : C.ChainAt (d + 1)) (hm : C.Allows (m.isRegular false)) :
    Drafts C d (Emit.member r m) (fun _ => d + 1) := by
  obtain ⟨object, key, isOptional, span⟩ := m
  simp only [Member.isRegular, Supply.allows_and] at hm
  unfold Emit.member
  split
  · exact superMember hd hm.2 _
  · refine .seq (memberObject hd hchain hm.1) fun _ => .read (.of_state _) fun _ => ?_
    cases key with
    | name s =>
      refine intern s fun key => .ite (fun _ => ?_) fun _ => opAtom 1 1 rfl (C.knows_self key)
      exact put (fun _ hs => .chainField (hs.covers (C.knows_self key)))
        (Instr.shifts_pseudo 1 1 _ rfl (absurd · Bool.false_ne_true))
    | computed e =>
      refine .seq (hr.value (Nat.le_add_right_of_le hd) hm.2) fun _ => .ite (fun _ => ?_) fun _ => .op 2 1 rfl
      exact put (fun _ _ => .chainElement) (Instr.shifts_pseudo 2 1 _ rfl (absurd · Bool.false_ne_true))
    | privateName s => exact .bind (privateAtom s) fun name => access 1 1 rfl (C.knows_self name)

theorem callee (hchain : C.ChainAt (d + 1)) (he : C.Allows (e.isRegular false)) :
    Drafts C d (Emit.callee r e) (fun c => d + c.values) := by
  have hplain : Drafts C d (do r.spine e; return Emit.Callee.plain) (fun c => d + c.values) :=
    .seq (hr.spine hd hchain he) fun _ => result _ rfl (List.forall_mem_nil _)
  unfold Emit.callee
  split
  · rename_i m
    obtain ⟨object, key, isOptional, span⟩ := m
    simp only [Expr.isRegular, Member.isRegular, Supply.allows_and] at he
    extract_lets rest
    have hrest : ∀ C' u, Drafts C' (d + 2) (rest u) (fun c => d + c.values) :=
      fun _ _ => result _ rfl (List.forall_mem_nil _)
    dsimp only
    split
    · exact .seq pushThis fun _ => .seq (superMember (Nat.le_add_right_of_le hd) he.2 _) (hrest C)
    · refine .seq (memberObject hd hchain he.1) fun _ => ?_
      cases key with
      | name s => exact intern s fun key => .seq (opAtom 1 2 rfl (C.knows_self key)) (hrest _)
      | computed e =>
        exact .seq (hr.value (Nat.le_add_right_of_le hd) he.2) fun _ => .seq (.op 2 2 rfl) (hrest C)
      | privateName s =>
        exact .bind (privateAtom s) fun name => .seq (access 1 2 rfl (C.knows_self name)) (hrest _)
  · refine .read (.of_state _) fun _ => .ite (fun _ => ?_) fun _ => hplain
    exact intern _ fun name => .seq (access 0 2 rfl (C.knows_self name)) fun _ => result _ rfl (List.forall_mem_nil _)
  · exact hplain

/-! ## Arrays, arguments and calls -/

/-- Elements behind the first spread or hole are added one by one. -/
theorem arrayElement {e} (he : C.Allows (optExprRegular false e)) : Drafts C (d + 2) (match e with
      | some (.spread arg _) => do
        r.value arg
        Emit.op .append
      | some e => do
        r.value e
        Emit.ops [.defineArrayEl, .inc]
      | none => Emit.op .inc) (fun _ => d + 2) := by
  have hd' : C.base ≤ d + 2 := Nat.le_add_right_of_le hd
  split
  · exact .seq (hr.value hd' he) fun _ => .op 3 2 rfl
  · exact .seq (hr.value hd' he) fun _ => ops 3 2 rfl
  · exact .op 1 1 rfl

theorem array {elements} (helements : ∀ e ∈ elements, C.Allows (optExprRegular false e)) :
    Drafts C d (Emit.array r elements) (fun _ => d + 1) := by
  unfold Emit.array
  extract_lets isPlain
  rw [List.span_eq_takeWhile_dropWhile]
  dsimp only
  have hplain : ∀ e ∈ elements.takeWhile isPlain, ∀ k, d ≤ k → Drafts C k (e.forM r.value) (fun _ => k + 1) := by
    intro e he k hk
    cases e with
    | none => exact absurd (List.mem_takeWhile_imp he) (by simp [isPlain])
    | some e =>
      exact hr.value (hd.trans hk) (helements _ ((List.takeWhile_prefix isPlain).subset he))
  have hothers : ∀ e ∈ elements.dropWhile isPlain, C.Allows (optExprRegular false e) := fun e he =>
    helements e ((List.dropWhile_suffix isPlain).subset he)
  refine .seq (forM_push hplain) fun _ => .seq (opCount 0 1 _ rfl) fun _ => .ite (fun _ => ?_) fun _ => .pure _
  refine .seq (pushInt _) fun _ => .seq (forM fun e he => arrayElement hd (hothers e he)) fun _ => ?_
  exact .ite (fun _ => .seq (.op 2 3 rfl) fun _ => opAtom 2 0 rfl (.inl rfl)) fun _ => .op 1 0 rfl

/-- A call takes the function with `p` values, arguments included, for one. -/
theorem applyTo (hargs : ∀ e ∈ args, C.Allows (e.isRegular false)) {prepare} {plainly : Opcode}
    (p : Nat) (hprepare : Drafts C (d + p) prepare (fun _ => d + 2)) (how : Emit.Application)
    (hplainly : plainly.isBare && plainly.isCall p 1) :
    Drafts C (d + p) (Emit.applyTo r args prepare how plainly) (fun _ => d + 1) := by
  refine .ite (fun _ => ?_) fun _ => ?_
  · have helements : ∀ e ∈ args.map some, C.Allows (optExprRegular false e) := List.forall_mem_map.mpr hargs
    exact .seq hprepare fun _ => .seq (array (Nat.le_add_right_of_le hd) helements) fun _ => opIndex 3 1 _ rfl
  · refine .seq (forM_push fun e he k hk => ?_) fun _ => opCount p 1 _ hplainly
    exact hr.value (by omega) (hargs e he)

theorem callWith (c : Emit.Callee) (hargs : ∀ e ∈ args, C.Allows (e.isRegular false)) :
    Drafts C (d + c.values) (Emit.callWith r c args) (fun _ => d + 1) := by
  cases c with
  | plain => exact applyTo hd hargs 1 (.op 0 1 rfl) _ rfl
  | method => exact applyTo hd hargs 2 (.op 2 2 rfl) _ rfl

theorem construct (hargs : ∀ e ∈ args, C.Allows (e.isRegular false)) :
    Drafts C (d + 2) (Emit.construct r args) (fun _ => d + 1) :=
  applyTo hd hargs 2 (.pure _) _ rfl

omit hd in
theorem initializeFields : Drafts C d Emit.initializeFields (fun _ => d) :=
  .seq (access 0 1 rfl (.inl rfl)) fun _ =>
  .seq pushThis fun _ =>
  .seq (.op 2 2 rfl) fun _ =>
  .seq (opCount 2 1 0 rfl) fun _ =>
  .op 1 0 rfl

theorem superCall (hargs : ∀ e ∈ args, C.Allows (e.isRegular false)) (span : Span) :
    Drafts C d (Emit.superCall r args span) (fun _ => d + 1) :=
  .read (.of_state _) fun _ => guarded <|
  .seq (access 0 1 rfl (.inl rfl)) fun _ =>
  .seq (.op 1 1 rfl) fun _ =>
  .seq (access 0 1 rfl (.inl rfl)) fun _ =>
  .seq (construct hd hargs) fun _ =>
  .seq (.op 1 2 rfl) fun _ =>
  .seq (access 1 0 rfl (.inl rfl)) fun _ =>
  .ite (fun _ => initializeFields) fun _ => .pure _

theorem call (hchain : C.ChainAt (d + 1)) (he : C.Allows (e.isRegular false))
    (hargs : ∀ e ∈ args, C.Allows (e.isRegular false)) (isOptional : Bool) :
    Drafts C d (Emit.call r e args isOptional) (fun _ => d + 1) := by
  unfold Emit.call
  split
  · exact superCall hd hargs _
  · refine .seq (callee hd hchain he) fun c => optionally (fun _ => ?_) fun _ => callWith hd c hargs
    cases c with
    | plain => exact optionalLink hchain 0
    | method => exact optionalLink hchain 1

theorem new (he : C.Allows (e.isRegular false)) (hargs : ∀ e ∈ args, C.Allows (e.isRegular false)) :
    Drafts C d (Emit.new r e args) (fun _ => d + 1) :=
  .seq (hr.value hd he) fun _ => .seq (.op 1 2 rfl) fun _ => construct hd hargs

/-! ## Delete -/

theorem deleteMember (hchain : C.ChainAt (d + 1)) (hm : C.Allows (m.isRegular false)) (span : Span) :
    Drafts C d (Emit.deleteMember r m span) (fun _ => d + 1) := by
  obtain ⟨object, key, isOptional, span'⟩ := m
  simp only [Member.isRegular, Supply.allows_and] at hm
  refine .seq (memberObject hd hchain hm.1) fun _ => ?_
  cases key with
  | name s => exact .seq (pushText s) fun _ => .op 2 1 rfl
  | computed e => exact .seq (hr.value (Nat.le_add_right_of_le hd) hm.2) fun _ => .op 2 1 rfl
  | privateName s => exact error_seq _

theorem delete (hchain : C.ChainAt (d + 1)) (he : C.Allows (e.isRegular false)) (span : Span) :
    Drafts C d (Emit.delete r e span) (fun _ => d + 1) := by
  unfold Emit.delete
  split
  · exact .read (.of_state _) fun _ => guarded <| intern _ fun name => access 0 1 rfl (C.knows_self name)
  · refine guarded (ownChain hchain fun C' hbase hsame hchain' => ?_)
    exact deleteMember (hbase ▸ hd) hchain' (fun hC => he (hsame ▸ hC)) span
  · refine chainOf fun C' hbase hsame hchain' => ?_
    exact deleteMember (hbase ▸ hd) hchain' (fun hC => he (hsame ▸ hC)) span
  · exact .seq (hr.value hd he) fun _ => ops 1 1 rfl

end Drafts

end ScriptBytecode
