import Mathlib.Data.List.TakeDrop
import ScriptBytecode.Proofs.Drafting.Rules

/-!
# Leaving constructs

Jumps and returns out of constructs give up the values that each construct holds.
-/

namespace ScriptBytecode

/-- What gives up the values of a construct. -/
def JumpTarget.giveUp (t : JumpTarget) : List Opcode :=
  if t.hasIterator then [.iteratorClose] else .replicate t.held .drop

/-- What gives up the values of a construct below the value on top of the stack. -/
def JumpTarget.giveUpBelow (t : JumpTarget) : List Opcode :=
  if t.hasIterator then [.insert4, .drop, .iteratorClose] else .replicate t.held .nip

/-- Leaves a construct with the value on top of the stack. -/
def exitBelow (t : JumpTarget) : Emit Unit := do
  Emit.ops t.giveUpBelow
  t.finalizer.forM (Emit.jump .gosub)

theorem exitTarget_eq (t : JumpTarget) :
    Emit.exitTarget t = Emit.ops t.giveUp >>= fun _ => Emit.runFinalizer t.finalizer := by
  unfold Emit.exitTarget JumpTarget.giveUp
  split
  · simp [Emit.ops]
  · rfl

namespace Drafts

variable {C : Supply} {d k : Nat} {t : JumpTarget}

/-! ## Giving up what constructs hold -/

theorem gosub {l} (h : C.measured = false ∧ ∃ k, (l, k) ∈ C.labels) :
    Drafts C d (Emit.jump .gosub l) (fun _ => d) :=
  jump rfl h.2 fun hC => absurd (h.1.symm.trans hC) nofun

theorem runFinalizer {finalizer} (h : ∀ l, finalizer = some l → C.measured = false ∧ ∃ k, (l, k) ∈ C.labels) :
    Drafts C d (Emit.runFinalizer finalizer) (fun _ => d) :=
  optionForM fun l hl => .seq (.op 0 1 rfl) fun _ => .seq (gosub (h l hl)) fun _ => .op 1 0 rfl

theorem exitTarget (ht : t.Placed C.measured C.labels k) :
    Drafts C (k + t.held) (Emit.exitTarget t) (fun _ => k) := by
  rw [exitTarget_eq]
  refine .seq ?_ fun _ => runFinalizer ht.finalizer
  unfold JumpTarget.giveUp
  split
  · rename_i hiterator
    rw [ht.iterator hiterator]
    exact .ops 3 0 rfl
  · exact drops _

theorem exitBelow (ht : t.Placed C.measured C.labels k) (m : Nat) :
    Drafts C (k + t.held + m + 1) (ScriptBytecode.exitBelow t) (fun _ => k + m + 1) := by
  have hsplit : k + t.held + m + 1 = k + m + 1 + t.held := by omega
  unfold ScriptBytecode.exitBelow JumpTarget.giveUpBelow
  rw [hsplit]
  refine .seq ?_ fun _ => optionForM fun l hl => gosub (ht.finalizer l hl)
  split
  · rename_i hiterator
    rw [ht.iterator hiterator]
    exact .ops 4 1 rfl
  · exact nips _

/-- Constructs are left one by one. -/
theorem exitTargets {ts rest} (hplaced : AllPlaced C.measured C.labels (ts ++ rest)) :
    Drafts C (heldBy (ts ++ rest)) (ts.forM Emit.exitTarget) (fun _ => heldBy rest) := by
  induction ts with
  | nil => exact .pure _
  | cons t ts ih =>
    cases hplaced with
    | cons ht hts => exact .seq (exitTarget ht) fun _ => ih hts

/-- Constructs are left one by one with the value on top of the stack. -/
theorem exitsBelow {ts} (hplaced : AllPlaced C.measured C.labels ts) (m : Nat) :
    Drafts C (heldBy ts + m + 1) (ts.forM ScriptBytecode.exitBelow) (fun _ => m + 1) := by
  induction hplaced with
  | nil =>
    rw [show heldBy [] + m + 1 = m + 1 by simp [heldBy]]
    exact .pure _
  | cons ht _ ih => exact .seq (exitBelow ht m) fun _ => ih

/-! ## Jumps -/

theorem leaveScopesTo (target : Nat) : Drafts C d (Emit.leaveScopesTo target) (fun _ => d) :=
  .read (.of_state _) fun _ => forM fun scope _ => leaveScope scope

theorem reads_noTarget (kind : JumpKind) (name : Option Atom) : Reads (Emit.noTarget kind name) := by
  unfold Emit.noTarget
  split
  · exact .bind (.of_state _) fun _ => .pure _
  · exact .pure _
  · exact .pure _

/-- A jump out of constructs comes to its label with the values of the construct that has it. -/
theorem jumpOut (kind : JumpKind) (label : Option Ident) (span : Span) (e : Nat) :
    Drafts C C.base (Emit.jumpOut kind label span) (fun _ => e) := by
  refine .bind (optionMapM fun _ _ => interns _) fun name => draft fun dr htargets _ _ => ?_
  rw [show dr.targets = C.targets from htargets, List.span_eq_takeWhile_dropWhile]
  have hsplit := C.targets.takeWhile_append_dropWhile (p := fun t => !t.answers kind name)
  have hplaced := C.placed
  rw [← hsplit] at hplaced
  have hbase : C.base = heldBy (C.targets.takeWhile (fun t => !t.answers kind name) ++
      C.targets.dropWhile fun t => !t.answers kind name) := by rw [hsplit, Supply.base]
  rw [hbase]
  generalize C.targets.takeWhile _ = inner at *
  generalize C.targets.dropWhile _ = rest at *
  dsimp only
  split
  · exact .read (reads_noTarget kind name) fun _ => misuse _ _
  · rename_i target outer
    refine .seq (exitTargets hplaced) fun _ => .seq (leaveScopesTo _) fun _ => ?_
    split
    · rename_i l hl
      refine goto ?_ e
      cases hplaced.right with
      | cons htarget _ =>
        cases kind with
        | breakOut => exact htarget.breakTo l hl
        | continueWith => exact htarget.continueTo l hl
    · exact fault _

/-! ## Returns -/

theorem exitAll_eq : Emit.exitAll = Emit.draft >>= fun dr => dr.targets.forM ScriptBytecode.exitBelow := by
  unfold Emit.exitAll
  congr
  funext dr
  congr
  funext t
  unfold ScriptBytecode.exitBelow JumpTarget.giveUpBelow
  split <;> rfl

theorem exitAll (m : Nat) : Drafts C (C.base + m + 1) Emit.exitAll (fun _ => m + 1) := by
  rw [exitAll_eq]
  refine draft fun dr htargets _ _ => ?_
  rw [htargets]
  exact exitsBelow C.placed m

theorem returnWith (hasValue : Bool) (m e : Nat) :
    Drafts C (m + hasValue.toNat) (Emit.returnWith hasValue) (fun _ => e) := by
  refine .read (.of_state _) fun _ => .ite (fun _ => newLabel (m + 1) fun done => ?_) fun _ =>
    .ite (fun _ => ?_) fun _ => ?_
  · have hrest : Drafts (C.withLabel done (m + 1)) m (do
        Emit.access .getThis .this
        Emit.mark done
        Emit.op .returnValue) (fun _ => e) [done] :=
      .seq (access 0 1 rfl (.inl rfl)) fun _ => mark_seq List.mem_cons_self fun _ => opLast 1 rfl e
    cases hasValue with
    | false => exact hrest
    | true =>
      exact .seq (.op 1 2 rfl) fun _ => .seq (branch 1 0 rfl List.mem_cons_self) fun _ =>
        .seq (.op 1 0 rfl) fun _ => hrest
  · cases hasValue with
    | false => exact opLast 0 rfl e
    | true => exact opLast 1 rfl e
  · cases hasValue with
    | false => exact .seq (.op 0 1 rfl) fun _ => opLast 1 rfl e
    | true => exact opLast 1 rfl e

theorem returnFrom (hd : C.base ≤ d) (e : Nat) : Drafts C (d + 1) Emit.returnFrom (fun _ => e) := by
  obtain ⟨m, rfl⟩ := Nat.exists_eq_add_of_le hd
  exact .seq (exitAll m) fun _ => returnWith true m e

end Drafts

end ScriptBytecode
