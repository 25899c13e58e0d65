import Mathlib.Order.Monotone.Basic
import ScriptBytecode.Proofs.Execution.Replacement

/-!
# Jump threading and dead code elimination preserve runs

Control that comes to the old target of a threaded jump comes to the new one without doing anything. Control never comes
to code that is left out as dead, and nothing jumps to labels that are left out. All this holds for every meaning of
the instructions.

Main statement: where every label that is used is bound once, code has the same runs after jump threading, and after
dead code elimination.
-/

namespace ScriptBytecode

open Execution
open Layout (marks marked?)

variable {i : Instr} {l : Nat} {rest front : List Instr} {arg : Operand} {op : Opcode}

/-- Every label that an instruction may jump to is bound once. -/
def BoundOnce (code : List Instr) : Prop :=
  ∀ l ∈ DeadCode.referenced code, (marks code).count l = 1

instance : DecidablePred BoundOnce :=
  fun _ => inferInstanceAs (Decidable (∀ l ∈ _, _))

theorem BoundOnce.congr {code code'} (h : BoundOnce code) (hmarks : marks code' = marks code)
    (hused : DeadCode.referenced code' ⊆ DeadCode.referenced code) : BoundOnce code' :=
  fun l hl => hmarks ▸ h l (hused hl)

namespace Execution

variable {σ α ε ν : Type} [DecidableEq α] {M : Machine σ α ε ν} {addr : Nat → α} {code : List Instr} {s : σ}
  {given : List (α × List Instr)} {trace : List ε}

/-! ## Walks without effect -/

theorem step_idle (h : i.control = .idle) (rest : List Instr) :
    M.step addr code (.running (i :: rest) s given trace) = .running rest s given trace := by
  simp [Machine.step, Machine.turn, h, go]

theorem step_goto (h : i.control = .goto) (rest : List Instr) :
    M.step addr code (.running (i :: rest) s given trace) =
      .goOn s given trace (i.arg.label?.bind (place? code)) := by
  simp [Machine.step, Machine.turn, h, go]

theorem step_finish {hasValue} (h : i.control = .finish hasValue) (rest : List Instr) :
    M.step addr code (.running (i :: rest) s given trace) =
      .halted (.left (M.finish hasValue s).2) (trace ++ (M.finish hasValue s).1) := by
  simp [Machine.step, Machine.turn, h, go]

theorem step_test {taken} (h : i.control = .test taken) (rest : List Instr) :
    M.step addr code (.running (i :: rest) s given trace) =
      match M.test s with
      | .ok (value, s') =>
        if value = taken then .goOn s' given trace (i.arg.label?.bind (place? code)) else .running rest s' given trace
      | .error how => .halted (.left how) trace := by
  simp only [Machine.step, Machine.turn, h]
  cases M.test s with
  | error how => simp [Turn.ofExcept, go]
  | ok r =>
    by_cases htaken : r.1 = taken
    · simp [Turn.ofExcept, Turn.choose, go, htaken]
    · simp [Turn.ofExcept, Turn.choose, go, htaken]

theorem step_discard (h : i.control = .discard) (rest : List Instr) :
    M.step addr code (.running (i :: rest) s given trace) =
      match M.test s with
      | .ok (_, s') => .running rest s' given trace
      | .error how => .halted (.left how) trace := by
  simp only [Machine.step, Machine.turn, h]
  cases M.test s <;> simp [Turn.ofExcept, go]

theorem control_of_isMarker (h : i.isMarker) : i.control = .idle := by
  obtain ⟨op, arg⟩ := i
  cases op with
  | final op => cases h
  | pseudo op => rfl

theorem control_of_marked? (h : marked? i = some l) : i.control = .idle := by
  obtain ⟨op, arg⟩ := i
  cases op with
  | final op => cases h
  | pseudo op => rfl

/-- Control comes to the first instruction that does something. -/
theorem iterate_firstCode? (h : Threading.firstCode? code = some i) (whole : List Instr) :
    ∃ n rest, (M.step addr whole)^[n] (.running code s given trace) = .running (i :: rest) s given trace := by
  induction code with
  | nil => cases h
  | cons j code ih =>
    unfold Threading.firstCode? at h ih
    rw [List.find?_cons] at h
    split at h
    · cases h
      exact ⟨0, code, rfl⟩
    · rename_i hidle
      simp only [Bool.and_eq_false_iff, Bool.not_eq_false'] at hidle
      have hcontrol : j.control = .idle := hidle.elim control_of_isMarker Instr.control_of_is
      obtain ⟨n, rest, hn⟩ := ih h
      refine ⟨n + 1, rest, ?_⟩
      rw [Function.iterate_succ_apply, step_idle hcontrol, hn]

theorem iterate_landing? (M : Machine σ α ε ν) (addr : Nat → α) (h : Threading.landing? code l = some i) (s : σ)
    (given : List (α × List Instr)) (trace : List ε) :
    ∃ n rest, (M.step addr code)^[n] (.goOn s given trace (place? code l)) = .running (i :: rest) s given trace := by
  obtain ⟨p, hplace, hfirst⟩ := Option.bind_eq_some_iff.mp h
  rw [show place? code l = some p from hplace]
  exact iterate_firstCode? hfirst code

end Execution

/-! ## Threading -/

namespace Threading

variable {code : List Instr}

section

variable {σ α ε ν : Type} [DecidableEq α] (M : Machine σ α ε ν) (addr : Nat → α)

/-- Control that comes to label `l` comes to label `t` without doing anything. -/
def Leads (code : List Instr) (l t : Nat) : Prop :=
  ∀ (s : σ) (given : List (α × List Instr)) (trace : List ε), ∃ n,
    (M.step addr code)^[n] (.goOn s given trace (place? code l)) = .goOn s given trace (place? code t)

/-- Control that comes to a label comes to the label at the end of the jumps. -/
theorem leads_follow (code : List Instr) (start hops l : Nat) : Leads M addr code l (follow code start hops l) := by
  refine follow_induction (P := Leads M addr code l) (fun l' next i hleads hi hgoto hnext s given trace => ?_) hops
    fun s given trace => ⟨0, rfl⟩
  obtain ⟨n, hn⟩ := hleads s given trace
  obtain ⟨m, rest, hm⟩ := iterate_landing? M addr hi s given trace
  refine ⟨1 + (m + n), ?_⟩
  rw [Function.iterate_add_apply, Function.iterate_add_apply, hn, hm, Function.iterate_one,
    step_goto (Instr.control_of_is hgoto), hnext]
  rfl

theorem control_of_isThreaded (h : isThreaded op) :
    op = .goto ∨ ∃ taken, ∀ arg, (Instr.of op arg).control = .test taken := by
  unfold isThreaded at h
  split at h
  · exact .inl rfl
  · exact .inr ⟨false, fun _ => rfl⟩
  · exact .inr ⟨true, fun _ => rfl⟩
  · cases h

/-- One instruction that is no call is replaced. -/
theorem sameRuns_of_swap_one {j} (hi : marked? i = none) (hj : marked? j = none)
    (hcall : i.control ≠ .call) (hcall' : j.control ≠ .call)
    (hswap : ∀ {s : σ} {given given' : List (α × List Instr)} {trace : List ε},
      SameGiven (Swapped front [i] [j] rest) given given' → ∃ n m, Related (Swapped front [i] [j] rest)
        ((M.step addr (front ++ i :: rest))^[n] (M.step addr (front ++ i :: rest) (.running (i :: rest) s given trace)))
        ((M.step addr (front ++ j :: rest))^[m]
          (M.step addr (front ++ j :: rest) (.running (j :: rest) s given' trace)))) (s : σ) :
    SameRuns M addr addr (front ++ i :: rest) (front ++ j :: rest) s := by
  have hcalls : calls [i] = calls [j] := by
    rw [calls_cons, calls_cons, if_neg hcall, if_neg hcall']
  refine sameRuns_of_swap (P := fun _ => True) (Layout.marks_cons_none hi []) (Layout.marks_cons_none hj []) hcalls
    (fun _ _ => trivial) trivial fun hgiven _ => ?_
  obtain ⟨n, m, hrelated⟩ := hswap hgiven
  exact ⟨n + 1, m + 1, hrelated, .inl ⟨Nat.succ_pos n, Nat.succ_pos m⟩⟩

/-- A jump goes to a label where control comes to in any case. -/
theorem sameRuns_target {start t} (hop : isThreaded op) (hstart : arg.label? = some start)
    (hleads : Leads M addr (front ++ .of op arg :: rest) start t) (s : σ) :
    SameRuns M addr addr (front ++ .of op arg :: rest) (front ++ .of op (.label t) :: rest) s := by
  have hcontrol := control_of_isThreaded hop
  have hcall : ∀ arg, (Instr.of op arg).control ≠ .call := by
    intro arg
    rcases hcontrol with rfl | ⟨taken, h⟩
    · exact nofun
    · simp [h]
  refine sameRuns_of_swap_one M addr rfl rfl (hcall _) (hcall _) (fun {s given given' trace} hgiven => ?_) s
  -- once the jump is taken
  have hjump : ∀ s, ∃ n, Related (Swapped front [.of op arg] [.of op (.label t)] rest)
      ((M.step addr (front ++ .of op arg :: rest))^[n]
        (.goOn s given trace (place? (front ++ .of op arg :: rest) start)))
      (.goOn s given' trace (place? (front ++ .of op (.label t) :: rest) t)) := by
    intro s
    obtain ⟨n, hn⟩ := hleads s given trace
    exact ⟨n, hn ▸ related_goOn (swapped_place? rfl rfl t) hgiven⟩
  have hlabel : (Instr.of op arg).arg.label? = some start := hstart
  have hlabel' : (Instr.of op (.label t)).arg.label? = some t := rfl
  rcases hcontrol with rfl | ⟨taken, htest⟩
  · rw [step_goto rfl, step_goto rfl, hlabel, hlabel']
    obtain ⟨n, hn⟩ := hjump s
    exact ⟨n, 0, hn⟩
  · rw [step_test (htest _), step_test (htest _), hlabel, hlabel']
    cases M.test s with
    | error how => exact ⟨0, 0, .halted _ _⟩
    | ok r =>
      by_cases htaken : r.1 = taken
      · simp only [htaken, if_true]
        obtain ⟨n, hn⟩ := hjump r.2
        exact ⟨n, 0, hn⟩
      · simp only [htaken, if_false]
        exact ⟨0, 0, .running (.behind (List.suffix_refl rest)) hgiven⟩

/-- A jump to a return is that return. -/
theorem sameRuns_return {start t o} (hstart : arg.label? = some start)
    (hi : landing? (front ++ .of .goto arg :: rest) t = some i) (ho : i.opcode? = some o)
    (hreturn : o = .returnValue ∨ o = .returnUndef) (hleads : Leads M addr (front ++ .of .goto arg :: rest) start t)
    (s : σ) : SameRuns M addr addr (front ++ .of .goto arg :: rest) (front ++ .plain o :: rest) s := by
  obtain ⟨hasValue, hfinish⟩ : ∃ hasValue, (Instr.plain o).control = .finish hasValue := by
    rcases hreturn with rfl | rfl
    · exact ⟨true, rfl⟩
    · exact ⟨false, rfl⟩
  have hcontrol : i.control = .finish hasValue := by
    obtain ⟨op, arg⟩ := i
    cases op with
    | pseudo op => cases ho
    | final op =>
      cases ho
      exact hfinish
  have hcall : (Instr.plain o).control ≠ .call := by simp [hfinish]
  have hgoto : (Instr.of .goto arg).control = .goto := rfl
  have hlabel : (Instr.of .goto arg).arg.label? = some start := hstart
  refine sameRuns_of_swap_one M addr rfl rfl (by simp [hgoto]) hcall (fun {s given given' trace} hgiven => ?_) s
  obtain ⟨n, hn⟩ := hleads s given trace
  obtain ⟨m, rest', hm⟩ := iterate_landing? M addr hi s given trace
  refine ⟨1 + (m + n), 0, ?_⟩
  rw [step_goto hgoto, hlabel, Option.bind_some, Function.iterate_add_apply, Function.iterate_add_apply, hn, hm,
    Function.iterate_one, step_finish hcontrol, Function.iterate_zero_apply, step_finish hfinish]
  exact .halted _ _

/-- Step of threading. -/
theorem sameRuns_retarget (front rest : List Instr) (hi : i.opcode?.any isThreaded) (s : σ) :
    SameRuns M addr addr (front ++ i :: rest) (front ++ retarget (front ++ i :: rest) i :: rest) s := by
  obtain ⟨op, arg⟩ := i
  cases op with
  | pseudo op => cases hi
  | final op =>
    have hleads := fun start => leads_follow M addr (front ++ .of op arg :: rest) start 8 start
    rcases retarget_cases hi with heq | ⟨start, hstart, heq | ⟨rfl, j, o, hj, ho, hreturn, heq⟩⟩
    · rw [heq]
      exact .refl M addr _ s
    · rw [heq]
      exact sameRuns_target M addr hi hstart (hleads start) s
    · rw [heq]
      exact sameRuns_return M addr hstart hj ho hreturn (hleads start) s

end

/-! ## Jumps to the next instruction -/

/-- Only idle instructions lie before the label. -/
theorem exists_of_reaches (h : reaches l rest) :
    ∃ gap i p, rest = gap ++ i :: p ∧ (∀ j ∈ gap, j.control = .idle) ∧ marked? i = some l := by
  induction rest with
  | nil => cases h
  | cons i rest ih =>
    have hlater : reaches l rest = true → i.control = .idle →
        ∃ gap j p, i :: rest = gap ++ j :: p ∧ (∀ k ∈ gap, k.control = .idle) ∧ marked? j = some l := by
      intro hrest hi
      obtain ⟨gap, j, p, rfl, hgap, hj⟩ := ih hrest
      exact ⟨i :: gap, j, p, rfl, List.forall_mem_cons.mpr ⟨hi, hgap⟩, hj⟩
    obtain ⟨op, arg⟩ := i
    unfold reaches at h
    dsimp only at h
    split at h
    · exact hlater h rfl
    · cases h
    · simp only [Bool.or_eq_true, decide_eq_true_eq] at h
      rcases h with h | h
      · exact ⟨[], _, rest, rfl, List.forall_mem_nil _, h⟩
      · exact hlater h rfl
    · exact hlater h rfl

/-- The label is where control comes to next. -/
theorem place?_of_reaches (hreaches : reaches l rest) (hbound : (marks (front ++ rest)).count l = 1) :
    ∃ gap p, rest = gap ++ p ∧ gap ≠ [] ∧ (∀ j ∈ gap, j.control = .idle) ∧ place? (front ++ rest) l = some p := by
  obtain ⟨gap, m, p, rfl, hgap, hm⟩ := exists_of_reaches hreaches
  have hmarks : marks (m :: p) = l :: marks p := List.filterMap_cons_some hm
  have hlast : place? p l = none := by
    apply place?_eq_none
    simp only [Layout.marks_append, hmarks, List.count_append, List.count_cons_self] at hbound
    rw [← List.count_eq_zero]
    omega
  refine ⟨gap ++ [m], p, by simp, by simp, ?_, ?_⟩
  · rw [List.forall_mem_append]
    exact ⟨hgap, by simpa using control_of_marked? hm⟩
  · rw [← List.append_assoc, place?_append, place?_cons, hlast, if_pos hm]
    rfl

section

variable {σ α ε ν : Type} [DecidableEq α] (M : Machine σ α ε ν) (addr : Nat → α)

theorem iterate_idle {gap} (h : ∀ j ∈ gap, j.control = .idle) (code p : List Instr) (s : σ)
    (given : List (α × List Instr)) (trace : List ε) :
    (M.step addr code)^[gap.length] (.running (gap ++ p) s given trace) = .running p s given trace := by
  induction gap with
  | nil => rfl
  | cons j gap ih =>
    rw [List.forall_mem_cons] at h
    rw [List.length_cons, Function.iterate_succ_apply, List.cons_append, step_idle h.1]
    exact ih h.2

/-- A jump to the next instruction does nothing. -/
theorem sameRuns_dropGoto (hl : arg.label? = some l) (hreaches : reaches l rest)
    (hbound : (marks (front ++ .of .goto arg :: rest)).count l = 1) (s : σ) :
    SameRuns M addr addr (front ++ .of .goto arg :: rest) (front ++ rest) s := by
  rw [List.append_cons] at hbound
  obtain ⟨gap, p, rfl, hne, hgap, hplace⟩ := place?_of_reaches hreaches hbound
  rw [← List.append_cons] at hplace
  show SameRuns M addr addr (front ++ ([.of .goto arg] ++ (gap ++ p))) (front ++ ([] ++ (gap ++ p))) s
  refine sameRuns_of_swap (P := fun _ => True) rfl rfl rfl (fun _ _ => trivial) trivial
    fun {s given given' trace} hgiven _ => ?_
  have hgoto : M.step addr (front ++ .of .goto arg :: (gap ++ p))
      (.running (.of .goto arg :: (gap ++ p)) s given trace) = .running p s given trace := by
    rw [step_goto rfl, Instr.arg_of, hl, Option.bind_some, hplace]
    rfl
  have hrelated : Related (Swapped front [.of .goto arg] [] (gap ++ p)) (.running p s given trace)
      (.running p s given' trace : Config σ α ε ν) := .running (.behind (List.suffix_append gap p)) hgiven
  rw [← hgoto, ← iterate_idle M addr hgap (front ++ (gap ++ p)) p s given' trace] at hrelated
  exact ⟨1, gap.length, hrelated, .inl ⟨Nat.one_pos, List.length_pos_iff.mpr hne⟩⟩

/-- A branch to the next instruction only takes a value. -/
theorem sameRuns_dropTest {taken} (hop : ∀ arg, (Instr.of op arg).control = .test taken) (hl : arg.label? = some l)
    (hreaches : reaches l rest) (hbound : (marks (front ++ .of op arg :: rest)).count l = 1) (s : σ) :
    SameRuns M addr addr (front ++ .of op arg :: rest) (front ++ .plain .drop :: rest) s := by
  rw [List.append_cons] at hbound
  obtain ⟨gap, p, rfl, -, hgap, hplace⟩ := place?_of_reaches hreaches hbound
  rw [← List.append_cons] at hplace
  have hdrop : (Instr.plain .drop).control = .discard := rfl
  refine sameRuns_of_swap_one M addr rfl rfl (by simp [hop]) (by simp [hdrop])
    (fun {s given given' trace} hgiven => ?_) s
  rw [step_test (hop arg), step_discard hdrop, Instr.arg_of, hl, Option.bind_some, hplace]
  cases M.test s with
  | error how => exact ⟨0, 0, .halted _ _⟩
  | ok r =>
    by_cases htaken : r.1 = taken
    · refine ⟨0, gap.length, ?_⟩
      simp only [htaken, if_true, iterate_idle M addr hgap]
      exact .running (.behind (List.suffix_append gap p)) hgiven
    · refine ⟨0, 0, ?_⟩
      simp only [htaken, if_false]
      exact .running (.behind (List.suffix_refl _)) hgiven

end

/-! ## The whole pass -/

section

variable {σ α ε ν : Type} [DecidableEq α] (M : Machine σ α ε ν) (addr : Nat → α)

theorem sameRuns_threadFrom (code : List Instr) (s : σ) : SameRuns M addr addr code (threadFrom [] code) s :=
  threadFrom_preserves (P := fun code' => SameRuns M addr addr code code' s)
    (fun front _ rest hi h => h.trans (sameRuns_retarget M addr front rest hi s)) [] (.refl M addr code s)

theorem boundOnce_threadFrom (h : BoundOnce code) : BoundOnce (threadFrom [] code) :=
  threadFrom_preserves (fun _ _ _ hi h => h.congr (marks_retarget hi) (referenced_retarget hi)) [] h

theorem sameRuns_dropFrom (h : BoundOnce code) (s : σ) : SameRuns M addr addr code (dropFrom [] code) s := by
  have hbound : ∀ {front rest : List Instr} {op : Opcode} {arg : Operand} {l : Nat},
      BoundOnce (front ++ .of op arg :: rest) → isThreaded op = true → arg.label? = some l →
      (marks (front ++ .of op arg :: rest)).count l = 1 := by
    intro front rest op arg l h hop hl
    have hjump : op.isJump := isJump_of_isThreaded hop
    exact h l (DeadCode.mem_referenced.mpr ⟨.of op arg, by simp, hjump, hl⟩)
  have hrun : SameRuns M addr addr code (dropFrom [] code) s ∧ BoundOnce (dropFrom [] code) := by
    refine dropFrom_preserves (P := fun code' => SameRuns M addr addr code code' s ∧ BoundOnce code') ?_ ?_ []
      ⟨.refl M addr code s, h⟩
    · rintro front arg l rest hl hreaches ⟨hsame, h⟩
      refine ⟨hsame.trans (sameRuns_dropGoto M addr hl hreaches (hbound h rfl hl) s), ?_⟩
      exact h.congr (by simp) (DeadCode.referenced_replace [_] _ (List.forall_mem_nil _))
    · rintro front op arg l rest hop hne hl hreaches ⟨hsame, h⟩
      obtain ⟨taken, htest⟩ := (control_of_isThreaded hop).resolve_left hne
      refine ⟨hsame.trans (sameRuns_dropTest M addr htest hl hreaches (hbound h hop hl) s), ?_⟩
      refine h.congr (by simp [Instr.plain]) (DeadCode.referenced_replace [_] [.plain .drop] ?_)
      exact List.forall_mem_singleton.mpr fun h => absurd h Bool.false_ne_true
  exact hrun.1

theorem sameRuns_run (h : BoundOnce code) (s : σ) : SameRuns M addr addr code (run code) s := by
  have hthread := sameRuns_threadFrom M addr code s
  have hdrop := sameRuns_dropFrom M addr (boundOnce_threadFrom h) s
  have hcompact : Preserves M addr (fun _ => False) (dropFrom [] (threadFrom [] code)) (run code) :=
    preserves_compact [] _
  exact (hthread.trans hdrop).trans (hcompact s fun _ _ _ h => h)

end

end Threading

/-! ## Dead code -/

namespace DeadCode

/-- Scanning the code comes to a place with the next instruction live. -/
inductive Live (used : List Nat) : Bool → List Instr → List Instr → Prop where
  | here (code : List Instr) : Live used true code code
  | there {live : Bool} {i : Instr} {rest place : List Instr} (h : Live used (after used live i) rest place) :
      Live used live (i :: rest) place

variable {used : List Nat} {live : Bool} {code place : List Instr}

theorem Live.suffix (h : Live used live code place) : place <:+ code := by
  induction h with
  | here => exact List.suffix_refl _
  | there _ ih => exact ih.trans (List.suffix_cons _ _)

theorem Live.next {i rest} (h : Live used live code (i :: rest)) (hi : after used true i) :
    Live used live code rest := by
  induction code generalizing live with
  | nil => cases h
  | cons j code ih =>
    cases h with
    | here =>
      have hrest : Live used (after used true i) rest rest := by
        rw [hi]
        exact .here rest
      exact .there hrest
    | there h => exact .there (ih h)

/-- What is kept from a live place on is the end of all that is kept. -/
theorem Live.kept_suffix (h : Live used live code place) : kept used true place <:+ kept used live code := by
  induction h with
  | here => exact List.suffix_refl _
  | @there live i rest place h ih =>
    cases hi : stays used live i with
    | true =>
      rw [kept_cons_of_stays hi]
      exact ih.trans (List.suffix_cons _ _)
    | false =>
      rw [kept_cons_of_not_stays hi]
      exact ih

/-- A live place and what is kept from it on. -/
def KeptAt (used : List Nat) (live : Bool) (code place place' : List Instr) : Prop :=
  Live used live code place ∧ place' = kept used true place

/-- The labels that are used are found at corresponding places. -/
theorem place?_kept (hl : l ∈ used) (live : Bool) (code : List Instr) :
    Option.Rel (KeptAt used live code) (place? code l) (place? (kept used live code) l) := by
  induction code generalizing live with
  | nil => exact .none
  | cons i rest ih =>
    have hrest := ih (after used live i)
    by_cases hi : marked? i = some l
    · obtain ⟨hstays, hafter⟩ := stays_of_marked? hi hl live
      rw [kept_cons_of_stays hstays, place?_cons, place?_cons, if_pos hi, if_pos hi]
      generalize place? rest l = p at hrest ⊢
      generalize place? (kept used (after used live i) rest) l = p' at hrest ⊢
      cases hrest with
      | some h => exact .some ⟨.there h.1, h.2⟩
      | none =>
        rw [hafter]
        exact .some ⟨.there (hafter.symm ▸ .here rest), rfl⟩
    · have hsame : place? (kept used live (i :: rest)) l = place? (kept used (after used live i) rest) l := by
        cases hstays : stays used live i with
        | true => rw [kept_cons_of_stays hstays, place?_cons, if_neg hi, Option.or_none]
        | false => rw [kept_cons_of_not_stays hstays]
      rw [place?_cons, if_neg hi, Option.or_none, hsame]
      generalize place? rest l = p at hrest ⊢
      generalize place? (kept used (after used live i) rest) l = p' at hrest ⊢
      cases hrest with
      | some h => exact .some ⟨.there h.1, h.2⟩
      | none => exact .none

/-! ### Addresses of calls -/

theorem stays_of_call (h : i.control = .call) (used : List Nat) (live : Bool) :
    stays used live i = live ∧ after used live i = live := by
  obtain ⟨op, arg⟩ := i
  cases op with
  | pseudo op => cases h
  | final op =>
    obtain rfl : op = .gosub := Opcode.eq_gosub_of_control h
    simp [stays, after, Opcode.isTerminator]

theorem calls_kept_le (used : List Nat) (live : Bool) (code : List Instr) :
    calls (kept used live code) ≤ calls code := by
  induction code generalizing live with
  | nil => exact le_rfl
  | cons i rest ih =>
    have hrest := ih (after used live i)
    cases hstays : stays used live i with
    | true =>
      rw [kept_cons_of_stays hstays, calls_cons, calls_cons]
      omega
    | false =>
      rw [kept_cons_of_not_stays hstays, calls_cons]
      omega

/-- Tells for every call that is kept which of the calls it was. -/
structure IsOrigin (used : List Nat) (live : Bool) (code : List Instr) (e : Nat → Nat) : Prop where
  mono : StrictMono e
  beyond : ∀ k, calls (kept used live code) ≤ k → e k = k + (calls code - calls (kept used live code))
  origin : ∀ i rest, Live used live code (i :: rest) → i.control = .call → e (calls (kept used true rest)) = calls rest

namespace IsOrigin

variable {e : Nat → Nat} {j : Instr}

/-- A call that is not kept: the calls before it were one further away from the end. -/
theorem cons_dead (h : IsOrigin used false code e) (hj : j.control = .call) :
    IsOrigin used false (j :: code) fun k => if k < calls (kept used false code) then e k else e k + 1 := by
  obtain ⟨hstays, hafter⟩ := stays_of_call hj used false
  have hkept : kept used false (j :: code) = kept used false code := by
    rw [kept_cons_of_not_stays hstays, hafter]
  have hle := calls_kept_le used false code
  refine ⟨fun a b hab => ?_, fun k hk => ?_, fun i rest hlive hi => ?_⟩
  · have := h.mono hab
    split <;> split <;> omega
  · rw [hkept] at hk ⊢
    rw [if_neg (Nat.not_lt.mpr hk), h.beyond k hk, calls_cons, if_pos hj]
    omega
  · cases hlive with
    | there hlive =>
      rw [hafter] at hlive
      obtain ⟨hstays', hafter'⟩ := stays_of_call hi used true
      have hsuffix := hlive.kept_suffix
      rw [kept_cons_of_stays hstays', hafter'] at hsuffix
      have hlt : calls (i :: kept used true rest) ≤ calls (kept used false code) := hsuffix.sublist.countP_le
      rw [calls_cons, if_pos hi] at hlt
      rw [if_pos (Nat.lt_of_succ_le hlt)]
      exact h.origin i rest hlive hi

theorem cons_live (h : IsOrigin used true code e) (hj : j.control = .call) : IsOrigin used true (j :: code) e := by
  obtain ⟨hstays, hafter⟩ := stays_of_call hj used true
  have hkept : calls (kept used true (j :: code)) = calls (kept used true code) + 1 := by
    rw [kept_cons_of_stays hstays, calls_cons, if_pos hj, hafter]
  have hle := calls_kept_le used true code
  refine ⟨h.mono, fun k hk => ?_, fun i rest hlive hi => ?_⟩
  · rw [hkept] at hk ⊢
    rw [h.beyond k (by omega), calls_cons, if_pos hj]
    omega
  · cases hlive with
    | here =>
      rw [h.beyond _ le_rfl]
      omega
    | there hlive =>
      rw [hafter] at hlive
      exact h.origin i rest hlive hi

theorem cons_other (h : IsOrigin used (after used live j) code e) (hj : j.control ≠ .call) :
    IsOrigin used live (j :: code) e := by
  have hkept : calls (kept used live (j :: code)) = calls (kept used (after used live j) code) := by
    cases hstays : stays used live j with
    | true => rw [kept_cons_of_stays hstays, calls_cons, if_neg hj, Nat.add_zero]
    | false => rw [kept_cons_of_not_stays hstays]
  have hcalls : calls (j :: code) = calls code := by rw [calls_cons, if_neg hj, Nat.add_zero]
  refine ⟨h.mono, ?_, fun i rest hlive hi => ?_⟩
  · rw [hkept, hcalls]
    exact h.beyond
  · cases hlive with
    | here => exact absurd hi hj
    | there hlive => exact h.origin i rest hlive hi

end IsOrigin

theorem exists_isOrigin (used : List Nat) (live : Bool) (code : List Instr) : ∃ e, IsOrigin used live code e := by
  induction code generalizing live with
  | nil => exact ⟨id, strictMono_id, fun k _ => rfl, nofun⟩
  | cons j code ih =>
    obtain ⟨e, he⟩ := ih (after used live j)
    by_cases hj : j.control = .call
    · rw [(stays_of_call hj used live).2] at he
      cases live with
      | true => exact ⟨e, he.cons_live hj⟩
      | false => exact ⟨_, he.cons_dead hj⟩
    · exact ⟨e, he.cons_other hj⟩

theorem after_of_not_isFinal (h : i.control.isFinal = false) (used : List Nat) : after used true i := by
  obtain ⟨op, arg⟩ := i
  cases op with
  | pseudo op => cases op <;> simp [after]
  | final op =>
    have hterminator : op.isTerminator = false := (Opcode.isFinal_control op).symm.trans h
    simp [after, hterminator]

/-- Only markers of labels are left out where control comes to. -/
theorem control_of_not_stays (h : stays used true i = false) : i.control = .idle := by
  obtain ⟨op, arg⟩ := i
  cases op with
  | pseudo op => rfl
  | final op => cases h

theorem sameRuns_run (code : List Instr) : ∃ e : Nat → Nat, StrictMono e ∧
    ∀ {σ α ε ν : Type} [DecidableEq α] (M : Machine σ α ε ν) (addr : Nat → α) (s : σ),
      SameRuns M addr (addr ∘ e) code (run code) s := by
  obtain ⟨e, he⟩ := exists_isOrigin (referenced code) true code
  refine ⟨e, he.mono, fun {σ α ε ν} _ M addr s => ?_⟩
  have hrun : run code = kept (referenced code) true code := keep_eq _ true [] code
  rw [hrun]
  have hstart : KeptAt (referenced code) true code code (kept (referenced code) true code) := ⟨.here code, rfl⟩
  refine sameRuns_of_places (P := fun _ => True) (fun _ _ => trivial) hstart trivial
    fun {rest rest' s given given' trace} hplace hgiven _ => ?_
  obtain ⟨hlive, rfl⟩ := hplace
  cases rest with
  | nil => exact ⟨1, 1, .halted _ _, .inl ⟨Nat.one_pos, Nat.one_pos⟩⟩
  | cons i rest =>
    have hnext : i.control.isFinal = false → KeptAt (referenced code) true code rest
        (kept (referenced code) (after (referenced code) true i) rest) := by
      intro hfinal
      have hafter := after_of_not_isFinal hfinal (referenced code)
      exact ⟨hlive.next hafter, by rw [hafter]⟩
    cases hstays : stays (referenced code) true i with
    | true =>
      rw [kept_cons_of_stays hstays]
      refine ⟨1, 1, related_step hnext (fun hcall => ?_) (fun l hjump hl => ?_) hgiven, .inl ⟨Nat.one_pos, Nat.one_pos⟩⟩
      · rw [(stays_of_call hcall _ true).2, Function.comp_apply, he.origin i rest hlive hcall]
      · refine place?_kept (mem_referenced.mpr ⟨i, ?_, ?_, hl⟩) true code
        · exact hlive.suffix.subset List.mem_cons_self
        · exact Instr.isJump_of_mayJump hjump
    | false =>
      -- the marker of a label that is not used: only the first run takes a step
      have hidle := control_of_not_stays hstays
      rw [kept_cons_of_not_stays hstays]
      have hstep : M.step addr code (.running (i :: rest) s given trace) = .running rest s given trace :=
        step_idle hidle rest
      refine ⟨1, 0, ?_, .inr ?_⟩
      · rw [Function.iterate_one, hstep]
        exact .running (hnext (by rw [hidle]; rfl)) hgiven
      · rw [Function.iterate_one, hstep]
        exact Nat.lt_succ_self _

end DeadCode

/-! ## Main statement -/

/-- Where every label that is used is bound once, code has the same runs after jump threading, and after dead code
elimination; in the latter, every call that is left has the address that it had. -/
theorem sameRuns_of_boundOnce {code : List Instr} (h : BoundOnce code) :
    (∀ {σ α ε ν : Type} [DecidableEq α] (M : Machine σ α ε ν) (addr : Nat → α) (s : σ),
      SameRuns M addr addr code (Threading.run code) s) ∧
    ∃ e : Nat → Nat, StrictMono e ∧
      ∀ {σ α ε ν : Type} [DecidableEq α] (M : Machine σ α ε ν) (addr : Nat → α) (s : σ),
        SameRuns M addr (addr ∘ e) code (DeadCode.run code) s :=
  ⟨fun M addr s => Threading.sameRuns_run M addr h s, DeadCode.sameRuns_run code⟩

/-- A call, a jump to a jump to a return, dead code and a label that is not used. -/
def winding : List Instr :=
  [.of .gosub (.label 0), .of .goto (.label 1), .plain .undefined, .mark 1, .of .goto (.label 2), .mark 3,
    .plain .throw, .mark 2, .plain .returnUndef, .mark 0, .plain .ret]

theorem sameRuns_winding : BoundOnce winding ∧
    Threading.run winding ≠ winding ∧ (DeadCode.run winding).length + 3 = winding.length ∧
    ∀ {σ α ε ν : Type} [DecidableEq α] (M : Machine σ α ε ν) (addr : Nat → α) (s : σ),
      SameRuns M addr addr winding (Threading.run winding) s := by
  have hbound : BoundOnce winding := by decide
  exact ⟨hbound, by decide, by decide, (sameRuns_of_boundOnce hbound).1⟩

end ScriptBytecode
