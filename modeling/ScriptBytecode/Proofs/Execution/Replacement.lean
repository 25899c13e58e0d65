import ScriptBytecode.Proofs.Execution.Machine
import ScriptBytecode.Proofs.Optimizer.Jumps

/-!
# Replacing code in place

Code in the middle of other code is replaced. Places before it and behind it correspond to themselves, so all that is
left to show is that control that comes to the old code and control that comes to the new code go on alike
(`sameRuns_of_swap`). For straight blocks of code this is a statement about the blocks alone (`preserves_of_block`).
-/

namespace ScriptBytecode

variable {l : Nat} {rest : List Instr}

namespace Execution

open Layout (marks marked?)

variable {σ α ε ν : Type} {code : List Instr}

/-! ## Places of labels -/

theorem place?_cons (i : Instr) (rest : List Instr) (l : Nat) :
    place? (i :: rest) l = (place? rest l).or (if marked? i = some l then some rest else none) := by
  have hbehind : ∀ (found : Option (List Instr)) (code : List Instr),
      Threading.behind? l found code = (Threading.behind? l none code).or found := by
    intro found code
    induction code generalizing found with
    | nil => rfl
    | cons i code ih =>
      unfold Threading.behind?
      split
      · rw [ih (some code), Option.or_assoc, Option.some_or]
      · exact ih found
  have hmarked : (i.isMark && i.arg.label? = some l) = true ↔ marked? i = some l := by
    unfold marked?
    cases i.isMark <;> simp
  show Threading.behind? l (if _ then _ else none) rest = _
  rw [hbehind, if_congr hmarked rfl rfl]
  rfl

theorem place?_append (front rest : List Instr) (l : Nat) :
    place? (front ++ rest) l = (place? rest l).or ((place? front l).map (· ++ rest)) := by
  induction front with
  | nil => exact (Option.or_none).symm
  | cons i front ih =>
    rw [List.cons_append, place?_cons, place?_cons, ih, Option.or_assoc, Option.map_or]
    congr 2
    split <;> rfl

theorem exists_of_place? (h : place? code l = some rest) :
    ∃ front i, code = front ++ i :: rest ∧ marked? i = some l :=
  (Threading.behind?_eq_some h).resolve_left nofun

theorem suffix_of_place? (h : place? code l = some rest) : rest <:+ code := by
  obtain ⟨front, i, rfl, -⟩ := exists_of_place? h
  exact (List.suffix_cons i rest).trans (List.suffix_append front _)

theorem place?_eq_none (h : l ∉ marks code) : place? code l = none := by
  cases hplace : place? code l with
  | none => rfl
  | some rest =>
    obtain ⟨front, i, rfl, hi⟩ := exists_of_place? hplace
    exact absurd (List.mem_filterMap.mpr ⟨i, by simp, hi⟩) h

theorem calls_append (a b : List Instr) : calls (a ++ b) = calls a + calls b :=
  List.countP_append

theorem calls_cons (i : Instr) (rest : List Instr) :
    calls (i :: rest) = calls rest + if i.control = .call then 1 else 0 := by
  unfold calls
  rw [List.countP_cons]
  simp

/-! ## Places around replaced code -/

/-- Corresponding places in `front ++ (old ++ tail)` and `front ++ (new ++ tail)`. -/
inductive Swapped (front old new tail : List Instr) : List Instr → List Instr → Prop where
  | before {x : List Instr} (h : x <:+ front) : Swapped front old new tail (x ++ (old ++ tail)) (x ++ (new ++ tail))
  | behind {y : List Instr} (h : y <:+ tail) : Swapped front old new tail y y

section Swap

variable {front old new tail : List Instr}

theorem swapped_place? (hold : marks old = []) (hnew : marks new = []) (l : Nat) :
    Option.Rel (Swapped front old new tail) (place? (front ++ (old ++ tail)) l)
      (place? (front ++ (new ++ tail)) l) := by
  have hnone : ∀ {block : List Instr}, marks block = [] → place? (block ++ tail) l = place? tail l := by
    intro block hblock
    have hplace : place? block l = none := place?_eq_none (by simp [hblock])
    rw [place?_append, hplace, Option.map_none, Option.or_none]
  rw [place?_append front, place?_append front, hnone hold, hnone hnew]
  cases htail : place? tail l with
  | some y => exact .some (.behind (suffix_of_place? htail))
  | none =>
    cases hfront : place? front l with
    | some x => exact .some (.before (suffix_of_place? hfront))
    | none => exact .none

variable [DecidableEq α] {M : Machine σ α ε ν} {addr : Nat → α}

/-- It is enough to look at control that comes to the old code. -/
theorem sameRuns_of_swap {P : Config σ α ε ν → Prop} {s} (hold : marks old = []) (hnew : marks new = [])
    (hcalls : calls old = calls new) (hP : ∀ c, P c → P (M.step addr (front ++ (old ++ tail)) c))
    (hsafe : P (.start (front ++ (old ++ tail)) s))
    (hswap : ∀ {s : σ} {given given' : List (α × List Instr)} {trace : List ε},
      SameGiven (Swapped front old new tail) given given' → P (.running (old ++ tail) s given trace) → ∃ n m,
      Related (Swapped front old new tail)
        ((M.step addr (front ++ (old ++ tail)))^[n] (.running (old ++ tail) s given trace))
        ((M.step addr (front ++ (new ++ tail)))^[m] (.running (new ++ tail) s given' trace)) ∧
      (0 < n ∧ 0 < m ∨ ((M.step addr (front ++ (old ++ tail)))^[n]
        (.running (old ++ tail) s given trace)).rest.length < (old ++ tail).length)) :
    SameRuns M addr addr (front ++ (old ++ tail)) (front ++ (new ++ tail)) s := by
  have hstart : Swapped front old new tail (front ++ (old ++ tail)) (front ++ (new ++ tail)) :=
    .before (List.suffix_refl front)
  refine sameRuns_of_places hP hstart hsafe fun {rest _ _ _ _ _} hplace hgiven hc => ?_
  cases hplace with
  | @before x hx =>
    cases x with
    | nil => exact hswap hgiven hc
    | cons i x =>
      have hx' : x <:+ front := (List.suffix_cons i x).trans hx
      have hsame : calls (x ++ (old ++ tail)) = calls (x ++ (new ++ tail)) := by
        rw [calls_append, calls_append, calls_append, calls_append, hcalls]
      exact ⟨1, 1, related_step (fun _ => .before hx') (fun _ => congrArg addr hsame)
        (fun l _ _ => swapped_place? hold hnew l) hgiven, .inl ⟨Nat.one_pos, Nat.one_pos⟩⟩
  | behind hrest =>
    refine ⟨1, 1, ?_, .inl ⟨Nat.one_pos, Nat.one_pos⟩⟩
    cases rest with
    | nil => exact .halted _ _
    | cons i rest =>
      exact related_step (fun _ => .behind ((List.suffix_cons i rest).trans hrest)) (fun _ => rfl)
        (fun l _ _ => swapped_place? hold hnew l) hgiven

end Swap

/-! ## Blocks -/

/-- What instructions in a row do, as long as control passes on. -/
def Machine.block (M : Machine σ α ε ν) (a : α) : List Instr → σ → List ε × Turn σ α ν
  | [], s => ([], .next s)
  | i :: rest, s =>
    match M.turn a i s with
    | (effects, .next s') => (effects ++ (M.block a rest s').1, (M.block a rest s').2)
    | r => r

section Blocks

variable {M : Machine σ α ε ν} {a : α}

theorem block_cons_next {i s s' effects} (h : M.turn a i s = (effects, .next s')) :
    M.block a (i :: rest) s = (effects ++ (M.block a rest s').1, (M.block a rest s').2) := by
  rw [Machine.block, h]

theorem block_cons_idle {i : Instr} (h : i.control = .idle) (rest : List Instr) (s : σ) :
    M.block a (i :: rest) s = M.block a rest s := by
  have hturn : M.turn a i s = ([], .next s) := by rw [Machine.turn, h]
  rw [block_cons_next hturn]
  rfl

theorem block_one (i : Instr) (s : σ) : M.block a [i] s = M.turn a i s := by
  rw [Machine.block]
  split
  · rename_i effects s' hturn
    rw [hturn, Machine.block, List.append_nil]
  · rfl

theorem block_finals (M : Machine σ α ε ν) (a : α) (code : List Instr) (s : σ) :
    M.block a code s = M.block a (finals code) s := by
  induction code generalizing s with
  | nil => rfl
  | cons i rest ih =>
    obtain ⟨op, arg⟩ := i
    cases op with
    | pseudo op => exact (block_cons_idle rfl rest s).trans (ih s)
    | final op =>
      show M.block a (.of op arg :: rest) s = M.block a (.of op arg :: finals rest) s
      rw [Machine.block, Machine.block, funext ih]

variable [DecidableEq α]

theorem go_append (rest : List Instr) (given : List (α × List Instr)) (trace effects effects' : List ε)
    (turn : Turn σ α ν) :
    go code rest given (trace ++ effects) (effects', turn) = go code rest given trace (effects ++ effects', turn) := by
  cases turn <;> simp only [go, List.append_assoc]

/-- A block is run step by step. -/
theorem iterate_block (M : Machine σ α ε ν) (addr : Nat → α) (code : List Instr) (a : α) {block}
    (hblock : ∀ i ∈ block, i.control ≠ .call) (tail : List Instr) (s : σ) (given : List (α × List Instr))
    (trace : List ε) :
    ∃ n, (block ≠ [] → 0 < n) ∧ (M.step addr code)^[n] (.running (block ++ tail) s given trace) =
      go code tail given trace (M.block a block s) := by
  induction block generalizing s trace with
  | nil => exact ⟨0, fun h => absurd rfl h, by simp [Machine.block, go]⟩
  | cons i block ih =>
    rw [List.forall_mem_cons] at hblock
    have hstep : M.step addr code (.running (i :: block ++ tail) s given trace) =
        go code (block ++ tail) given trace (M.turn a i s) := by
      show go code (block ++ tail) (if i.control = .call then _ else given) trace (M.turn _ i s) = _
      rw [if_neg hblock.1, M.turn_congr hblock.1 _ a]
    unfold Machine.block
    split
    · rename_i effects s' hturn
      obtain ⟨n, -, hn⟩ := ih hblock.2 s' (trace ++ effects)
      refine ⟨n + 1, fun _ => Nat.succ_pos n, ?_⟩
      rw [Function.iterate_succ_apply, hstep, hturn, ← go_append]
      exact hn
    · rename_i hturn
      refine ⟨1, fun _ => Nat.one_pos, ?_⟩
      rw [Function.iterate_one, hstep]
      generalize M.turn a i s = r at hturn
      obtain ⟨effects, turn⟩ := r
      cases turn with
      | next s' => exact absurd rfl (hturn effects s')
      | jump l s' => rfl
      | back b s' => rfl
      | leave how => rfl

end Blocks

/-! ## Replacements that preserve runs -/

section Preserves

variable [DecidableEq α]

/-- The run from data `s` does not end in one of the ways `Bad`. -/
def Machine.Avoids (M : Machine σ α ε ν) (addr : Nat → α) (Bad : ν → Prop) (code : List Instr) (s : σ) : Prop :=
  ∀ how effects, M.Halts addr code s (.left how) effects → ¬ Bad how

/-- Where the first code does not end badly, the second has the same runs. -/
def Preserves (M : Machine σ α ε ν) (addr : Nat → α) (Bad : ν → Prop) (code code' : List Instr) : Prop :=
  ∀ s, M.Avoids addr Bad code s → SameRuns M addr addr code code' s

variable {M : Machine σ α ε ν} {addr : Nat → α} {Bad : ν → Prop} {front old new tail : List Instr} {a : α}

theorem Preserves.refl (code : List Instr) : Preserves M addr Bad code code :=
  fun s _ => .refl M addr code s

theorem Preserves.trans {code' code''} (h : Preserves M addr Bad code code') (h' : Preserves M addr Bad code' code'') :
    Preserves M addr Bad code code'' := by
  intro s hs
  have hsame := h s hs
  exact hsame.trans (h' s fun how effects hhalts => hs how effects ((hsame.halts _ _).mpr hhalts))

/-- A block is replaced by one that does the same. -/
theorem preserves_of_block (hold : marks old = []) (hnew : marks new = [])
    (hcalls : ∀ i ∈ old, i.control ≠ .call) (hcalls' : ∀ i ∈ new, i.control ≠ .call) (hne : old ≠ [])
    (h : ∀ s, (∃ effects how, M.block a old s = (effects, .leave how) ∧ Bad how) ∨ M.block a old s = M.block a new s) :
    Preserves M addr Bad (front ++ (old ++ tail)) (front ++ (new ++ tail)) := by
  intro s hs
  have hzero : ∀ {block : List Instr}, (∀ i ∈ block, i.control ≠ .call) → calls block = 0 := fun hblock =>
    List.countP_eq_zero.mpr fun i hi => by simpa using hblock i hi
  refine sameRuns_of_swap
    (P := fun c => ∀ n how effects, (M.step addr (front ++ (old ++ tail)))^[n] c = .halted (.left how) effects →
      ¬ Bad how)
    hold hnew ((hzero hcalls).trans (hzero hcalls').symm) (fun c hc n => hc (n + 1))
    (fun n how effects hn => hs how effects ⟨n, hn⟩) fun {s given given' trace} hgiven hc => ?_
  obtain ⟨n, hn, hrun⟩ := iterate_block M addr (front ++ (old ++ tail)) a hcalls tail s given trace
  obtain ⟨m, hm, hrun'⟩ := iterate_block M addr (front ++ (new ++ tail)) a hcalls' tail s given' trace
  rcases h s with ⟨effects, how, hleave, hbad⟩ | hsame
  · rw [hleave] at hrun
    exact absurd hbad (hc n how _ hrun)
  · refine ⟨n, m, ?_, ?_⟩
    · rw [hrun, hrun', hsame]
      exact related_go _ (fun _ _ => .behind (List.suffix_refl tail)) (fun l _ _ => swapped_place? hold hnew l) hgiven
    · by_cases hempty : new = []
      · -- nothing is done in place of the old block
        subst hempty
        rw [hrun, hsame]
        refine .inr ?_
        have := List.length_pos_iff.mpr hne
        simpa [Machine.block, go, Config.rest] using this
      · exact .inl ⟨hn hne, hm hempty⟩

theorem control_ne_call_of_finals (h : ∀ i ∈ finals code, i.control ≠ .call) : ∀ i ∈ code, i.control ≠ .call := by
  rintro ⟨op, arg⟩ hi
  cases op with
  | pseudo op => exact nofun
  | final op => exact h _ (mem_finals hi rfl)

/-- Markers in a block do nothing. -/
theorem preserves_of_finals (hold : marks old = []) (hmarkers : markers new = markers old)
    (hcalls : ∀ i ∈ finals old, i.control ≠ .call) (hcalls' : ∀ i ∈ finals new, i.control ≠ .call)
    (hne : finals old ≠ [])
    (h : ∀ s, (∃ effects how, M.block a (finals old) s = (effects, .leave how) ∧ Bad how) ∨
      M.block a (finals old) s = M.block a (finals new) s) :
    Preserves M addr Bad (front ++ (old ++ tail)) (front ++ (new ++ tail)) := by
  have hne' : old ≠ [] := by
    rintro rfl
    exact hne rfl
  refine preserves_of_block (a := a) hold ((marks_eq_of_markers hmarkers).trans hold)
    (control_ne_call_of_finals hcalls) (control_ne_call_of_finals hcalls') hne' fun s => ?_
  rw [block_finals _ _ old, block_finals _ _ new]
  exact h s

theorem preserves_compact (front code : List Instr) :
    Preserves M addr Bad (front ++ code) (front ++ Rule.compact code) := by
  induction code generalizing front with
  | nil => exact .refl _
  | cons i rest ih =>
    unfold Rule.compact at *
    cases hnop : i.is .nop with
    | false =>
      rw [List.filter_cons_of_pos (by simp [hnop])]
      simpa using ih (front ++ [i])
    | true =>
      rw [List.filter_cons_of_neg (by simp [hnop])]
      obtain ⟨op, arg⟩ := i
      obtain rfl : op = .final .nop := by simpa [Instr.is] using hnop
      refine .trans ?_ (ih front)
      have hcontrol : ∀ j ∈ [(⟨.final .nop, arg⟩ : Instr)], j.control ≠ .call := by simp [Instr.control, Opcode.control]
      exact preserves_of_block (a := addr 0) rfl Layout.marks_nil hcontrol (List.forall_mem_nil _)
        (List.cons_ne_nil _ []) fun s => .inr rfl

end Preserves

end Execution

end ScriptBytecode
