import Mathlib.Logic.Function.Iterate
import ScriptBytecode.Optimizer.Threading
import ScriptBytecode.Proofs.Layout

/-!
# Execution of code with labels

A machine runs code with labels step by step. How control moves is fixed here; the data, what instructions do to it
and how they act on the world are left open in `Machine`, so that statements about runs hold for every meaning of the
instructions. Two programs have the same runs (`SameRuns`) if they end in the same way, or both never end, and act on
the world in the same order. Programs are compared by relating the places in their code (`sameRuns_of_places`).
-/

namespace ScriptBytecode

/-- The part that an instruction plays in the flow of control. -/
inductive Control where
  /-- Does nothing. -/
  | idle
  /-- Takes a value away. -/
  | discard
  | goto
  /-- Jumps if the value that it takes counts as true, or as false. -/
  | test (taken : Bool)
  /-- Goes on at its label or at the next instruction. -/
  | fork
  /-- Goes on at its label or at the next instruction, and hands out the address behind it. -/
  | call
  /-- Goes on behind a call. -/
  | resume
  | finish (hasValue : Bool)
  /-- Leaves the code in another way. -/
  | exit
  | straight
deriving DecidableEq

namespace Control

/-- Does control never pass on to the next instruction? -/
def isFinal : Control → Bool
  | goto | resume | finish _ | exit => true
  | _ => false

/-- May control go to the label of the instruction? -/
def mayJump : Control → Bool
  | goto | test _ | fork | call => true
  | _ => false

end Control

def Opcode.control : Opcode → Control
  | nop => .idle
  | drop => .discard
  | goto | goto8 | goto16 => .goto
  | ifTrue | ifTrue8 => .test true
  | ifFalse | ifFalse8 => .test false
  | catchTo | withGetVar | withPutVar | withDeleteVar | withMakeRef | withGetRef | withGetRefUndef => .fork
  | gosub => .call
  | ret => .resume
  | returnValue => .finish true
  | returnUndef => .finish false
  | returnAsync | throw | raiseError | tailCall | tailCallMethod => .exit
  | _ => .straight

theorem Opcode.isFinal_control (op : Opcode) : op.control.isFinal = op.isTerminator := by
  cases op <;> rfl

theorem Opcode.mayJump_control (op : Opcode) : op.control.mayJump = op.isJump := by
  cases op <;> rfl

theorem Opcode.eq_gosub_of_control {op : Opcode} (h : op.control = .call) : op = gosub := by
  cases op <;> first | rfl | cases h

/-- Markers do nothing. -/
def Instr.control (i : Instr) : Control :=
  match i.op with
  | .final op => op.control
  | .pseudo _ => .idle

variable {i : Instr}

theorem Instr.control_of_is {op} (h : i.is op) : i.control = op.control := by
  obtain ⟨op', arg⟩ := i
  obtain rfl : op' = .final op := by simpa [Instr.is] using h
  rfl

theorem Instr.isJump_of_mayJump (h : i.control.mayJump) : i.opcode?.any Opcode.isJump := by
  obtain ⟨op, arg⟩ := i
  cases op with
  | pseudo op => cases h
  | final op => exact (Opcode.mayJump_control op).symm.trans h

/-! ## Simulation -/

section Simulation

variable {C D : Type} {f : C → C} {g : D → D} {R : C → D → Prop} {rank : C → D → Nat} {P : C → Prop} {Q : D → Prop}

/-- Related configurations of two machines come to related ones again. Both machines do something meanwhile, or else a
rank gets smaller, so that neither waits for the other for ever. -/
def Simulates (f : C → C) (g : D → D) (R : C → D → Prop) (rank : C → D → Nat) : Prop :=
  ∀ c d, R c d → ∃ n m, R (f^[n] c) (g^[m] d) ∧ (0 < n ∧ 0 < m ∨ rank (f^[n] c) (g^[m] d) < rank c d)

theorem Simulates.symm (h : Simulates f g R rank) : Simulates g f (fun d c => R c d) (fun d c => rank c d) := by
  intro d c hR
  obtain ⟨n, m, hR', hprogress⟩ := h c d hR
  exact ⟨m, n, hR', hprogress.imp And.symm id⟩

theorem iterate_stable (hP : ∀ c, P c → P (f c)) (n : Nat) {c} (h : P c) : P (f^[n] c) := by
  induction n generalizing c with
  | zero => exact h
  | succ n ih => exact ih (hP c h)

/-- What one machine comes to and does not lose again, the other comes to as well. -/
theorem Simulates.exists_iterate (h : Simulates f g R rank) (hP : ∀ c, P c → P (f c)) (hPQ : ∀ c d, R c d → P c → Q d)
    (n : Nat) {c d} (hR : R c d) (hn : P (f^[n] c)) : ∃ m, Q (g^[m] d) := by
  -- on the steps that are left, and on the rank where the first machine takes none of them
  induction n using Nat.strongRecOn generalizing c d with
  | ind n ihSteps =>
    induction hrank : rank c d using Nat.strongRecOn generalizing c d with
    | ind r ihRank =>
      obtain ⟨k, m, hR', hprogress⟩ := h c d hR
      rcases Nat.lt_or_ge k n with hlt | hge
      · have hrest : P (f^[n - k] (f^[k] c)) := by
          rwa [← Function.iterate_add_apply, Nat.sub_add_cancel hlt.le]
        have hlater : ∃ m', Q (g^[m'] (g^[m] d)) := by
          rcases Nat.eq_zero_or_pos k with rfl | hpos
          · have hsmaller := hprogress.resolve_left fun hboth => lt_irrefl 0 hboth.1
            exact ihRank _ (hrank ▸ hsmaller) hR' hrest rfl
          · exact ihSteps (n - k) (by omega) hR' hrest
        obtain ⟨m', hm'⟩ := hlater
        exact ⟨m' + m, by rwa [Function.iterate_add_apply]⟩
      · have hk : P (f^[k] c) := by
          rw [← Nat.sub_add_cancel hge, Function.iterate_add_apply]
          exact iterate_stable hP _ hn
        exact ⟨m, hPQ _ _ hR' hk⟩

theorem Simulates.exists_iterate_iff (h : Simulates f g R rank) (hP : ∀ c, P c → P (f c)) (hQ : ∀ d, Q d → Q (g d))
    (hPQ : ∀ c d, R c d → (P c ↔ Q d)) {c d} (hR : R c d) : (∃ n, P (f^[n] c)) ↔ ∃ m, Q (g^[m] d) :=
  ⟨fun ⟨n, hn⟩ => h.exists_iterate hP (fun c d hR => (hPQ c d hR).mp) n hR hn,
    fun ⟨m, hm⟩ => h.symm.exists_iterate hQ (fun d c hR => (hPQ c d hR).mpr) m hR hm⟩

end Simulation

namespace Execution

variable {σ α ε ν : Type}

/-! ## Machines -/

/-- Where control goes after an instruction. -/
inductive Turn (σ α ν : Type) where
  | next (s : σ)
  | jump (l : Option Nat) (s : σ)
  /-- Behind the call that handed out the address. -/
  | back (a : α) (s : σ)
  | leave (how : ν)

namespace Turn

def ofExcept {β : Type} (go : β → Turn σ α ν) : Except ν β → Turn σ α ν
  | .ok b => go b
  | .error how => .leave how

/-- To the label of an instruction or to the next one. -/
def choose (i : Instr) (taken : Bool) (s : σ) : Turn σ α ν :=
  if taken then .jump i.arg.label? s else .next s

end Turn

/-- What instructions do. They work on data `σ`, act on the world by effects `ε` in order, and may leave the code in
some way `ν`; `α` are return addresses. -/
structure Machine (σ α ε ν : Type) where
  straight : Instr → σ → List ε × Except ν σ
  /-- Takes a value, and tells whether it counts as true. -/
  test : σ → Except ν (Bool × σ)
  /-- The choice is true for the label. -/
  fork : Instr → σ → List ε × Except ν (Bool × σ)
  call : Instr → α → σ → List ε × Except ν (Bool × σ)
  /-- Takes the return address. -/
  resume : σ → Except ν (α × σ)
  finish : Bool → σ → List ε × ν
  exit : Instr → σ → List ε × ν

/-- What one instruction does; a call hands out the address `a`. -/
def Machine.turn (M : Machine σ α ε ν) (a : α) (i : Instr) (s : σ) : List ε × Turn σ α ν :=
  match i.control with
  | .idle => ([], .next s)
  | .discard => ([], .ofExcept (fun r => .next r.2) (M.test s))
  | .goto => ([], .jump i.arg.label? s)
  | .test taken => ([], .ofExcept (fun r => .choose i (r.1 == taken) r.2) (M.test s))
  | .fork => ((M.fork i s).1, .ofExcept (fun r => .choose i r.1 r.2) (M.fork i s).2)
  | .call => ((M.call i a s).1, .ofExcept (fun r => .choose i r.1 r.2) (M.call i a s).2)
  | .resume => ([], .ofExcept (fun r => .back r.1 r.2) (M.resume s))
  | .finish hasValue => ((M.finish hasValue s).1, .leave (M.finish hasValue s).2)
  | .exit => ((M.exit i s).1, .leave (M.exit i s).2)
  | .straight => ((M.straight i s).1, .ofExcept .next (M.straight i s).2)

namespace Turn

/-- Control passes on only behind instructions that are not final, and jumps only to the label of an instruction that
may jump. -/
def Fits (i : Instr) : Turn σ α ν → Prop
  | next _ => i.control.isFinal = false
  | jump l _ => l = i.arg.label? ∧ i.control.mayJump = true
  | back _ _ | leave _ => True

theorem fits_ofExcept {β : Type} {go : β → Turn σ α ν} (h : ∀ b, (go b).Fits i) (r : Except ν β) :
    (ofExcept go r).Fits i := by
  cases r with
  | ok b => exact h b
  | error how => trivial

theorem fits_choose (hfinal : i.control.isFinal = false) (hjump : i.control.mayJump) (taken : Bool) (s : σ) :
    (choose i taken s : Turn σ α ν).Fits i := by
  cases taken with
  | true => exact ⟨rfl, hjump⟩
  | false => exact hfinal

end Turn

theorem Machine.fits_turn (M : Machine σ α ε ν) (a : α) (i : Instr) (s : σ) : (M.turn a i s).2.Fits i := by
  have hfinal : ∀ {r : Control}, i.control = r → r.isFinal = false → i.control.isFinal = false := fun h hr => h ▸ hr
  have hjump : ∀ {r : Control}, i.control = r → r.mayJump = true → i.control.mayJump := fun h hr => h ▸ hr
  unfold turn
  split
  case h_1 h => exact hfinal h rfl
  case h_2 h | h_10 h =>
    refine Turn.fits_ofExcept ?_ _
    exact fun _ => hfinal h rfl
  case h_3 h => exact ⟨rfl, hjump h rfl⟩
  case h_4 h | h_5 h | h_6 h =>
    exact Turn.fits_ofExcept (fun _ => Turn.fits_choose (hfinal h rfl) (hjump h rfl) _ _) _
  case h_7 =>
    refine Turn.fits_ofExcept ?_ _
    exact fun _ => trivial
  case h_8 | h_9 => trivial

/-! ## Runs -/

/-- How a run ends. -/
inductive Outcome (σ ν : Type) where
  /-- By a return or a throw. -/
  | left (how : ν)
  /-- At the end of the code. -/
  | ended (s : σ)
  /-- At a jump to a label that is not there, or to an address that no call has handed out. -/
  | astray (s : σ)

/-- A configuration: `rest` is the code ahead, `given` are the addresses that calls have handed out, the latest first,
each with the code behind its call, and `trace` is what was done to the world so far. -/
inductive Config (σ α ε ν : Type) where
  | running (rest : List Instr) (s : σ) (given : List (α × List Instr)) (trace : List ε)
  | halted (o : Outcome σ ν) (trace : List ε)

namespace Config

def trace : Config σ α ε ν → List ε
  | running _ _ _ trace | halted _ trace => trace

/-- The code ahead. -/
def rest : Config σ α ε ν → List Instr
  | running rest _ _ _ => rest
  | halted _ _ => []

/-- Goes on at a place, if there is one. -/
def goOn (s : σ) (given : List (α × List Instr)) (trace : List ε) : Option (List Instr) → Config σ α ε ν
  | some rest => running rest s given trace
  | none => halted (.astray s) trace

end Config

/-- The number of calls in code. Counted from the end of the code, it tells the calls apart. -/
def calls (code : List Instr) : Nat :=
  code.countP (·.control = .call)

/-- The code at a label. -/
def place? (code : List Instr) (l : Nat) : Option (List Instr) :=
  Threading.behind? l none code

section Step

variable [DecidableEq α]

/-- Does in `code` what an instruction before `rest` says. -/
def go (code rest : List Instr) (given : List (α × List Instr)) (trace : List ε) :
    List ε × Turn σ α ν → Config σ α ε ν
  | (effects, .next s) => .running rest s given (trace ++ effects)
  | (effects, .jump l s) => .goOn s given (trace ++ effects) (l.bind (place? code))
  | (effects, .back a s) => .goOn s given (trace ++ effects) (given.lookup a)
  | (effects, .leave how) => .halted (.left how) (trace ++ effects)

/-- One step in `code`, where the call with `k` calls behind it has the address `addr k`. -/
def Machine.step (M : Machine σ α ε ν) (addr : Nat → α) (code : List Instr) : Config σ α ε ν → Config σ α ε ν
  | .running (i :: rest) s given trace =>
    let a := addr (calls rest)
    go code rest (if i.control = .call then (a, rest) :: given else given) trace (M.turn a i s)
  | .running [] s _ trace => .halted (.ended s) trace
  | .halted o trace => .halted o trace

def Config.start (code : List Instr) (s : σ) : Config σ α ε ν :=
  .running code s [] []

/-- The run from data `s` ends with an outcome and has had these effects. -/
def Machine.Halts (M : Machine σ α ε ν) (addr : Nat → α) (code : List Instr) (s : σ) (o : Outcome σ ν)
    (effects : List ε) : Prop :=
  ∃ n, (M.step addr code)^[n] (.start code s) = .halted o effects

/-- The effects are the first ones of the run from data `s`. -/
def Machine.Shows (M : Machine σ α ε ν) (addr : Nat → α) (code : List Instr) (s : σ) (effects : List ε) : Prop :=
  ∃ n, effects <+: ((M.step addr code)^[n] (.start code s)).trace

/-- Two codes have the same runs from data `s`: either both end, with the same outcome, or both never end, and the
effects on the world are the same in the same order. -/
structure SameRuns (M : Machine σ α ε ν) (addr addr' : Nat → α) (code code' : List Instr) (s : σ) : Prop where
  halts : ∀ o effects, M.Halts addr code s o effects ↔ M.Halts addr' code' s o effects
  shows : ∀ effects, M.Shows addr code s effects ↔ M.Shows addr' code' s effects

/-! ## Comparing runs -/

variable {M : Machine σ α ε ν} {addr addr' : Nat → α} {code code' : List Instr}

theorem trace_go (rest : List Instr) (given : List (α × List Instr)) (trace : List ε) (effects : List ε)
    (turn : Turn σ α ν) : (go code rest given trace (effects, turn)).trace = trace ++ effects := by
  have hgoOn : ∀ (s : σ) (place : Option (List Instr)),
      (Config.goOn s given (trace ++ effects) place : Config σ α ε ν).trace = trace ++ effects := by
    intro s place
    cases place <;> rfl
  cases turn with
  | next s => rfl
  | jump l s => exact hgoOn s _
  | back a s => exact hgoOn s _
  | leave how => rfl

theorem trace_step (c : Config σ α ε ν) : c.trace <+: (M.step addr code c).trace := by
  cases c with
  | halted o trace => exact List.prefix_rfl
  | running rest s given trace =>
    cases rest with
    | nil => exact List.prefix_rfl
    | cons i rest =>
      show trace <+: (go _ _ _ _ (M.turn _ i s)).trace
      rw [trace_go]
      exact List.prefix_append _ _

/-- A run ends in one way. -/
theorem Machine.Halts.unique {s o o' effects effects'} (h : M.Halts addr code s o effects)
    (h' : M.Halts addr code s o' effects') : o = o' ∧ effects = effects' := by
  obtain ⟨n, hn⟩ := h
  obtain ⟨m, hm⟩ := h'
  have hstays : ∀ (o : Outcome σ ν) (effects : List ε) (k : Nat),
      (M.step addr code)^[k] (.halted o effects) = .halted o effects := fun o effects k =>
    Function.iterate_fixed rfl k
  have hsame : (Config.halted o effects : Config σ α ε ν) = .halted o' effects' := by
    rw [← hstays o effects m, ← hn, ← Function.iterate_add_apply, Nat.add_comm, Function.iterate_add_apply, hm, hstays]
  cases hsame
  exact ⟨rfl, rfl⟩

/-- Addresses that were handed out at corresponding places. -/
abbrev SameGiven (Place : List Instr → List Instr → Prop) : List (α × List Instr) → List (α × List Instr) → Prop :=
  List.Forall₂ fun x y => x.1 = y.1 ∧ Place x.2 y.2

/-- Configurations at corresponding places. -/
inductive Related (Place : List Instr → List Instr → Prop) : Config σ α ε ν → Config σ α ε ν → Prop where
  | running {rest rest' : List Instr} {s : σ} {given given' : List (α × List Instr)} {trace : List ε}
      (place : Place rest rest') (same : SameGiven Place given given') :
      Related Place (.running rest s given trace) (.running rest' s given' trace)
  | halted (o : Outcome σ ν) (trace : List ε) : Related Place (.halted o trace) (.halted o trace)

section Places

variable {Place : List Instr → List Instr → Prop}

omit [DecidableEq α] in
theorem Related.trace {c c' : Config σ α ε ν} (h : Related Place c c') : c'.trace = c.trace := by
  cases h <;> rfl

omit [DecidableEq α] in
theorem related_goOn {s given given' trace place place'} (hplace : Option.Rel Place place place')
    (hgiven : SameGiven Place given given') :
    Related Place (.goOn s given trace place : Config σ α ε ν) (.goOn s given' trace place') := by
  cases hplace with
  | none => exact .halted _ _
  | some h => exact .running h hgiven

theorem SameGiven.lookup {given given'} (h : SameGiven Place given given') (a : α) :
    Option.Rel Place (given.lookup a) (given'.lookup a) := by
  induction h with
  | nil => exact .none
  | @cons x y given given' hxy _ ih =>
    obtain ⟨b, rest⟩ := x
    obtain ⟨b', rest'⟩ := y
    obtain ⟨hb, hplace⟩ := hxy
    cases (hb : b = b')
    rw [List.lookup_cons, List.lookup_cons]
    cases a == b with
    | true => exact .some hplace
    | false => exact ih

/-- The same turn is taken at corresponding places. -/
theorem related_go {rest rest' given given' trace} (r : List ε × Turn σ α ν)
    (hnext : ∀ s, r.2 = .next s → Place rest rest')
    (hlabel : ∀ l s, r.2 = .jump (some l) s → Option.Rel Place (place? code l) (place? code' l))
    (hgiven : SameGiven Place given given') :
    Related Place (go code rest given trace r) (go code' rest' given' trace r) := by
  obtain ⟨effects, turn⟩ := r
  cases turn with
  | next s => exact .running (hnext s rfl) hgiven
  | jump l s =>
    refine related_goOn ?_ hgiven
    cases l with
    | none => exact .none
    | some l => exact hlabel l s rfl
  | back a s => exact related_goOn (hgiven.lookup a) hgiven
  | leave how => exact .halted _ _

omit [DecidableEq α] in
/-- Only calls look at the address. -/
theorem Machine.turn_congr (M : Machine σ α ε ν) (h : i.control ≠ .call) (a b : α) (s : σ) :
    M.turn a i s = M.turn b i s := by
  unfold Machine.turn
  split <;> first | rfl | exact absurd ‹_› h

/-- The same instruction is done at corresponding places. -/
theorem related_step {i : Instr} {rest rest' s given given' trace}
    (hnext : i.control.isFinal = false → Place rest rest')
    (haddr : i.control = .call → addr (calls rest) = addr' (calls rest'))
    (hlabel : ∀ l, i.control.mayJump → i.arg.label? = some l → Option.Rel Place (place? code l) (place? code' l))
    (hgiven : SameGiven Place given given') :
    Related Place (M.step addr code (.running (i :: rest) s given trace))
      (M.step addr' code' (.running (i :: rest') s given' trace)) := by
  have hgiven' : SameGiven Place (if i.control = .call then (addr (calls rest), rest) :: given else given)
      (if i.control = .call then (addr' (calls rest'), rest') :: given' else given') := by
    split
    · rename_i h
      exact .cons ⟨haddr h, hnext (h ▸ rfl)⟩ hgiven
    · exact hgiven
  have hturn : M.turn (addr' (calls rest')) i s = M.turn (addr (calls rest)) i s := by
    by_cases h : i.control = .call
    · rw [haddr h]
    · exact M.turn_congr h _ _ s
  have hfits := M.fits_turn (addr (calls rest)) i s
  show Related Place (go code rest _ trace (M.turn _ i s)) (go code' rest' _ trace (M.turn _ i s))
  rw [hturn]
  refine related_go _ (fun s' h => ?_) (fun l s' h => ?_) hgiven'
  · rw [h] at hfits
    exact hnext hfits
  · rw [h] at hfits
    exact hlabel l hfits.2 hfits.1.symm

/-- Codes have the same runs if their places can be related so that from related places control comes to related places
again; `P` holds throughout the first run. -/
theorem sameRuns_of_places {P : Config σ α ε ν → Prop} {s} (hP : ∀ c, P c → P (M.step addr code c))
    (hstart : Place code code') (hsafe : P (.start code s))
    (hstep : ∀ {rest rest' : List Instr} {s : σ} {given given' : List (α × List Instr)} {trace : List ε},
      Place rest rest' → SameGiven Place given given' → P (.running rest s given trace) →
      ∃ n m, Related Place ((M.step addr code)^[n] (.running rest s given trace))
          ((M.step addr' code')^[m] (.running rest' s given' trace)) ∧
        (0 < n ∧ 0 < m ∨ ((M.step addr code)^[n] (.running rest s given trace)).rest.length < rest.length)) :
    SameRuns M addr addr' code code' s := by
  have hsim : Simulates (M.step addr code) (M.step addr' code') (fun c c' => Related Place c c' ∧ P c)
      (fun c _ => c.rest.length) := by
    rintro c c' ⟨hrelated, hc⟩
    cases hrelated with
    | running hplace hgiven =>
      obtain ⟨n, m, hrelated, hprogress⟩ := hstep hplace hgiven hc
      exact ⟨n, m, ⟨hrelated, iterate_stable hP n hc⟩, hprogress⟩
    | halted o trace => exact ⟨1, 1, ⟨.halted o trace, hc⟩, .inl ⟨Nat.one_pos, Nat.one_pos⟩⟩
  have hrelated : Related Place (.start code s) (.start code' s : Config σ α ε ν) := .running hstart .nil
  refine ⟨fun o effects => ?_, fun effects => ?_⟩
  · have hhalted : ∀ (addr : Nat → α) (code : List Instr) (c : Config σ α ε ν), c = .halted o effects →
        M.step addr code c = .halted o effects := by
      rintro addr code _ rfl
      rfl
    refine hsim.exists_iterate_iff (hhalted addr code) (hhalted addr' code') ?_ ⟨hrelated, hsafe⟩
    rintro c c' ⟨h, -⟩
    cases h with
    | running => exact ⟨nofun, nofun⟩
    | halted => exact Iff.rfl
  · have hgrows : ∀ (addr : Nat → α) (code : List Instr) (c : Config σ α ε ν), effects <+: c.trace →
        effects <+: (M.step addr code c).trace := fun addr code c h => h.trans (trace_step c)
    refine hsim.exists_iterate_iff (hgrows addr code) (hgrows addr' code') ?_ ⟨hrelated, hsafe⟩
    rintro c c' ⟨h, -⟩
    rw [h.trace]

end Places

namespace SameRuns

theorem refl (M : Machine σ α ε ν) (addr : Nat → α) (code : List Instr) (s : σ) : SameRuns M addr addr code code s :=
  ⟨fun _ _ => Iff.rfl, fun _ => Iff.rfl⟩

theorem trans {addr'' code'' s} (h : SameRuns M addr addr' code code' s) (h' : SameRuns M addr' addr'' code' code'' s) :
    SameRuns M addr addr'' code code'' s :=
  ⟨fun o effects => (h.halts o effects).trans (h'.halts o effects),
    fun effects => (h.shows effects).trans (h'.shows effects)⟩

end SameRuns

end Step

end Execution

end ScriptBytecode
