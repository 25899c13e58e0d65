import Mathlib.Algebra.GroupWithZero.Nat
import ScriptBytecode.Proofs.Labels

/-!
# The stack size is the greatest depth

A path through finished code starts at the first instruction with an empty stack and ends where an instruction
takes more values than there are. Main statement: the stack size is the greatest depth on any path, and it is
found for every code. Where all paths come to an instruction at one depth, code with a stack size has no path
that ends so.
-/

namespace ScriptBytecode

variable {idx pos d n : Nat} {code : List Located} {here : Located} {added : List (Nat × Nat)}

/-- Control can come to an offset with a stack of some depth. -/
inductive Reaches (code : List Located) : Nat → Nat → Prop
  | start : Reaches code 0 0
  | next {here : Located} {d : Nat} (mem : here ∈ code) (reaches : Reaches code here.pos d)
      (passes : here.instr.isExit = false) :
      Reaches code (here.pos + here.instr.size) (here.instr.depthBehind d)
  | jump {here : Located} {d target : Nat} (mem : here ∈ code) (reaches : Reaches code here.pos d)
      (jumps : here.instr.target? = some target) :
      Reaches code target (here.instr.depthAtTarget d)

/-- Control comes to each offset at one depth only and finds as many values as the instruction there takes;
`n` is the greatest depth. -/
structure Measured (code : List Located) (n : Nat) : Prop where
  unique : ∀ {pos d d'}, Reaches code pos d → Reaches code pos d' → d = d'
  pops : ∀ here ∈ code, ∀ d, Reaches code here.pos d → here.instr.stackEffect.1 ≤ d
  le : ∀ {pos d}, Reaches code pos d → d ≤ n
  attained : ∃ pos, Reaches code pos n

/-- Control can come to an offset with a stack of some depth, and every instruction on the way finds the values
that it takes. -/
inductive Attains (code : List Located) : Nat → Nat → Prop
  | start : Attains code 0 0
  | next {here : Located} {d : Nat} (mem : here ∈ code) (attains : Attains code here.pos d)
      (pops : here.instr.stackEffect.1 ≤ d) (passes : here.instr.isExit = false) :
      Attains code (here.pos + here.instr.size) (here.instr.depthBehind d)
  | jump {here : Located} {d target : Nat} (mem : here ∈ code) (attains : Attains code here.pos d)
      (pops : here.instr.stackEffect.1 ≤ d) (jumps : here.instr.target? = some target) :
      Attains code target (here.instr.depthAtTarget d)

/-- An instruction is executed on some path. -/
structure Executes (code : List Located) (here : Located) (d : Nat) : Prop where
  mem : here ∈ code
  attains : Attains code here.pos d
  pops : here.instr.stackEffect.1 ≤ d

/-- Some path has this depth behind an instruction or brings it to the target of a jump. -/
inductive Delivers (code : List Located) : Nat → Prop
  | behind {here : Located} {d : Nat} (executes : Executes code here d) : Delivers code (here.instr.depthBehind d)
  | atTarget {here : Located} {d target : Nat} (executes : Executes code here d)
      (jumps : here.instr.target? = some target) : Delivers code (here.instr.depthAtTarget d)

theorem Attains.reaches (h : Attains code pos d) : Reaches code pos d := by
  induction h with
  | start => exact .start
  | next mem _ _ passes ih => exact .next mem ih passes
  | jump mem _ _ jumps ih => exact .jump mem ih jumps

theorem Attains.delivers (h : Attains code pos d) (hd : 0 < d) : Delivers code d := by
  cases h with
  | start => cases hd
  | next mem attains pops => exact .behind ⟨mem, attains, pops⟩
  | jump mem attains pops jumps => exact .atTarget ⟨mem, attains, pops⟩ jumps

theorem Instr.depthBehind_mono (i : Instr) {d d' : Nat} (h : d ≤ d') : i.depthBehind d ≤ i.depthBehind d' := by
  unfold depthBehind
  omega

theorem Instr.depthAtTarget_mono (i : Instr) {d d' : Nat} (h : d ≤ d') : i.depthAtTarget d ≤ i.depthAtTarget d' := by
  have hbehind := i.depthBehind_mono h
  unfold depthAtTarget StackSize.atTarget
  split
  · split <;> omega
  · exact hbehind

namespace StackSize

/-! ## Indices and offsets -/

/-- The offset of an instruction, given its index; all indices behind the last one have the offset of the
end. -/
def posAt (code : List Located) (idx : Nat) : Nat :=
  (code[idx]?.map (·.pos)).getD (endFrom 0 code)

theorem posAt_of_getElem? (h : code[idx]? = some here) : posAt code idx = here.pos := by
  rw [posAt, h]
  rfl

theorem getD_succ_of_finished {pos} (hcode : Finished pos code) (h : code[idx]? = some here) :
    (code[idx + 1]?.map (·.pos)).getD (endFrom pos code) = here.pos + here.instr.size := by
  induction code generalizing pos idx with
  | nil => cases h
  | cons first rest ih =>
    obtain ⟨rfl, -, hrest⟩ := hcode
    cases idx with
    | zero =>
      cases h
      cases rest with
      | nil => rfl
      | cons second rest => exact hrest.1
    | succ idx => exact ih hrest h

theorem posAt_succ (hcode : Finished 0 code) (h : code[idx]? = some here) :
    posAt code (idx + 1) = here.pos + here.instr.size :=
  getD_succ_of_finished hcode h

theorem posAt_zero (hcode : Finished 0 code) : posAt code 0 = 0 := by
  cases code with
  | nil => rfl
  | cons here rest => exact hcode.1

/-- Instructions stand at different offsets. -/
theorem eq_of_pos {idx' here'} (hcode : Finished 0 code) (h : code[idx]? = some here) (h' : code[idx']? = some here')
    (hpos : here.pos = here'.pos) : idx = idx' := by
  have hnodup := (List.nodup_append.mp (Labels.nodup_positions hcode)).1
  have hlt : idx < (code.map (·.pos)).length := by
    rw [List.length_map]
    exact (List.getElem?_eq_some_iff.mp h).1
  refine (List.getElem?_inj hlt hnodup).mp ?_
  rw [List.getElem?_map, List.getElem?_map, h, h', Option.map_some, Option.map_some, hpos]

/-! ## One step -/

/-- The instructions that control may come to behind an instruction, with the depths there. -/
inductive Leads (code : List Located) (idx : Nat) (here : Located) (d : Nat) : List (Nat × Nat) → Prop
  | stop (exits : here.instr.isExit = true) (stays : here.instr.target? = none) : Leads code idx here d []
  | next (passes : here.instr.isExit = false) (stays : here.instr.target? = none) :
      Leads code idx here d [(idx + 1, here.instr.depthBehind d)]
  | jump {there : Located} {idx' : Nat} (exits : here.instr.isExit = true)
      (jumps : here.instr.target? = some there.pos) (at_ : code[idx']? = some there) :
      Leads code idx here d [(idx', here.instr.depthAtTarget d)]
  | branch {there : Located} {idx' : Nat} (passes : here.instr.isExit = false)
      (jumps : here.instr.target? = some there.pos) (at_ : code[idx']? = some there) :
      Leads code idx here d [(idx + 1, here.instr.depthBehind d), (idx', here.instr.depthAtTarget d)]

/-- The greatest of some depths. -/
def topOf (top : Nat) (work : List (Nat × Nat)) : Nat :=
  work.foldl (fun top entry => max top entry.2) top

theorem getElem?_of_findIdx? {target} (h : code.toArray.findIdx? (·.pos == target) = some idx) :
    ∃ there, code[idx]? = some there ∧ there.pos = target := by
  rw [List.findIdx?_toArray] at h
  obtain ⟨hlt, hpos, -⟩ := List.findIdx?_eq_some_iff_getElem.mp h
  exact ⟨_, List.getElem?_eq_getElem hlt, by simpa using hpos⟩

/-! ## The invariant -/

section

variable {work : List (Nat × Nat)} {seen : Array (Option Nat)} {top : Nat}

/-- An instruction waits to be followed at some depth, or was followed at it. -/
def Noted (work : List (Nat × Nat)) (seen : Array (Option Nat)) (idx d : Nat) : Prop :=
  (idx, d) ∈ work ∨ seen[idx]?.join = some d

/-- A depth at an index that has been taken into account, if only by a greater one. -/
structure Covered (code : List Located) (work : List (Nat × Nat)) (seen : Array (Option Nat)) (top idx d : Nat) :
    Prop where
  le : d ≤ top
  noted : idx < code.length → ∃ d', d ≤ d' ∧ Noted work seen idx d'

/-- An instruction was followed, and what it leads to is taken into account. -/
structure Settled (code : List Located) (work : List (Nat × Nat)) (seen : Array (Option Nat)) (top idx : Nat)
    (here : Located) (d : Nat) : Prop where
  pops : here.instr.stackEffect.1 ≤ d
  small : d ≤ limit ∧ here.instr.depthBehind d ≤ limit
  leads : ∃ added, Leads code idx here d added ∧ ∀ entry ∈ added, Covered code work seen top entry.1 entry.2

/-- All that is noted is on some path, and what follows an instruction that was followed is taken into account. -/
structure Invariant (code : List Located) (work : List (Nat × Nat)) (seen : Array (Option Nat)) (top : Nat) :
    Prop where
  size : seen.size = code.length
  attains : ∀ {idx d : Nat}, Noted work seen idx d → Attains code (posAt code idx) d ∧ d ≤ top
  start : Covered code work seen top 0 0
  settled : ∀ {idx d : Nat} {here : Located}, seen[idx]?.join = some d → code[idx]? = some here →
    Settled code work seen top idx here d
  attained : ∃ pos, Attains code pos top

section

variable {work' : List (Nat × Nat)} {seen' : Array (Option Nat)} {top' : Nat}

theorem Covered.mono (h : Covered code work seen top idx d) (htop : top ≤ top')
    (hnoted : ∀ {d}, idx < code.length → Noted work seen idx d → ∃ d', d ≤ d' ∧ Noted work' seen' idx d') :
    Covered code work' seen' top' idx d := by
  refine ⟨h.le.trans htop, fun hlt => ?_⟩
  obtain ⟨d', hle, hd'⟩ := h.noted hlt
  obtain ⟨d'', hle', hd''⟩ := hnoted hlt hd'
  exact ⟨d'', hle.trans hle', hd''⟩

theorem Settled.mono (h : Settled code work seen top idx here d) (htop : top ≤ top')
    (hnoted : ∀ {idx d}, idx < code.length → Noted work seen idx d → ∃ d', d ≤ d' ∧ Noted work' seen' idx d') :
    Settled code work' seen' top' idx here d := by
  obtain ⟨added, hleads, hcovered⟩ := h.leads
  exact ⟨h.pops, h.small, added, hleads, fun entry hentry => (hcovered entry hentry).mono htop hnoted⟩

end

/-- An entry may be passed over if there is no such instruction, or it was followed at this depth. -/
theorem Invariant.skip (h : Invariant code ((idx, d) :: work) seen top)
    (hskip : code[idx]? = none ∨ ∃ d', seen[idx]?.join = some d' ∧ d ≤ d') : Invariant code work seen top := by
  have hnoted : ∀ {idx' d'}, idx' < code.length → Noted ((idx, d) :: work) seen idx' d' →
      ∃ d'', d' ≤ d'' ∧ Noted work seen idx' d'' := by
    intro idx' d' hlt hnoted
    rcases hnoted with hmem | hseen
    · rcases List.mem_cons.mp hmem with heq | hmem
      · cases heq
        rcases hskip with hnone | ⟨e, hseen, hle⟩
        · exact absurd hlt (Nat.not_lt.mpr (List.getElem?_eq_none_iff.mp hnone))
        · exact ⟨e, hle, .inr hseen⟩
      · exact ⟨d', le_rfl, .inl hmem⟩
    · exact ⟨d', le_rfl, .inr hseen⟩
  exact ⟨h.size, fun hnoted => h.attains (hnoted.imp_left (List.mem_cons_of_mem _)),
    h.start.mono le_rfl hnoted, fun hseen hhere => (h.settled hseen hhere).mono le_rfl hnoted,
    h.attained⟩

theorem le_topOf {added} : top ≤ topOf top added ∧ ∀ entry ∈ added, entry.2 ≤ topOf top added := by
  induction added generalizing top with
  | nil => exact ⟨le_rfl, nofun⟩
  | cons first added ih =>
    obtain ⟨hle, hall⟩ := @ih (max top first.2)
    rw [topOf, List.foldl_cons, ← topOf, List.forall_mem_cons]
    exact ⟨(Nat.le_max_left _ _).trans hle, (Nat.le_max_right _ _).trans hle, hall⟩

theorem topOf_cases {added} : topOf top added = top ∨ ∃ entry ∈ added, topOf top added = entry.2 := by
  induction added generalizing top with
  | nil => exact .inl rfl
  | cons first added ih =>
    rw [topOf, List.foldl_cons, ← topOf]
    rcases @ih (max top first.2) with heq | ⟨entry, hentry, heq⟩
    · rw [heq]
      rcases Nat.le_total top first.2 with hle | hle
      · exact .inr ⟨first, List.mem_cons_self, by omega⟩
      · exact .inl (by omega)
    · exact .inr ⟨entry, List.mem_cons_of_mem _ hentry, heq⟩

/-- An instruction that does not pass control on puts nothing on the stack. -/
theorem depthBehind_le_of_isExit {i : Instr} (h : i.isExit) (d : Nat) : i.depthBehind d ≤ d := by
  obtain ⟨op, arg⟩ := i
  cases op with
  | pseudo op => cases h
  | final op =>
    have hpushes : (Instr.stackEffect ⟨.final op, arg⟩).2 = 0 := by
      revert h
      cases op <;> first | exact fun _ => rfl | exact nofun
    rw [Instr.depthBehind, hpushes]
    omega

/-- What an instruction leads to is on a path. -/
theorem Leads.attains (hcode : Finished 0 code) (hhere : code[idx]? = some here) (hruns : Executes code here d)
    (h : Leads code idx here d added) : ∀ entry ∈ added, Attains code (posAt code entry.1) entry.2 := by
  have hnext : here.instr.isExit = false → Attains code (posAt code (idx + 1)) (here.instr.depthBehind d) := by
    intro hpasses
    rw [posAt_succ hcode hhere]
    exact .next hruns.mem hruns.attains hruns.pops hpasses
  have hjump : ∀ {there idx'}, here.instr.target? = some there.pos → code[idx']? = some there →
      Attains code (posAt code idx') (here.instr.depthAtTarget d) := by
    intro there idx' hjumps hthere
    rw [posAt_of_getElem? hthere]
    exact .jump hruns.mem hruns.attains hruns.pops hjumps
  cases h with
  | stop => exact nofun
  | next passes stays => simpa using hnext passes
  | jump exits jumps hthere => simpa using hjump jumps hthere
  | branch passes jumps hthere => simpa using ⟨hnext passes, hjump jumps hthere⟩

/-- The entry at the front of the work list is executed. -/
theorem Invariant.executes (h : Invariant code ((idx, d) :: work) seen top) (hhere : code[idx]? = some here)
    (hpops : here.instr.stackEffect.1 ≤ d) : Executes code here d :=
  ⟨List.mem_of_getElem? hhere, posAt_of_getElem? hhere ▸ (h.attains (.inl List.mem_cons_self)).1, hpops⟩

/-- The greatest depth so far, with that behind an instruction that is executed, is on a path. -/
theorem Invariant.attained_max (h : Invariant code ((idx, d) :: work) seen top) (hruns : Executes code here d) :
    ∃ pos, Attains code pos (max top (here.instr.depthBehind d)) := by
  have hle := (h.attains (.inl List.mem_cons_self)).2
  by_cases hbehind : here.instr.depthBehind d ≤ top
  · rw [Nat.max_eq_left hbehind]
    exact h.attained
  · have hpasses : here.instr.isExit = false := by
      by_contra hexit
      have := depthBehind_le_of_isExit (Bool.not_eq_false _ ▸ hexit) d
      omega
    rw [Nat.max_eq_right (by omega)]
    exact ⟨_, .next hruns.mem hruns.attains hruns.pops hpasses⟩

variable (hcode : Finished 0 code)
include hcode

/-- An instruction that is followed. -/
theorem Invariant.follow (h : Invariant code ((idx, d) :: work) seen top)
    (hhere : code[idx]? = some here) (hnew : ∀ d', seen[idx]?.join = some d' → d' < d)
    (hpops : here.instr.stackEffect.1 ≤ d) (hlimit : max top (here.instr.depthBehind d) ≤ limit)
    (hleads : Leads code idx here d added) :
    Invariant code (added ++ work) (seen.setIfInBounds idx (some d))
      (topOf (max top (here.instr.depthBehind d)) added) := by
  have hlt : idx < seen.size := h.size ▸ (List.getElem?_eq_some_iff.mp hhere).1
  have hle := (h.attains (.inl List.mem_cons_self)).2
  have hruns := h.executes hhere hpops
  have hadded := hleads.attains hcode hhere hruns
  obtain ⟨htop, hentries⟩ := @le_topOf (max top (here.instr.depthBehind d)) added
  have hseen : ∀ {idx' d'}, (seen.setIfInBounds idx (some d))[idx']?.join = some d' ↔
      (idx' = idx ∧ d' = d) ∨ (idx' ≠ idx ∧ seen[idx']?.join = some d') := by
    intro idx' d'
    rw [Array.getElem?_setIfInBounds]
    by_cases heq : idx = idx'
    · subst heq
      simp [hlt, eq_comm]
    · simp [heq, Ne.symm heq]
  have hnoted : ∀ {idx' d'}, idx' < code.length → Noted ((idx, d) :: work) seen idx' d' →
      ∃ d'', d' ≤ d'' ∧ Noted (added ++ work) (seen.setIfInBounds idx (some d)) idx' d'' := by
    intro idx' d' _ hold
    rcases hold with hmem | hold
    · rcases List.mem_cons.mp hmem with heq | hmem
      · cases heq
        exact ⟨d, le_rfl, .inr (hseen.mpr (.inl ⟨rfl, rfl⟩))⟩
      · exact ⟨d', le_rfl, .inl (List.mem_append_right _ hmem)⟩
    · by_cases heq : idx' = idx
      · subst heq
        exact ⟨d, (hnew d' hold).le, .inr (hseen.mpr (.inl ⟨rfl, rfl⟩))⟩
      · exact ⟨d', le_rfl, .inr (hseen.mpr (.inr ⟨heq, hold⟩))⟩
  have hmono : top ≤ topOf (max top (here.instr.depthBehind d)) added := by omega
  constructor
  case size => rw [Array.size_setIfInBounds, h.size]
  case attains =>
    intro idx' d' hnoted'
    have hold : Noted ((idx, d) :: work) seen idx' d' → Attains code (posAt code idx') d' ∧
        d' ≤ topOf (max top (here.instr.depthBehind d)) added := by
      intro hold
      obtain ⟨hattains, hle'⟩ := h.attains hold
      exact ⟨hattains, hle'.trans hmono⟩
    rcases hnoted' with hmem | hnoted'
    · rcases List.mem_append.mp hmem with hmem | hmem
      · exact ⟨hadded _ hmem, hentries _ hmem⟩
      · exact hold (.inl (List.mem_cons_of_mem _ hmem))
    · rcases hseen.mp hnoted' with ⟨rfl, rfl⟩ | ⟨-, hnoted'⟩
      · exact hold (.inl List.mem_cons_self)
      · exact hold (.inr hnoted')
  case start => exact h.start.mono hmono hnoted
  case settled =>
    intro idx' d' here' hnoted' hhere'
    rcases hseen.mp hnoted' with ⟨rfl, rfl⟩ | ⟨-, hnoted'⟩
    · cases hhere.symm.trans hhere'
      exact ⟨hpops, by omega, added, hleads, fun entry hentry => ⟨hentries entry hentry,
        fun _ => ⟨_, le_rfl, .inl (List.mem_append_left _ hentry)⟩⟩⟩
    · exact (h.settled hnoted' hhere').mono hmono hnoted
  case attained =>
    rcases @topOf_cases (max top (here.instr.depthBehind d)) added with heq | ⟨entry, hentry, heq⟩
    · rw [heq]
      exact h.attained_max hruns
    · rw [heq]
      exact ⟨_, hadded entry hentry⟩

/-! ## The end of a run -/

/-- When no work is left, every depth on a path is covered by that of an instruction that was followed. -/
theorem Invariant.bounds (h : Invariant code [] seen top) (hd : Attains code pos d) :
    d ≤ top ∧ d ≤ limit ∧ ∀ (idx : Nat) (here : Located), code[idx]? = some here → here.pos = pos →
      ∃ d', d ≤ d' ∧ seen[idx]?.join = some d' := by
  have hcovered : ∀ {idx d}, Covered code [] seen top idx d → ∀ (idx' : Nat) (here : Located),
      code[idx']? = some here → here.pos = posAt code idx → ∃ d', d ≤ d' ∧ seen[idx']?.join = some d' := by
    intro idx d hcov idx' here hhere hpos
    cases hidx : code[idx]? with
    | some there =>
      rw [posAt_of_getElem? hidx] at hpos
      obtain rfl := eq_of_pos hcode hhere hidx hpos
      obtain ⟨d', hle, hmem | hseen⟩ := hcov.noted (List.getElem?_eq_some_iff.mp hidx).1
      · cases hmem
      · exact ⟨d', hle, hseen⟩
    | none =>
      -- no instruction stands at the end of the code
      rw [posAt, hidx] at hpos
      have hne := (List.nodup_append.mp (Labels.nodup_positions hcode)).2.2 here.pos
        (List.mem_map_of_mem (List.mem_of_getElem? hhere)) _ List.mem_cons_self
      exact absurd hpos hne
  induction hd with
  | start => exact ⟨h.start.le, Nat.zero_le _, by simpa only [posAt_zero hcode] using hcovered h.start⟩
  | @next here d hmem _ _ hpasses ih =>
    obtain ⟨idx, hhere⟩ := List.mem_iff_getElem?.mp hmem
    obtain ⟨d', hle, hseen⟩ := ih.2.2 idx here hhere rfl
    obtain ⟨-, hsmall, added, hleads, hadded⟩ := h.settled hseen hhere
    have hnext : (idx + 1, here.instr.depthBehind d') ∈ added := by
      cases hleads with
      | stop exits | jump exits => cases hpasses.symm.trans exits
      | next | branch => exact List.mem_cons_self
    have hbehind := here.instr.depthBehind_mono hle
    refine ⟨hbehind.trans (hadded _ hnext).le, hbehind.trans hsmall.2, fun idx' there hthere hpos => ?_⟩
    obtain ⟨d'', hle', hseen'⟩ := hcovered (hadded _ hnext) idx' there hthere (posAt_succ hcode hhere ▸ hpos)
    exact ⟨d'', hbehind.trans hle', hseen'⟩
  | @jump here d target hmem _ _ hjumps ih =>
    obtain ⟨idx, hhere⟩ := List.mem_iff_getElem?.mp hmem
    obtain ⟨d', hle, hseen⟩ := ih.2.2 idx here hhere rfl
    obtain ⟨-, -, added, hleads, hadded⟩ := h.settled hseen hhere
    obtain ⟨idx', there, htarget, hthere, hjump⟩ : ∃ idx' there, here.instr.target? = some there.pos ∧
        code[idx']? = some there ∧ (idx', here.instr.depthAtTarget d') ∈ added := by
      cases hleads with
      | stop _ stays | next _ stays => cases hjumps.symm.trans stays
      | jump _ jumps hthere => exact ⟨_, _, jumps, hthere, List.mem_cons_self⟩
      | branch _ jumps hthere => exact ⟨_, _, jumps, hthere, List.mem_cons_of_mem _ List.mem_cons_self⟩
    cases hjumps.symm.trans htarget
    have hat := here.instr.depthAtTarget_mono hle
    have hfound : ∀ (idx : Nat) (here' : Located), code[idx]? = some here' → here'.pos = there.pos →
        ∃ d'', here.instr.depthAtTarget d ≤ d'' ∧ seen[idx]?.join = some d'' := by
      intro idx here' hhere' hpos
      obtain ⟨d'', hle', hseen'⟩ := hcovered (hadded _ hjump) idx here' hhere' (posAt_of_getElem? hthere ▸ hpos)
      exact ⟨d'', hat.trans hle', hseen'⟩
    obtain ⟨d'', hle', hseen'⟩ := hfound idx' there hthere rfl
    exact ⟨hat.trans (hadded _ hjump).le, hle'.trans (h.settled hseen' hthere).small.1, hfound⟩

/-- What an answer tells about the paths of code. -/
inductive Answers (code : List Located) : Result Nat → Prop
  | size {seen : Array (Option Nat)} {n : Nat} (invariant : Invariant code [] seen n) : Answers code (.ok n)
  | lacks {here : Located} {d : Nat} (mem : here ∈ code) (attains : Attains code here.pos d)
      (lacks : d < here.instr.stackEffect.1) : Answers code
        (.error (.internal (.stackUnderflow here.pos here.instr.op.name here.instr.stackEffect.1 d)))
  | tooLarge {d : Nat} (delivers : Delivers code d) (large : limit < d) :
      Answers code (.error (.internal .stackTooLarge))
  | lost {here : Located} {d target : Nat} (executes : Executes code here d)
      (jumps : here.instr.target? = some target) (nowhere : ∀ there ∈ code, there.pos ≠ target) :
      Answers code (.error (.internal (.jumpInsideInstr here.pos)))

/-- By how much the depths at which instructions were followed may still grow. -/
def room (seen : List (Option Nat)) : Nat :=
  (seen.map fun | none => limit + 1 | some d => limit - d).sum

omit hcode in
theorem room_set {seen : List (Option Nat)} (hlt : idx < seen.length) (hnew : ∀ d', seen[idx]?.join = some d' → d' < d)
    (hd : d ≤ limit) : room (seen.set idx (some d)) < room seen := by
  induction seen generalizing idx with
  | nil => cases hlt
  | cons first rest ih =>
    cases idx with
    | zero =>
      simp only [room, List.set_cons_zero, List.map_cons, List.sum_cons]
      cases first with
      | none => dsimp only; omega
      | some d' =>
        have := hnew d' rfl
        dsimp only
        omega
    | succ idx =>
      have := ih (Nat.lt_of_succ_lt_succ hlt) hnew
      simp only [room, List.set_cons_succ, List.map_cons, List.sum_cons] at this ⊢
      omega

/-- An instruction that was not followed at this depth or a greater one is followed, unless that gives an answer. -/
theorem Invariant.unseen (h : Invariant code ((idx, d) :: work) seen top)
    (hhere : code[idx]? = some here) (hseen : seen[idx]?.join.any (d ≤ ·) = false) :
    (∃ added, added.length ≤ 2 ∧ d ≤ limit ∧ ∃ top',
      Invariant code (added ++ work) (seen.setIfInBounds idx (some d)) top' ∧
      ∀ fuel, StackSize.follow code.toArray (fuel + 1) ((idx, d) :: work) seen top =
        StackSize.follow code.toArray fuel (added ++ work) (seen.setIfInBounds idx (some d)) top') ∨
    ∃ answer, Answers code answer ∧
      ∀ fuel, StackSize.follow code.toArray (fuel + 1) ((idx, d) :: work) seen top = answer := by
  have hmem := List.mem_of_getElem? hhere
  obtain ⟨op, hop⟩ := Option.isSome_iff_exists.mp (hcode.opcode? here hmem)
  have hexit : op.isTerminator = here.instr.isExit := by rw [Instr.isExit, hop, Option.any_some]
  have hatTarget : atTarget op (here.instr.depthBehind d) = here.instr.depthAtTarget d := by
    rw [Instr.depthAtTarget, hop]
  obtain ⟨hattains, hle⟩ := h.attains (.inl List.mem_cons_self)
  simp only [StackSize.follow, List.getElem?_toArray, hhere, hseen, Bool.false_eq_true, if_false, hop, hexit,
    ← Instr.depthBehind.eq_1, hatTarget]
  by_cases hpops : d < here.instr.stackEffect.1
  · exact .inr ⟨_, .lacks hmem (posAt_of_getElem? hhere ▸ hattains) hpops, fun _ => by simp [hpops]⟩
  have hruns := h.executes hhere (Nat.not_lt.mp hpops)
  by_cases hlimit : limit < max top (here.instr.depthBehind d)
  · obtain ⟨pos, hmax⟩ := h.attained_max hruns
    exact .inr ⟨_, .tooLarge (hmax.delivers (by omega)) hlimit, fun _ => by simp [hpops, hlimit]⟩
  have hnew : ∀ d', seen[idx]?.join = some d' → d' < d := fun d' hd' => by simpa [hd'] using hseen
  have hfollow : ∀ {added}, Leads code idx here d added → _ := fun hleads =>
    h.follow hcode hhere hnew hruns.pops (Nat.not_lt.mp hlimit) hleads
  simp only [hpops, hlimit, if_false]
  cases htarget : here.instr.target? with
  | none =>
    cases he : here.instr.isExit with
    | true => exact .inl ⟨[], by simp, by omega, _, hfollow (.stop he htarget), fun _ => rfl⟩
    | false => exact .inl ⟨_, by simp, by omega, _, hfollow (.next he htarget), fun _ => by simp [topOf]⟩
  | some target =>
    cases hidx : code.toArray.findIdx? (·.pos == target) with
    | none =>
      refine .inr ⟨_, .lost hruns htarget fun there hthere hpos => ?_, fun _ => by simp only [hidx]⟩
      rw [List.findIdx?_toArray, List.findIdx?_eq_none_iff] at hidx
      simpa [hpos] using hidx there hthere
    | some idx' =>
      obtain ⟨there, hthere, rfl⟩ := getElem?_of_findIdx? hidx
      simp only [hidx]
      cases he : here.instr.isExit with
      | true => exact .inl ⟨_, by simp, by omega, _, hfollow (.jump he htarget hthere), fun _ => rfl⟩
      | false =>
        exact .inl ⟨_, by simp, by omega, _, hfollow (.branch he htarget hthere), fun _ => by simp [topOf]⟩

/-- With this much fuel a run comes to its answer, which more fuel does not change. -/
theorem answers_follow {fuel} (h : Invariant code work seen top) (hfuel : work.length + 2 * room seen.toList < fuel) :
    ∃ answer, Answers code answer ∧ ∀ more, follow code.toArray (fuel + more) work seen top = answer := by
  induction fuel generalizing work seen top with
  | zero => omega
  | succ fuel ih =>
    have hsucc : ∀ more, fuel + 1 + more = fuel + more + 1 := fun more => Nat.add_right_comm ..
    simp only [hsucc]
    cases work with
    | nil => exact ⟨_, .size h, fun _ => rfl⟩
    | cons entry work =>
      obtain ⟨idx, d⟩ := entry
      rw [List.length_cons] at hfuel
      -- an entry is passed over if there is no such instruction or it was followed at this depth
      cases hhere : code[idx]? with
      | none =>
        have hrun : ∀ more, follow code.toArray (fuel + more + 1) ((idx, d) :: work) seen top = _ :=
          fun more => by rw [follow, List.getElem?_toArray, hhere]
        simp only [hrun]
        exact ih (h.skip (.inl hhere)) (by omega)
      | some here =>
        cases hseen : seen[idx]?.join.any (d ≤ ·) with
        | true =>
          obtain ⟨hsome, hle⟩ := (Option.any_eq_true_iff_get ..).mp hseen
          have hskip : ∃ d', seen[idx]?.join = some d' ∧ d ≤ d' :=
            ⟨_, (Option.some_get hsome).symm, by simpa using hle⟩
          simp only [follow, List.getElem?_toArray, hhere, hseen, if_true]
          exact ih (h.skip (.inr hskip)) (by omega)
        | false =>
          rcases h.unseen hcode hhere hseen with ⟨added, hlength, hd, top', h', hrun⟩ | ⟨answer, hanswer, hrun⟩
          · simp only [hrun]
            refine ih h' ?_
            have hlt : idx < seen.toList.length := by
              rw [Array.length_toList, h.size]
              exact (List.getElem?_eq_some_iff.mp hhere).1
            have hroom := room_set hlt (fun d' hd' => by simpa [Array.getElem?_toList ▸ hd'] using hseen) hd
            rw [List.length_append, Array.toList_setIfInBounds]
            omega
          · exact ⟨answer, hanswer, fun more => hrun _⟩

theorem invariant_start : Invariant code [(0, 0)] (Array.replicate code.length none) 0 := by
  have hnone : ∀ {idx : Nat}, (Array.replicate code.length (none : Option Nat))[idx]?.join = none := by
    intro idx
    rw [Array.getElem?_replicate]
    split <;> rfl
  refine ⟨Array.size_replicate, ?_, ⟨le_rfl, fun _ => ⟨0, le_rfl, .inl List.mem_cons_self⟩⟩, ?_, 0,
    .start⟩
  · intro idx d hnoted
    rcases hnoted with hmem | hseen
    · cases List.mem_singleton.mp hmem
      rw [posAt_zero hcode]
      exact ⟨.start, le_rfl⟩
    · cases hnone.symm.trans hseen
  · intro idx d here hseen
    cases hnone.symm.trans hseen

end

end StackSize

/-- The stack size is the answer of a run, which more fuel does not change. -/
theorem answers_stackSize {bytes} (hread : decodeFinal bytes = .ok code) :
    StackSize.Answers code (stackSize bytes) ∧ ∀ fuel, 2 * 65540 * code.length + 2 ≤ fuel →
      StackSize.follow code.toArray fuel [(0, 0)] (Array.replicate code.length none) 0 = stackSize bytes := by
  have hcode := finished_of_decode hread
  have hroom : StackSize.room (Array.replicate code.length none).toList = code.length * (StackSize.limit + 1) := by
    simp [StackSize.room]
  have hfuel : [(0, 0)].length + 2 * StackSize.room (Array.replicate code.length none).toList <
      2 * 65540 * code.length + 2 := by
    rw [hroom, StackSize.limit, List.length_singleton]
    omega
  obtain ⟨answer, hanswer, hrun⟩ := StackSize.answers_follow hcode (StackSize.invariant_start hcode) hfuel
  have hsize : stackSize bytes = answer := by
    rw [stackSize, hread]
    exact hrun 0
  refine ⟨hsize ▸ hanswer, fun fuel hfuel => ?_⟩
  obtain ⟨more, rfl⟩ := Nat.exists_eq_add_of_le hfuel
  exact (hrun more).trans hsize.symm

/-! ## What sizes and errors tell -/

namespace StackSize.Invariant

variable {seen : Array (Option Nat)}

variable (hcode : Finished 0 code)
include hcode

end StackSize.Invariant

/-- Where offsets have depths, the stack size is the greatest depth. -/
theorem measured_stackSize {bytes D} (hread : decodeFinal bytes = .ok code) (hD : DepthsAt D code)
    (h : stackSize bytes = .ok n) : Measured code n := by
  have hcode := finished_of_decode hread
  have hanswer := (answers_stackSize hread).1
  rw [h] at hanswer
  cases hanswer with
  | size hinvariant =>
    have hall : ∀ {pos d}, Reaches code pos d → Attains code pos d ∧ D pos = some d := by
      intro pos d hreaches
      induction hreaches with
      | start => exact ⟨.start, hD.start⟩
      | @next here d hmem _ hpasses ih =>
        have hrespects := hD.steps here hmem d ih.2
        exact ⟨.next hmem ih.1 hrespects.pops hpasses,
          hrespects.next hpasses fun _ => (hinvariant.bounds hcode ih.1).2.1⟩
      | @jump here d target hmem _ hjumps ih =>
        have hrespects := hD.steps here hmem d ih.2
        exact ⟨.jump hmem ih.1 hrespects.pops hjumps, hrespects.target _ hjumps⟩
    refine ⟨fun hd hd' => ?_, fun here hhere d hd => ?_, fun hd => (hinvariant.bounds hcode (hall hd).1).1, ?_⟩
    · exact Option.some.inj ((hall hd).2.symm.trans (hall hd').2)
    · exact (hD.steps here hhere d (hall hd).2).pops
    · obtain ⟨pos, hn⟩ := hinvariant.attained
      exact ⟨pos, hn.reaches⟩

end ScriptBytecode
