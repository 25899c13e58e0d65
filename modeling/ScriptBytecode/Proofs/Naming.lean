import ScriptBytecode.Proofs.Depths
import ScriptBytecode.Proofs.Naming.Steps

/-!
# Resolved names and depths

The code that a placeholder stands for does to the stack what the placeholder says. So a function keeps its
depths when its names are resolved; labels that this adds get depths of their own.
-/

namespace ScriptBytecode

open Flow

variable {depths : List (Option Nat)} {k : Nat}

variable {op : Pseudo} {code : List Instr} {scope : Nat} {name : Atom} {arg : Operand} {cur : Option Nat}

/-! ## Accesses -/

theorem Binding.adds_get (b : Binding) (checked : Bool) : Adds depths k [b.get checked] (k + 1) := by
  unfold Binding.get
  dsimp only
  split
  · split <;> exact adds_plain 0 1 _ rfl
  · exact adds_plain 0 1 _ rfl
  · split <;> exact adds_plain 0 1 _ rfl

theorem Binding.adds_put (b : Binding) (name : Atom) (strict : Bool) : Adds depths (k + 1) [b.put name strict] k := by
  unfold Binding.put
  split
  · exact adds_plain 1 0 _ rfl
  · split
    · exact adds_last 0 _ rfl k
    · split
      · split <;> exact adds_plain 1 0 _ rfl
      · exact adds_plain 1 0 _ rfl
      · split <;> exact adds_plain 1 0 _ rfl

theorem Binding.adds_init (b : Binding) (name : Atom) : Adds depths (k + 1) [b.init name] k := by
  unfold Binding.init
  dsimp only
  split
  · split <;> exact adds_plain 1 0 _ rfl
  · exact adds_plain 1 0 _ rfl
  · split <;> exact adds_plain 1 0 _ rfl

theorem Binding.adds_ref (b : Binding) (name : Atom) : Adds depths k [b.ref name] (k + 2) := by
  unfold Binding.ref
  split <;> exact adds_plain 0 2 _ rfl

theorem adds_accessBinding (h : op.isVariable) (name : Atom) (strict : Bool) (found : Option Binding) :
    Adds depths (k + op.info.pops) (accessBinding op name strict found) (k + op.info.pushes) := by
  cases op <;> cases h
  case getVarUndef | getVar | getThis =>
    cases found with
    | none => exact adds_plain 0 1 _ rfl
    | some b => exact b.adds_get true
  case putVar =>
    cases found with
    | none => exact adds_plain 1 0 _ rfl
    | some b => exact b.adds_put name strict
  case putVarInit =>
    cases found with
    | none => exact adds_plain 1 0 _ rfl
    | some b => exact b.adds_init name
  case deleteVar =>
    cases found with
    | none => exact adds_plain 0 1 _ rfl
    | some b => exact adds_plain 0 1 _ rfl
  case makeRef =>
    cases found with
    | none => exact adds_plain 0 2 _ rfl
    | some b => exact b.adds_ref name
  case getRef =>
    have hundefined : Adds depths k [.plain .undefined] (k + 1) := adds_plain 0 1 _ rfl
    cases found with
    | none => exact hundefined.append (adds_plain 0 1 _ rfl)
    | some b => exact hundefined.append (b.adds_get true)

/-- A `with` statement's object either has the name, and control goes on behind the access, or is dropped. -/
theorem adds_tryWith (h : op.isVariable) (name : Atom) {done} (object : Binding)
    (hdone : depths[done]? = some (some (k + op.info.pushes))) :
    Adds depths (k + op.info.pops) (tryWith op name done object) (k + op.info.pops) := by
  refine .append (a := [object.get false]) (object.adds_get false) ?_
  cases op <;> cases h
  all_goals
    refine adds_put ⟨fun _ => rfl, nofun, nofun⟩ rfl ?_ ?_ fun _ _ => rfl
    · exact Nat.le_add_left _ k
    · intro l hl
      cases hl
      exact hdone

/-- Pieces that leave the depth as it is. -/
theorem adds_flatMap {α : Type} {f : α → List Instr} {xs : List α} (h : ∀ x ∈ xs, Adds depths k (f x) k) :
    Adds depths k (xs.flatMap f) k := by
  induction xs with
  | nil => exact adds_nil depths k
  | cons x xs ih =>
    rw [List.forall_mem_cons] at h
    exact h.1.append (ih h.2)

variable {b : Binding}

namespace Naming

theorem adds_testPrivate {brand} (h : testPrivate b brand = some code) : Adds depths (k + 1) code (k + 1) := by
  have hin : ∀ b : Binding, Adds depths (k + 1) [b.get false, .plain .privateIn] (k + 1) := fun b =>
    (b.adds_get false).append (adds_plain 2 1 _ rfl)
  unfold testPrivate at h
  split at h
  · cases h
    exact hin b
  · obtain ⟨brand, -, rfl⟩ := Option.map_eq_some_iff.mp h
    exact hin brand

theorem adds_callMethod (n : Nat) (hn : n < 0x10000) : Adds depths (k + 2 + n) [callMethod n] (k + 1) := by
  have h : Adds depths (k + 2 + n) [.of .callMethod (.int (n % 0x10000 : Nat))] (k + 1) :=
    adds_call 2 1 n rfl
  rwa [Nat.mod_eq_of_lt hn] at h

theorem adds_getPrivate {keep} (h : getPrivate b keep = some code) : Adds depths (k + 1) code (k + 1 + keep.toNat) := by
  -- the object stays below its copy
  have hdup : Adds depths (k + 1) (if keep then [.plain .dup] else []) (k + keep.toNat + 1) := by
    cases keep with
    | true => exact adds_plain 1 2 _ rfl
    | false => exact adds_nil _ _
  have hbrand : ∀ k, Adds depths (k + 1) [b.get false, .plain .checkBrand] (k + 2) := fun k =>
    (b.adds_get false).append (adds_plain 2 2 _ rfl)
  rw [Nat.add_right_comm]
  unfold getPrivate at h
  dsimp only at h
  split at h
  · cases h
    exact hdup.append ((b.adds_get false).append (adds_plain 2 1 _ rfl))
  · cases h
    refine (hbrand k).append ?_
    cases keep with
    | true => exact adds_nil _ _
    | false => exact adds_plain 2 1 _ rfl
  · cases h
    exact hdup.append ((hbrand _).append (adds_callMethod 0 (by decide)))
  · cases h
    exact hdup.append ((hbrand _).append (adds_callMethod 0 (by decide)))
  · cases h

theorem adds_callSetter (setter : Binding) : Adds depths (k + 2) (callSetter setter) k :=
  .append (a := [_]) (adds_plain 2 2 _ rfl) <|
  .append (a := [_]) (setter.adds_get false) <|
  .append (a := [_]) (adds_plain (k := k + 1) 2 2 _ rfl) <|
  .append (a := [_]) (adds_plain (k := k) 3 3 _ rfl) <|
  .append (a := [_]) (adds_callMethod 1 (by decide)) <|
  adds_plain 1 0 _ rfl

theorem adds_storeClosure {store : Opcode} (h : store.isPlain 1 0) (constant slot : Nat) :
    Adds depths k (storeClosure store constant slot) k :=
  .append (a := [_]) (adds_plain 0 1 _ rfl) (adds_plain 1 0 _ h)

theorem adds_enterScope (f : Frame) (scope : Nat) : Adds depths k (enterScope f scope) k := by
  refine adds_flatMap fun idx _ => ?_
  split
  · exact adds_storeClosure rfl _ _
  · split
    · exact adds_plain 0 0 _ rfl
    · exact adds_nil _ _

theorem adds_leaveScope (f : Frame) (scope : Nat) : Adds depths k (leaveScope f scope) k := by
  rw [leaveScope, List.filterMap_eq_flatMap_toList]
  refine adds_flatMap fun idx _ => ?_
  split
  · exact adds_plain 0 0 _ rfl
  · exact adds_nil _ _

theorem adds_optionalLink {present exit} (hpresent : depths[present]? = some (some (k + 1)))
    (hexit : depths[exit]? = some (some (k + 1))) : Adds depths (k + 1) (optionalLink present exit) (k + 1) :=
  .append (a := [_]) (adds_plain 1 2 _ rfl) <|
  .append (a := [_]) (adds_plain (k := k + 1) 1 1 _ rfl) <|
  .append (a := [_]) (adds_branch 1 0 rfl hpresent) <|
  .append (a := [_]) (adds_plain 1 0 _ rfl) <|
  .append (a := [_]) (adds_plain 0 1 _ rfl) <|
  .append (a := [_]) (adds_goto hexit (k + 1)) <|
  adds_mark hpresent

/-! ## Placeholders -/

/-- The code in place of an instruction that is reached at depth `cur`. Labels that it adds have depths
too. -/
structure Expands (cur : Option Nat) (depths : List (Option Nat)) (i : Instr) (depths' : List (Option Nat))
    (code : List Instr) : Prop where
  labels : depths <+: depths'
  flows : Flows (depthOf depths') cur code
  instrs : ∀ j ∈ code, j.Encodable ∧ Below depths'.length j
  ends : Under (through (depthOf depths') code cur) (pass (depthOf depths) i cur)

theorem depthOf_replicate_none {l n} (h : depths.length ≤ l) : depthOf (depths ++ List.replicate n none) l = none := by
  rw [depthOf, List.getD_eq_getElem?_getD, List.getElem?_append_right h, List.getElem?_replicate]
  split <;> rfl

theorem getElem?_of_depthOf {l d} (h : depthOf depths l = some d) : depths[l]? = some (some d) := by
  rw [depthOf, List.getD_eq_getElem?_getD] at h
  cases hl : depths[l]? with
  | none => rw [hl] at h; cases h
  | some x => rw [hl] at h; exact congrArg some h

/-- An instruction that stands for itself. -/
theorem expands_self {i : Instr} (hi : i.Encodable ∧ Below depths.length i) (hallows : Allows (depthOf depths) i cur) :
    Expands cur depths i depths [i] where
  labels := List.prefix_refl _
  flows := ⟨hallows, trivial⟩
  instrs := by simpa using hi
  ends := .refl _

/-- Code with the effect of a placeholder on the stack. It may mark `n` new labels, which are reached at the
depth behind it. -/
theorem expands_of_adds {o : Pseudo} (n : Nat) (hcount : o.format.takesCount = false)
    (hend : Instr.endLabel? ⟨.pseudo o, arg⟩ = none) (hallows : Allows (depthOf depths) ⟨.pseudo o, arg⟩ cur)
    (hadds : ∀ k, cur = some (k + o.info.pops) →
      Adds (depths ++ List.replicate n (some (k + o.info.pushes))) (k + o.info.pops) code (k + o.info.pushes))
    (hinstrs : ∀ j ∈ code, j.Encodable ∧ Below (depths.length + n) j)
    (hnew : ∀ j ∈ code, ∀ l, j.endLabel? = some l → depths.length ≤ l) :
    ∃ depths', depths'.length = depths.length + n ∧ Expands cur depths ⟨.pseudo o, arg⟩ depths' code := by
  have heffect := Instr.stackEffect_of_not_count ⟨.pseudo o, arg⟩ hcount
  cases cur with
  | none =>
    refine ⟨depths ++ List.replicate n none, by simp, List.prefix_append _ _, ?_, by simpa using hinstrs, ?_⟩
    · exact (flows_none fun j hj l hl => depthOf_replicate_none (hnew j hj l hl)).1
    · rw [(flows_none fun j hj l hl => depthOf_replicate_none (hnew j hj l hl)).2]
      exact under_none _
  | some d =>
    have hpops := ((allows_some (marked?_of_endLabel? hend) d).mp hallows).1
    rw [heffect] at hpops
    obtain ⟨k, rfl⟩ : ∃ k, d = k + o.info.pops := ⟨d - o.info.pops, (Nat.sub_add_cancel hpops).symm⟩
    obtain ⟨hflows, -, hends⟩ := hadds k rfl
    refine ⟨_, by simp, List.prefix_append _ _, hflows, by simpa using hinstrs, ?_⟩
    have hbehind : Instr.depthBehind ⟨.pseudo o, arg⟩ (k + o.info.pops) = k + o.info.pushes := by
      rw [Instr.depthBehind, heffect]
      exact congrArg (· + _) (Nat.add_sub_cancel _ _)
    rw [pass_some hend, hbehind, if_neg]
    · exact hends
    · have hcount' : Op.format (.pseudo o) = o.format := rfl
      simp [Instr.isExit, Instr.opcode?, hcount', hcount]

/-- Code without labels. -/
theorem endLabel?_of_adds {e} (h : Adds [] k code e) : ∀ j ∈ code, j.endLabel? = none := by
  intro j hj
  cases hend : j.endLabel? with
  | none => rfl
  | some l => exact absurd ((h.instrs j hj).2 l (target?_of_endLabel? hend)) (Nat.not_lt_zero l)

/-- Code without labels that has the effect of a placeholder. -/
theorem expands_of_unlabelled {o : Pseudo} (hcount : o.format.takesCount = false)
    (hend : Instr.endLabel? ⟨.pseudo o, arg⟩ = none) (hallows : Allows (depthOf depths) ⟨.pseudo o, arg⟩ cur)
    (hadds : ∀ depths k, Adds depths (k + o.info.pops) code (k + o.info.pushes)) :
    ∃ depths', depths'.length = depths.length ∧ Expands cur depths ⟨.pseudo o, arg⟩ depths' code := by
  refine expands_of_adds 0 hcount hend hallows (fun k _ => hadds _ k) (hadds depths 0).instrs ?_
  intro j hj l hl
  rw [endLabel?_of_adds (hadds [] 0) j hj] at hl
  cases hl

/-! ## Steps -/

theorem Access.code_eq {n label outer s s'} (h : Access s op name scope label code s') (hs : s.labels = n :: outer) :
    ∃ withs found strict, (code = accessCode op name withs found strict label ∧ s'.labels = n :: outer ∧
        (label = none → withs = [])) ∨
      (label = none ∧ code = accessCode op name withs found strict (some n) ∧ s'.labels = (n + 1) :: outer) := by
  have hlooked : (s.looked name scope).labels = n :: outer := (s.labels_looked name scope).trans hs
  cases h with
  | given noLabel => exact ⟨_, _, _, .inl ⟨rfl, hlooked, fun hnone => List.map_eq_nil_iff.mpr (noLabel hnone)⟩⟩
  | labelled noLabel =>
    rw [State.nextLabel_frame hlooked]
    exact ⟨_, _, _, .inr ⟨noLabel, rfl, State.labels_withLabel hlooked⟩⟩

theorem adds_accessCode (h : op.isVariable) (name : Atom) (withs : List Binding) (found : Option Binding)
    (strict : Bool) (done : Nat) (hdone : depths[done]? = some (some (k + op.info.pushes))) :
    Adds depths (k + op.info.pops) (accessCode op name withs found strict (some done))
      (k + op.info.pushes) :=
  .append (.append (adds_flatMap fun object _ => adds_tryWith h name object hdone)
    (adds_accessBinding h name strict found)) (adds_mark hdone)

theorem endLabel?_accessBody (h : op.isVariable) (name : Atom) (withs : List Binding) (found : Option Binding)
    (strict : Bool) (done : Nat) :
    ∀ j ∈ withs.flatMap (tryWith op name done) ++ accessBinding op name strict found,
      j.endLabel? = none := by
  intro j hj
  rcases List.mem_append.mp hj with hj | hj
  · obtain ⟨object, -, hj⟩ := List.mem_flatMap.mp hj
    rcases List.mem_cons.mp hj with rfl | hj
    · exact endLabel?_of_adds (object.adds_get (k := 0) false) _ (by simp)
    · cases List.mem_singleton.mp hj
      rfl
  · exact endLabel?_of_adds (adds_accessBinding (k := 0) h name strict found) j hj

section

variable {cur : Option Nat} {code : List Instr} {outer : List Nat} {s s' : State}

theorem expands_access (hop : op.isVariable) (hformat : op.format = .atomU16)
    (hs : s.labels = depths.length :: outer) (hallows : Allows (depthOf depths) ⟨.pseudo op, arg⟩ cur)
    (h : Access s op name scope none code s') :
    ∃ depths', s'.labels = depths'.length :: outer ∧ Expands cur depths ⟨.pseudo op, arg⟩ depths' code := by
  have hcount : op.format.takesCount = false := by rw [hformat]; rfl
  have hend : Instr.endLabel? ⟨.pseudo op, arg⟩ = none := by
    cases op <;> first | rfl | cases hformat
  obtain ⟨withs, found, strict, ⟨rfl, hs', hwiths⟩ | ⟨-, rfl, hs'⟩⟩ := h.code_eq hs
  · rw [hwiths rfl]
    obtain ⟨depths', hlength, hexpands⟩ := expands_of_unlabelled hcount hend hallows fun depths k =>
      show Adds depths (k + op.info.pops) (accessCode op name [] found strict none) _ by
        simpa [accessCode] using adds_accessBinding hop name strict found
    exact ⟨depths', by rw [hs', hlength], hexpands⟩
  · have hadds : ∀ n k, Adds (List.replicate n none ++ [some (k + op.info.pushes)])
        (k + op.info.pops) (accessCode op name withs found strict (some n)) (k + op.info.pushes) := fun n k =>
      adds_accessCode hop name withs found strict n (by simp)
    have hnew : ∀ j ∈ accessCode op name withs found strict (some depths.length), ∀ l,
        j.endLabel? = some l → depths.length ≤ l := by
      intro j hj l hl
      rcases List.mem_append.mp hj with hj | hj
      · rw [endLabel?_accessBody hop name withs found strict _ j hj] at hl
        cases hl
      · obtain rfl := List.mem_singleton.mp hj
        cases hl
        exact le_rfl
    obtain ⟨depths', hlength, hexpands⟩ := expands_of_adds 1 hcount hend hallows
      (fun k _ => adds_accessCode hop name withs found strict depths.length (by simp))
      (by simpa using (hadds depths.length 0).instrs) hnew
    exact ⟨depths', by rw [hs', hlength], hexpands⟩

/-- The label of a reference is marked behind the code that makes it. -/
theorem expands_makeRef {label} (hs : s.labels = depths.length :: outer)
    (hi : Below depths.length ⟨.pseudo .makeRef, .atomLabel name label scope⟩)
    (hallows : Allows (depthOf depths) ⟨.pseudo .makeRef, .atomLabel name label scope⟩ cur)
    (h : Access s .makeRef name scope (some label) code s') :
    ∃ depths', s'.labels = depths'.length :: outer ∧
      Expands cur depths ⟨.pseudo .makeRef, .atomLabel name label scope⟩ depths' code := by
  have hvariable : Pseudo.isVariable .makeRef := rfl
  obtain ⟨withs, found, strict, ⟨rfl, hs', -⟩ | ⟨hlabel, -, -⟩⟩ := h.code_eq hs
  · have hpass : ∀ cur, pass (depthOf depths) ⟨.pseudo .makeRef, .atomLabel name label scope⟩ cur =
        depthOf depths label := pass_end rfl
    have hinstrs : ∀ j ∈ accessCode .makeRef name withs found strict (some label),
        j.Encodable ∧ Below depths.length j := by
      have hadds : Adds (List.replicate depths.length (some 2)) 0
          (accessCode .makeRef name withs found strict (some label)) 2 :=
        adds_accessCode (k := 0) hvariable name withs found strict label
          (by rw [List.getElem?_replicate, if_pos (hi label rfl)]; rfl)
      simpa using hadds.instrs
    cases cur with
    | some d =>
      obtain ⟨-, htarget⟩ := (allows_some rfl d).mp hallows
      have hdepth : depthOf depths label = some (d + 2) := htarget label rfl
      have hadds : Adds depths d (accessCode .makeRef name withs found strict (some label)) (d + 2) :=
        adds_accessCode (k := d) hvariable name withs found strict label (getElem?_of_depthOf hdepth)
      refine ⟨depths, hs', List.prefix_refl _, hadds.flows, hinstrs, ?_⟩
      rw [hpass, hdepth]
      exact hadds.ends
    | none =>
      have hbody : ∀ j ∈ withs.flatMap (tryWith .makeRef name label) ++ accessBinding .makeRef name strict found,
          j.endLabel? = none := endLabel?_accessBody hvariable name withs found strict label
      obtain ⟨hflows, hthrough⟩ := flows_none (L := depthOf depths)
        fun j hj l hl => nomatch hl.symm.trans (hbody j hj)
      refine ⟨depths, hs', List.prefix_refl _, flows_append.mpr ⟨hflows, ?_⟩, hinstrs, ?_⟩
      · exact (congrArg (Flows (depthOf depths) · _) hthrough).mpr ⟨allows_none _, trivial⟩
      · rw [hpass, accessCode, through_append]
        exact .refl _
  · cases hlabel

theorem adds_memberCode (h : memberCode op b = some code) :
    Adds depths (k + op.info.pops) code (k + op.info.pushes) := by
  unfold memberCode at h
  split at h
  · exact adds_testPrivate h
  · exact adds_getPrivate h
  · exact adds_getPrivate h
  · split at h
    · cases h
      exact (b.adds_get false).append (adds_plain 3 0 _ rfl)
    · cases h
      exact adds_callSetter b
    · cases h
  · cases h

theorem PrivateAccess.adds (h : PrivateAccess s name scope op code s') :
    Adds depths (k + op.info.pops) code (k + op.info.pushes) := by
  cases h with
  | member _ code_eq => exact adds_memberCode code_eq
  | brand => exact (Binding.adds_get _ false).append (adds_plain 2 1 _ rfl)
  | setter => exact adds_callSetter _

theorem expands_accessPrivate (hop : op.isPrivate) (hs : s.labels = depths.length :: outer)
    (hallows : Allows (depthOf depths) ⟨.pseudo op, arg⟩ cur) (h : PrivateAccess s name scope op code s') :
    ∃ depths', s'.labels = depths'.length :: outer ∧ Expands cur depths ⟨.pseudo op, arg⟩ depths' code := by
  have hop' : op.format.takesCount = false ∧ Instr.endLabel? ⟨.pseudo op, arg⟩ = none := by
    cases op <;> cases hop <;> exact ⟨rfl, rfl⟩
  obtain ⟨depths', hlength, hexpands⟩ := expands_of_unlabelled hop'.1 hop'.2 hallows fun _ _ => h.adds
  exact ⟨depths', by rw [h.labels_eq, hs, hlength], hexpands⟩

theorem expands_optionalLink {exit} (hs : s.labels = depths.length :: outer)
    (hi : Below depths.length ⟨.pseudo .optionalLink, .label exit⟩)
    (hallows : Allows (depthOf depths) ⟨.pseudo .optionalLink, .label exit⟩ cur) :
    ∃ depths', s.withLabel.labels = depths'.length :: outer ∧
      Expands cur depths ⟨.pseudo .optionalLink, .label exit⟩ depths' (optionalLink s.frame.nextLabel exit) := by
  rw [State.nextLabel_frame hs]
  have hexit : exit < depths.length := hi exit rfl
  have hnew : ∀ j ∈ optionalLink depths.length exit, ∀ l, j.endLabel? = some l → depths.length ≤ l := by
    intro j hj l hl
    simp only [optionalLink, List.mem_cons, List.not_mem_nil, or_false] at hj
    rcases hj with rfl | rfl | rfl | rfl | rfl | rfl | rfl
    all_goals cases hl
    exact le_rfl
  -- the operands do not depend on the depths
  have hinstrs : Adds (List.replicate (depths.length + 1) (some 1)) 1
      (optionalLink depths.length exit) 1 := by
    refine adds_optionalLink (k := 0) ?_ ?_
    all_goals
      rw [List.getElem?_replicate, if_pos (by omega)]
  have hadds : ∀ k, cur = some (k + 1) → Adds (depths ++ [some (k + 1)]) (k + 1)
      (optionalLink depths.length exit) (k + 1) := by
    rintro k rfl
    obtain ⟨-, htarget⟩ := (allows_some rfl _).mp hallows
    refine adds_optionalLink (by simp) ?_
    rw [List.getElem?_append_left hexit]
    exact getElem?_of_depthOf (htarget exit rfl)
  obtain ⟨depths', hlength, hexpands⟩ := expands_of_adds 1 rfl rfl hallows hadds
    (by simpa using hinstrs.instrs) hnew
  exact ⟨depths', by rw [State.labels_withLabel hs, hlength], hexpands⟩

/-- A step: the code of one instruction. -/
theorem Resolved.expands {i} (h : Resolved s i code s') (hs : s.labels = depths.length :: outer)
    (hi : i.Encodable ∧ Below depths.length i) (hallows : Allows (depthOf depths) i cur) :
    ∃ depths', s'.labels = depths'.length :: outer ∧ Expands cur depths i depths' code := by
  cases h with
  | final | marker => exact ⟨depths, hs, expands_self hi hallows⟩
  | enterScope scope =>
    obtain ⟨depths', hlength, hexpands⟩ := expands_of_unlabelled rfl rfl hallows fun _ _ =>
      adds_enterScope s.frame scope.toNat
    exact ⟨depths', by rw [hs, hlength], hexpands⟩
  | leaveScope scope =>
    obtain ⟨depths', hlength, hexpands⟩ := expands_of_unlabelled rfl rfl hallows fun _ _ =>
      adds_leaveScope s.frame scope.toNat
    exact ⟨depths', by rw [hs, hlength], hexpands⟩
  | chainField =>
    obtain ⟨depths', hlength, hexpands⟩ := expands_of_unlabelled rfl rfl hallows fun _ _ =>
      adds_plain (o := .getField) 1 1 _ rfl
    exact ⟨depths', by rw [hs, hlength], hexpands⟩
  | chainElement =>
    obtain ⟨depths', hlength, hexpands⟩ := expands_of_unlabelled rfl rfl hallows fun _ _ =>
      adds_plain (o := .getArrayEl) 2 1 _ rfl
    exact ⟨depths', by rw [hs, hlength], hexpands⟩
  | optionalLink => exact expands_optionalLink hs hi.2 hallows
  | makeRef access => exact expands_makeRef hs hi.2 hallows access
  | ofVariable format isVariable access => exact expands_access isVariable format hs hallows access
  | ofPrivate isPrivate access => exact expands_accessPrivate isPrivate hs hallows access

/-- The whole code of a function. -/
theorem CodeResolved.expands {body pieces} (h : CodeResolved s body pieces s') (hs : s.labels = depths.length :: outer)
    (hinstrs : ∀ i ∈ body, i.Encodable ∧ Below depths.length i) (hflows : Flows (depthOf depths) cur body) :
    ∃ depths', s'.labels = depths'.length :: outer ∧ depths <+: depths' ∧
      Flows (depthOf depths') cur pieces.flatten ∧
      ∀ i ∈ pieces.flatten, i.Encodable ∧ Below depths'.length i := by
  induction h generalizing depths cur with
  | nil => exact ⟨depths, hs, List.prefix_refl _, trivial, nofun⟩
  | @cons _ _ _ i body piece pieces first _ ih =>
    rw [List.forall_mem_cons] at hinstrs
    obtain ⟨depths₁, hs₁, hexpands⟩ := first.expands hs hinstrs.1 hflows.1
    have hsame := depthOf_of_isPrefix hexpands.labels
    have hbelow : ∀ j ∈ body, Below depths.length j := fun j hj => (hinstrs.2 j hj).2
    -- the rest is reached at the depth behind the new code
    have hflows₁ : Flows (depthOf depths₁) (through (depthOf depths₁) piece cur) body :=
      hexpands.ends.flows (hflows.2.congr hsame hbelow)
    have hinstrs₁ : ∀ j ∈ body, j.Encodable ∧ Below depths₁.length j := fun j hj =>
      ⟨(hinstrs.2 j hj).1, (hinstrs.2 j hj).2.mono hexpands.labels.length_le⟩
    obtain ⟨depths₂, hs₂, hlabels, hflows₂, hinstrs₂⟩ := ih hs₁ hinstrs₁ hflows₁
    have hsame₁ := depthOf_of_isPrefix hlabels
    have hbelow₁ : ∀ j ∈ piece, Below depths₁.length j := fun j hj => (hexpands.instrs j hj).2
    refine ⟨depths₂, hs₂, hexpands.labels.trans hlabels, ?_, ?_⟩
    · rw [List.flatten_cons]
      refine flows_append.mpr ⟨hexpands.flows.congr hsame₁ hbelow₁, ?_⟩
      rwa [← through_congr hsame₁ hbelow₁]
    · intro j hj
      rcases List.mem_append.mp hj with hj | hj
      · exact ⟨(hexpands.instrs j hj).1, (hbelow₁ j hj).mono hlabels.length_le⟩
      · exact hinstrs₂ j hj

end

/-! ## Functions -/

theorem adds_prologue (f : Frame) : Adds depths k f.prologue k := by
  have hspecial : ∀ kind idx, Adds depths k (Frame.storeSpecial kind idx) k := fun kind idx =>
    .append (a := [_]) (adds_plain 0 1 _ rfl) (adds_plain 1 0 _ rfl)
  have hthis : ∀ idx, Adds depths k (f.makeThis idx) k := by
    intro idx
    unfold Frame.makeThis
    split
    · exact adds_plain 0 0 _ rfl
    · exact .append (a := [_]) (adds_plain 0 1 _ rfl) (adds_plain 1 0 _ rfl)
  have helim : ∀ (slot : Option Nat) (make : Nat → List Instr), (∀ idx, Adds depths k (make idx) k) →
      Adds depths k (slot.elim [] make) k := by
    intro slot make hmake
    cases slot with
    | none => exact adds_nil _ _
    | some idx => exact hmake idx
  have hspecials : Adds depths k f.makeSpecials k :=
    (((((helim _ _ (hspecial _)).append (helim _ _ (hspecial _))).append (helim _ _ (hspecial _))).append
      (helim _ _ hthis)).append (helim _ _ (hspecial _))).append (helim _ _ (hspecial _))
  refine hspecials.append ?_
  split
  · refine .append ?_ (adds_flatMap fun g _ => ?_)
    · rw [List.map_eq_flatMap]
      exact adds_flatMap fun g _ => adds_plain 0 0 _ rfl
    · unfold GlobalVar.define
      split
      · exact .append (a := [_]) (adds_plain 0 1 _ rfl) (adds_plain 1 0 _ rfl)
      · exact adds_plain 0 0 _ rfl
  · refine adds_flatMap fun g _ => ?_
    split
    · exact adds_storeClosure rfl _ _
    · exact adds_nil _ _
  · refine adds_flatMap fun ⟨v, idx⟩ _ => ?_
    dsimp only
    split
    · split
      · exact adds_storeClosure rfl _ _
      · exact adds_nil _ _
    · exact adds_nil _ _

mutual

/-- A function whose labels have depths keeps depths when its names are resolved. -/
theorem hasDepths_resolveTree {s s'} :
    ∀ {t t' : FunctionTree}, t.HasDepths →
    (resolveTree t).run s = .ok (t', s') → t'.HasDepths ∧ s'.labels = s.labels
  | ⟨f, code, pool, children⟩, t', .mk depths hlabels hflows hinstrs hconstants hnested, h => by
    obtain ⟨⟨⟩, s₁, henter, h₁⟩ := run_bind_eq_ok.mp h
    obtain ⟨children', s₂, hchildren, h₂⟩ := run_bind_eq_ok.mp h₁
    obtain ⟨body, s₃, hbody, h₃⟩ := run_bind_eq_ok.mp h₂
    obtain ⟨f', s₄, hleave, h₄⟩ := run_bind_eq_ok.mp h₃
    cases henter
    cases hleave
    cases h₄
    obtain ⟨hnested', hs₂⟩ := hasDepths_resolveTrees hnested hchildren
    have hs₂ : s₂.labels = depths.length :: s.labels := hs₂.trans (congrArg (· :: _) hlabels)
    have hnamed : ∀ i ∈ code, Named i := by
      rintro _ hi op name scope rfl
      exact (hinstrs _ hi).1.named rfl
    obtain ⟨pieces, hpieces, hresolved⟩ := codeResolved_of_run hnamed hbody
    obtain ⟨depths', hs₃, -, hflows', hinstrs'⟩ := hresolved.expands hs₂ hinstrs hflows
    rw [← show body.toList = pieces.flatten from hpieces] at hflows' hinstrs'
    obtain ⟨atoms, frames⟩ := s₃
    cases frames with
    | nil => cases hs₃
    | cons f' outer =>
      obtain ⟨hlabels', houter⟩ := List.cons.inj hs₃
      have hprologue : Adds depths' 0 f'.prologue 0 := adds_prologue f'
      refine ⟨.mk depths' hlabels' ?_ ?_ hconstants hnested', houter⟩
      · exact flows_append.mpr ⟨hprologue.flows, hprologue.ends.flows hflows'⟩
      · intro i hi
        rcases List.mem_append.mp hi with hi | hi
        · exact hprologue.instrs i hi
        · exact hinstrs' i hi

theorem hasDepths_resolveTrees {s s'} :
    ∀ {ts ts' : List FunctionTree},
    (∀ t ∈ ts, t.HasDepths) → (resolveTrees ts).run s = .ok (ts', s') →
    (∀ t ∈ ts', t.HasDepths) ∧ s'.labels = s.labels
  | [], _, _, h => by
    cases h
    exact ⟨nofun, rfl⟩
  | t :: rest, ts', hts, h => by
    rw [List.forall_mem_cons] at hts
    obtain ⟨t', s₁, ht, h₁⟩ := run_bind_eq_ok.mp h
    obtain ⟨rest', s₂, hrest, h₂⟩ := run_bind_eq_ok.mp h₁
    cases h₂
    obtain ⟨ht', hs₁⟩ := hasDepths_resolveTree hts.1 ht
    obtain ⟨hrest', hs₂⟩ := hasDepths_resolveTrees hts.2 hrest
    exact ⟨List.forall_mem_cons.mpr ⟨ht', hrest'⟩, hs₂.trans hs₁⟩

end

end Naming

end ScriptBytecode
