import ScriptBytecode.Proofs.Drafting.Frames

/-!
# Frames while names are resolved

Looking names up changes frames in a few ways only: special bindings and closure variables are added, and
variables are marked as captured. `Frame.Grows` says so. What plain search finds in a frame is therefore what
look-up finds in any frame that has grown from it.
-/

namespace ScriptBytecode

variable {idx i fuel : Nat} {slot : Slot} {next : Option Nat}

/-! ## Slots -/

/-- How a binding may be used. -/
structure Traits where
  kind : VarKind
  isConst : Bool
  isLexical : Bool
deriving DecidableEq

def Variable.traits (v : Variable) : Traits :=
  ⟨v.kind, v.isConst, v.isLexical⟩

def ClosureVar.traits (v : ClosureVar) : Traits :=
  ⟨v.kind, v.isConst, v.isLexical⟩

def Binding.traits (b : Binding) : Traits :=
  ⟨b.kind, b.isConst, b.isLexical⟩

/-- What the frame says of a slot, if it has that slot. -/
def Frame.traits? (f : Frame) : Slot → Option Traits
  | .var idx => (f.scopes.vars[idx]?).map Variable.traits
  | .arg idx => (f.scopes.args[idx]?).map Variable.traits
  | .closure idx => (f.closureVars[idx]?).map ClosureVar.traits

def Frame.HasSlot (f : Frame) (slot : Slot) : Prop :=
  (f.traits? slot).isSome = true

variable {f : Frame}

theorem Frame.hasSlot_var : f.HasSlot (.var idx) ↔ idx < f.scopes.vars.size := by
  simp [HasSlot, traits?]

theorem Frame.hasSlot_arg : f.HasSlot (.arg idx) ↔ idx < f.scopes.args.size := by
  simp [HasSlot, traits?]

theorem Frame.hasSlot_closure : f.HasSlot (.closure idx) ↔ idx < f.closureVars.size := by
  simp [HasSlot, traits?]

/-- A binding is used as its frame says. -/
theorem Frame.traits_binding (hargs : ∀ v ∈ f.scopes.args, v = .plain v.name) {τ} (h : f.traits? slot = some τ) :
    (f.binding slot).traits = τ := by
  cases slot with
  | var idx =>
    obtain ⟨v, hv, rfl⟩ := Option.map_eq_some_iff.mp h
    rw [binding, ScopeTree.var?, hv]
    rfl
  | arg idx =>
    obtain ⟨v, hv, rfl⟩ := Option.map_eq_some_iff.mp h
    rw [hargs v (Array.mem_of_getElem? hv)]
    rfl
  | closure idx =>
    obtain ⟨v, hv, rfl⟩ := Option.map_eq_some_iff.mp h
    rw [binding, hv]
    rfl

theorem Frame.traits_refer (f : Frame) (name : Atom) (slot : Slot) :
    (f.refer name slot).traits = (f.binding slot).traits := by
  cases slot <;> rfl

/-! ## Last variables -/

/-- The last one of the first `n` variables that satisfies `p`. -/
def ScopeTree.IsLast (p : Variable → Bool) (vars : Array Variable) (n : Nat) : Option Nat → Prop
  | none => ∀ (j : Nat) v, j < n → vars[j]? = some v → p v = false
  | some i => (∃ v, vars[i]? = some v ∧ p v = true) ∧ ∀ (j : Nat) v, i < j → j < n → vars[j]? = some v → p v = false

theorem ScopeTree.isLast_findLast? (p : Variable → Bool) (vars : Array Variable) :
    IsLast p vars vars.size (findLast? p vars) := by
  have hstep : ∀ (i : Fin vars.size) (s : Option Nat × Nat), s.2 = i ∧ IsLast p vars i s.1 →
      s.2 + 1 = i + 1 ∧ IsLast p vars (i + 1) (if p vars[i] then some s.2 else s.1) := by
    rintro i ⟨found, n⟩ ⟨rfl, hfound⟩
    have hi : vars[i.val]? = some vars[i] := Array.getElem?_eq_getElem i.isLt
    have hlast : ∀ (j : Nat) v, j < i.val + 1 → ¬j < i.val → vars[j]? = some v → v = vars[i] := by
      intro j v hj hj' hv
      obtain rfl : j = i.val := by omega
      exact Option.some.inj (hv.symm.trans hi)
    refine ⟨rfl, ?_⟩
    cases hp : p vars[i] with
    | true =>
      refine ⟨⟨_, hi, hp⟩, fun j v hij hj => ?_⟩
      omega
    | false =>
      cases found with
      | none =>
        intro j v hj hv
        by_cases hlt : j < i.val
        · exact hfound j v hlt hv
        · exact hlast j v hj hlt hv ▸ hp
      | some k =>
        refine ⟨hfound.1, fun j v hkj hj hv => ?_⟩
        by_cases hlt : j < i.val
        · exact hfound.2 j v hkj hlt hv
        · exact hlast j v hj hlt hv ▸ hp
  have hnone : IsLast p vars 0 none := fun j v hj => absurd hj (Nat.not_lt_zero j)
  exact (@Array.foldl_induction _ (Option Nat × Nat) vars (fun n s => s.2 = n ∧ IsLast p vars n s.1) (none, 0)
    ⟨rfl, hnone⟩ _ hstep).2

variable {p : Variable → Bool} {vars : Array Variable}

theorem ScopeTree.findLast?_eq_some (h : findLast? p vars = some i) :
    (∃ v, vars[i]? = some v ∧ p v) ∧ ∀ (j : Nat) v, i < j → vars[j]? = some v → p v = false := by
  have hlast := isLast_findLast? p vars
  rw [h] at hlast
  exact ⟨hlast.1, fun j v hij hv => hlast.2 j v hij (Array.getElem?_eq_some_iff.mp hv).1 hv⟩

theorem ScopeTree.findLast?_eq_none : findLast? p vars = none ↔ ∀ v ∈ vars, p v = false := by
  have hlast := isLast_findLast? p vars
  constructor
  · intro h v hv
    rw [h] at hlast
    obtain ⟨j, hj⟩ := Array.mem_iff_getElem?.mp hv
    exact hlast j v (Array.getElem?_eq_some_iff.mp hj).1 hj
  · intro h
    cases hfound : findLast? p vars with
    | none => rfl
    | some i =>
      obtain ⟨⟨v, hv, hp⟩, -⟩ := findLast?_eq_some hfound
      exact nomatch hp.symm.trans (h v (Array.mem_of_getElem? hv))

/-- There is one last variable only. -/
theorem ScopeTree.findLast?_of_last {v} (hv : vars[i]? = some v) (hp : p v)
    (hlast : ∀ (j : Nat) w, i < j → vars[j]? = some w → p w = false) : findLast? p vars = some i := by
  cases hfound : findLast? p vars with
  | none => exact nomatch hp.symm.trans (findLast?_eq_none.mp hfound v (Array.mem_of_getElem? hv))
  | some k =>
    obtain ⟨⟨w, hw, hpw⟩, hlast'⟩ := findLast?_eq_some hfound
    rcases Nat.lt_trichotomy i k with hlt | rfl | hlt
    · exact nomatch hpw.symm.trans (hlast k w hlt hw)
    · rfl
    · exact nomatch hp.symm.trans (hlast' i v hlt hv)

/-! ## Growth -/

/-- A variable that was made for a special binding of the frame. -/
structure Frame.MadeFor (f : Frame) (which : Special) (v : Variable) : Prop where
  special : f.special? v.name = some which
  level : v.scopeLevel = 0
  notVar : f.scopes.findVar? v.name = none
  notArg : f.scopes.findArg? v.name = none

/-- What becomes of a frame while names are looked up. -/
structure Frame.Grows (f g : Frame) : Prop where
  header : g = { f with
    scopes := g.scopes, closureVars := g.closureVars, specials := g.specials, nextLabel := g.nextLabel }
  scopes : g.scopes = { f.scopes with vars := g.scopes.vars, inits := g.scopes.inits }
  inits : ∀ i, g.scopes.init? i = f.scopes.init? i
  var : ∀ (i : Nat) (v : Variable), f.scopes.vars[i]? = some v →
    ∃ isCaptured, g.scopes.vars[i]? = some { v with isCaptured }
  newVar : ∀ (i : Nat) (v : Variable), g.scopes.vars[i]? = some v → f.scopes.vars.size ≤ i →
    ∃ which, f.MadeFor which v ∧ g.specials.get? which = some i
  special : ∀ which i, f.specials.get? which = some i → g.specials.get? which = some i
  newSpecial : ∀ which i, g.specials.get? which = some i → f.specials.get? which = some i ∨
    f.scopes.vars.size ≤ i ∧ ∃ v, g.scopes.vars[i]? = some v ∧ f.MadeFor which v
  closureVar : ∀ (i : Nat) (c : ClosureVar), f.closureVars[i]? = some c → g.closureVars[i]? = some c
  nextLabel : f.nextLabel ≤ g.nextLabel

variable {which : Special}

namespace Frame.Grows

variable {f g k : Frame}

theorem refl (f : Frame) : f.Grows f where
  header := rfl
  scopes := rfl
  inits := fun _ => rfl
  var := fun _ v hv => ⟨v.isCaptured, hv⟩
  newVar := fun _ _ hv hi => absurd (Array.getElem?_eq_some_iff.mp hv).1 (Nat.not_lt.mpr hi)
  special := fun _ _ h => h
  newSpecial := fun _ _ h => .inl h
  closureVar := fun _ _ h => h
  nextLabel := le_rfl

section

variable (h : f.Grows g)
include h

theorem parentScope_eq : g.parentScope = f.parentScope := by rw [h.header]

theorem globals_eq : g.globals = f.globals := by rw [h.header]

theorem args_eq : g.scopes.args = f.scopes.args := by rw [h.scopes]

theorem first?_eq (scope : Nat) : g.scopes.first? scope = f.scopes.first? scope := by
  rw [h.scopes]
  rfl

theorem findArg?_eq (name : Atom) : g.scopes.findArg? name = f.scopes.findArg? name := by
  rw [ScopeTree.findArg?, h.args_eq, ScopeTree.findArg?]

theorem special?_eq (name : Atom) : g.special? name = f.special? name := by
  rw [h.header]
  rfl

theorem size_le : f.scopes.vars.size ≤ g.scopes.vars.size := by
  refine not_lt.mp fun hlt => ?_
  obtain ⟨_, hv⟩ := h.var _ _ (Array.getElem?_eq_getElem hlt)
  exact lt_irrefl _ (Array.getElem?_eq_some_iff.mp hv).1

/-- A variable of that name was there before, or none is, or it was made for a special binding. -/
theorem findVar?_cases (name : Atom) : (∃ i, f.scopes.findVar? name = some i ∧ g.scopes.findVar? name = some i) ∨
      f.scopes.findVar? name = none ∧ (g.scopes.findVar? name = none ∨
        f.scopes.findArg? name = none ∧ ∃ i which, g.scopes.findVar? name = some i ∧
          f.special? name = some which ∧ g.specials.get? which = some i) := by
  cases hf : f.scopes.findVar? name with
  | some i =>
    refine .inl ⟨i, rfl, ?_⟩
    obtain ⟨⟨v, hv, hp⟩, hlast⟩ := ScopeTree.findLast?_eq_some hf
    obtain ⟨_, hv'⟩ := h.var i v hv
    refine ScopeTree.findLast?_of_last hv' hp fun j w hij hw => ?_
    by_cases hj : j < f.scopes.vars.size
    · have hfj := Array.getElem?_eq_getElem hj
      obtain ⟨_, hw'⟩ := h.var j _ hfj
      cases hw.symm.trans hw'
      exact hlast j f.scopes.vars[j] hij hfj
    · -- a name with a variable has none made for it
      obtain ⟨which, hmade, -⟩ := h.newVar j w hw (not_lt.mp hj)
      have hne : w.name ≠ name := by
        rintro rfl
        exact nomatch hf.symm.trans hmade.notVar
      simp [hne]
  | none =>
    refine .inr ⟨rfl, ?_⟩
    cases hg : g.scopes.findVar? name with
    | none => exact .inl rfl
    | some i =>
      obtain ⟨⟨v, hv, hp⟩, -⟩ := ScopeTree.findLast?_eq_some hg
      by_cases hi : i < f.scopes.vars.size
      · have hfi := Array.getElem?_eq_getElem hi
        obtain ⟨_, hv'⟩ := h.var i _ hfi
        cases hv.symm.trans hv'
        exact nomatch hp.symm.trans (ScopeTree.findLast?_eq_none.mp hf f.scopes.vars[i] (Array.mem_of_getElem? hfi))
      · obtain ⟨which, hmade, hspecial⟩ := h.newVar i v hv (not_lt.mp hi)
        obtain rfl : v.name = name := by
          simp only [Bool.and_eq_true, beq_iff_eq] at hp
          exact hp.1
        exact .inr ⟨hmade.notArg, i, which, rfl, hmade.special, hspecial⟩

theorem findVar?_eq_none {name} (hg : g.scopes.findVar? name = none) : f.scopes.findVar? name = none := by
  rcases h.findVar?_cases name with ⟨i, -, hi⟩ | ⟨hf, -⟩
  · exact nomatch hg.symm.trans hi
  · exact hf

theorem madeFor {v} (hmade : g.MadeFor which v) : f.MadeFor which v where
  special := (h.special?_eq v.name).symm.trans hmade.special
  level := hmade.level
  notVar := h.findVar?_eq_none hmade.notVar
  notArg := (h.findArg?_eq v.name).symm.trans hmade.notArg

theorem trans (h' : g.Grows k) : f.Grows k where
  header := by rw [h'.header, h.header]
  scopes := by rw [h'.scopes, h.scopes]
  inits := fun i => (h'.inits i).trans (h.inits i)
  var := by
    intro i v hv
    obtain ⟨_, hv'⟩ := h.var i v hv
    obtain ⟨b, hv''⟩ := h'.var i _ hv'
    exact ⟨b, hv''⟩
  newVar := by
    intro i v hv hi
    by_cases hlt : i < g.scopes.vars.size
    · have hgi := Array.getElem?_eq_getElem hlt
      obtain ⟨which, hmade, hspecial⟩ := h.newVar i _ hgi hi
      obtain ⟨_, hv'⟩ := h'.var i _ hgi
      cases hv.symm.trans hv'
      exact ⟨which, ⟨hmade.special, hmade.level, hmade.notVar, hmade.notArg⟩, h'.special which i hspecial⟩
    · obtain ⟨which, hmade, hspecial⟩ := h'.newVar i v hv (not_lt.mp hlt)
      exact ⟨which, h.madeFor hmade, hspecial⟩
  special := fun which i hi => h'.special which i (h.special which i hi)
  newSpecial := by
    intro which i hi
    rcases h'.newSpecial which i hi with hg | ⟨hle, v, hv, hmade⟩
    · refine (h.newSpecial which i hg).imp_right ?_
      rintro ⟨hle, v, hv, hmade⟩
      obtain ⟨_, hv'⟩ := h'.var i v hv
      exact ⟨hle, _, hv', ⟨hmade.special, hmade.level, hmade.notVar, hmade.notArg⟩⟩
    · exact .inr ⟨h.size_le.trans hle, v, hv, h.madeFor hmade⟩
  closureVar := fun i c hc => h'.closureVar i c (h.closureVar i c hc)
  nextLabel := h.nextLabel.trans h'.nextLabel

/-- Slots stay, and what is said of them too. -/
theorem traits? {τ} (hslot : f.traits? slot = some τ) : g.traits? slot = some τ := by
  cases slot with
  | var idx =>
    obtain ⟨v, hv, rfl⟩ := Option.map_eq_some_iff.mp hslot
    obtain ⟨_, hv'⟩ := h.var idx v hv
    exact Option.map_eq_some_iff.mpr ⟨_, hv', rfl⟩
  | arg idx =>
    rw [Frame.traits?, h.args_eq]
    exact hslot
  | closure idx =>
    obtain ⟨c, hc, rfl⟩ := Option.map_eq_some_iff.mp hslot
    exact Option.map_eq_some_iff.mpr ⟨c, h.closureVar idx c hc, rfl⟩

theorem hasSlot (hslot : f.HasSlot slot) : g.HasSlot slot := by
  obtain ⟨τ, hτ⟩ := Option.isSome_iff_exists.mp hslot
  exact Option.isSome_iff_exists.mpr ⟨τ, h.traits? hτ⟩

end

/-! ### Steps -/

theorem addLabel (f : Frame) : f.Grows { f with nextLabel := f.nextLabel + 1 } :=
  { refl f with header := rfl, nextLabel := Nat.le_succ _ }

theorem addClosureVar (f : Frame) (c : ClosureVar) : f.Grows { f with closureVars := f.closureVars.push c } :=
  { refl f with
    header := rfl
    closureVar := fun i d hd => by
      have hlt := (Array.getElem?_eq_some_iff.mp hd).1
      rw [Array.getElem?_push, if_neg (by omega), hd] }

theorem markCaptured (f : Frame) (slot : Slot) : f.Grows (f.markCaptured slot) := by
  cases slot with
  | arg | closure => exact refl f
  | var idx =>
    have hsize : (f.markCaptured (.var idx)).scopes.vars.size = f.scopes.vars.size := Array.size_modify
    refine ⟨rfl, rfl, fun _ => rfl, fun i v hv => ?_, fun i v hv hi => ?_, fun _ _ h => h, fun _ _ h => .inl h,
      fun _ _ h => h, le_rfl⟩
    · rw [Frame.markCaptured, ScopeTree.modifyVar, Array.getElem?_modify, hv]
      split
      · exact ⟨true, rfl⟩
      · exact ⟨v.isCaptured, rfl⟩
    · have hlt := (Array.getElem?_eq_some_iff.mp hv).1
      omega

theorem modify_push_size {α : Type} (xs : Array α) (x : α) (f : α → α) :
    (xs.push x).modify xs.size f = xs.push (f x) := by
  refine Array.ext_getElem? fun i => ?_
  rw [Array.getElem?_modify, Array.getElem?_push, Array.getElem?_push]
  by_cases hi : i = xs.size
  · simp [hi]
  · simp [hi, Ne.symm hi]

/-- A special binding that is not there yet becomes the next variable of the function. -/
theorem makeSpecial_of_new (name : Atom) (h : f.specials.get? which = none) :
    ∃ v : Variable, v.name = name ∧ v.scopeLevel = 0 ∧ v.scopeNext = none ∧
      f.makeSpecial name which = (f.scopes.vars.size, { f with
        scopes := { f.scopes with vars := f.scopes.vars.push v, inits := f.scopes.inits.push none }
        specials := f.specials.set which f.scopes.vars.size }) := by
  unfold Frame.makeSpecial
  rw [h]
  dsimp only [ScopeTree.modifyVar, ScopeTree.addVar]
  rw [modify_push_size]
  exact ⟨_, rfl, rfl, rfl, rfl⟩

theorem makeSpecial {name} (hspecial : f.special? name = some which) (hnew : f.specials.get? which = none)
    (hvar : f.scopes.findVar? name = none) (harg : f.scopes.findArg? name = none) :
    f.Grows (f.makeSpecial name which).2 := by
  obtain ⟨v, rfl, hlevel, -, heq⟩ := makeSpecial_of_new name hnew
  have hmade : f.MadeFor which v := ⟨hspecial, hlevel, hvar, harg⟩
  rw [heq]
  refine ⟨rfl, rfl, Frame.Backed.init?_push_none f.scopes, fun i w hw => ?_, fun i w hw hi => ?_, fun w i hi => ?_,
    fun w i hi => ?_, fun _ _ h => h, le_rfl⟩
  · have hlt := (Array.getElem?_eq_some_iff.mp hw).1
    exact ⟨w.isCaptured, by rw [Array.getElem?_push, if_neg (by omega), hw]⟩
  · have hlt := (Array.getElem?_eq_some_iff.mp hw).1
    obtain rfl : i = f.scopes.vars.size := by
      rw [Array.size_push] at hlt
      omega
    rw [Array.getElem?_push_size] at hw
    cases hw
    exact ⟨which, hmade, by rw [Specials.get?_set, if_pos rfl]⟩
  · rw [Specials.get?_set, if_neg, hi]
    rintro rfl
    exact nomatch hnew.symm.trans hi
  · rw [Specials.get?_set] at hi
    split at hi
    · rename_i hw
      cases hi
      exact .inr ⟨le_rfl, v, Array.getElem?_push_size, hw ▸ hmade⟩
    · exact .inl hi

end Frame.Grows

/-! ## Searching -/

/-- The name that a special binding has in a function. -/
def Special.name (f : Frame) : Special → Atom
  | .this => .this
  | .newTarget => .newTarget
  | .arguments => .arguments
  | .homeObject => .homeObject
  | .activeFunction => .activeFunction
  | .ownName => f.name

theorem Frame.name_of_special? {name} (h : f.special? name = some which) : which.name f = name := by
  unfold Frame.special? at h
  iterate 5
    split at h
    · cases h
      simp_all [Special.name]
  split at h
  · rename_i hown
    cases h
    unfold Frame.ownName? at hown
    split at hown
    · exact Option.some.inj hown
    · cases hown
  · cases h

namespace ScopeTree

variable {t : ScopeTree} {name : Atom}

/-- Objects of `with` statements aside, a search is a walk. -/
theorem search_fst (fuel : Nat) (next : Option Nat) (withs : List Nat) :
    (t.search name fuel next withs).1 = t.walk (fun _ => true) (·.name == name) fuel next := by
  induction fuel generalizing next withs with
  | zero => rfl
  | succ fuel ih =>
    cases next with
    | none => rfl
    | some idx =>
      unfold search walk
      cases hv : t.vars[idx]? with
      | none => rfl
      | some v =>
        by_cases hname : v.name = name
        · simp [hname]
        · simp [hname, ih]

/-- A search passes the objects of `with` statements on its chain only. -/
theorem search_snd (withs : List Nat) (h : t.walk (fun _ => true) (·.name == Atom.withObject) fuel next = none) :
    (t.search name fuel next withs).2 = withs.reverse := by
  induction fuel generalizing next withs with
  | zero => rfl
  | succ fuel ih =>
    cases next with
    | none => rfl
    | some idx =>
      unfold search
      unfold walk at h
      cases hv : t.vars[idx]? with
      | none => rfl
      | some v =>
        simp only [hv] at h
        by_cases hwith : v.name = .withObject
        · simp [hwith] at h
        · simp only [Bool.not_true, Bool.false_eq_true, if_false, beq_eq_false_iff_ne.mpr hwith] at h
          by_cases hname : v.name = name
          · simp [hname]
          · simp only [hname, hwith, if_false]
            exact ih withs h

theorem mem_search_snd {withs} (h : idx ∈ (t.search name fuel next withs).2) : idx ∈ withs ∨ idx < t.vars.size := by
  induction fuel generalizing next withs with
  | zero => exact .inl (List.mem_reverse.mp h)
  | succ fuel ih =>
    cases next with
    | none => exact .inl (List.mem_reverse.mp h)
    | some i =>
      unfold search at h
      split at h
      · exact .inl (List.mem_reverse.mp h)
      · rename_i v hv
        split at h
        · exact .inl (List.mem_reverse.mp h)
        · rcases ih h with hmem | hlt
          · split at hmem
            · rcases List.mem_cons.mp hmem with rfl | hmem
              · exact .inr (Array.getElem?_eq_some_iff.mp hv).1
              · exact .inl hmem
            · exact .inl hmem
          · exact .inr hlt

/-- A walk ends at a variable that satisfies the predicate. -/
theorem exists_of_walk {go} (h : t.walk go p fuel next = some idx) : ∃ v, t.vars[idx]? = some v ∧ p v := by
  induction fuel generalizing next with
  | zero => cases h
  | succ fuel ih =>
    cases next with
    | none => cases h
    | some i =>
      unfold walk at h
      split at h
      · cases h
      · rename_i v hv
        split at h
        · cases h
        · split at h
          · rename_i hp
            cases h
            exact ⟨v, hv, hp⟩
          · exact ih h

end ScopeTree

variable {g : Frame}

/-- A search in a frame that has grown goes along the same chain. The number of variables is more than the chain
needs, so it does not matter either. -/
theorem Frame.Grows.search_eq (h : f.Grows g) (hchained : f.scopes.Chained) (name : Atom) {m n}
    (hnext : ∀ i ∈ next, i < m ∧ i < n ∧ i < f.scopes.vars.size) (withs : List Nat) :
    g.scopes.search name m next withs = f.scopes.search name n next withs := by
  induction m generalizing n next withs with
  | zero =>
    cases next with
    | none => cases n <;> rfl
    | some i => exact absurd (hnext i rfl).1 (Nat.not_lt_zero i)
  | succ m ih =>
    cases next with
    | none => cases n <;> rfl
    | some i =>
      obtain ⟨him, hin, hif⟩ := hnext i rfl
      cases n with
      | zero => exact absurd hin (Nat.not_lt_zero i)
      | succ n =>
        have hv := Array.getElem?_eq_getElem hif
        obtain ⟨_, hv'⟩ := h.var i _ hv
        unfold ScopeTree.search
        rw [hv, hv']
        dsimp only
        split
        · rfl
        · refine ih (fun j hj => ?_) _
          have hlt := hchained.next i _ j hv hj
          omega

/-! ## Plain search -/

/-- What a name is bound to in a function. -/
inductive Place where
  | var (idx : Nat)
  | arg (idx : Nat)
  /-- A binding that the function makes for itself. -/
  | special (which : Special)
  /-- An import or a top-level variable of a module. -/
  | closure (idx : Nat)
deriving DecidableEq

/-- What a name is bound to in one function: by the scopes around its use, by the variables of the function, by its
arguments, by its special bindings, or by the variables of a module. -/
def Frame.bound? (f : Frame) (name : Atom) (scope : Nat) : Option Place :=
  match f.scopes.lookup? name scope <|> f.scopes.findVar? name with
  | some idx => some (.var idx)
  | none =>
    match f.scopes.findArg? name with
    | some idx => some (.arg idx)
    | none =>
      match f.special? name with
      | some which => some (.special which)
      | none => if f.role = .module then (f.closureVar? name).map .closure else none

/-- Plain search: what a name is bound to, and how many functions further out. -/
def plainSearch (name : Atom) : Nat → List Frame → Option (Nat × Place)
  | _, [] => none
  | scope, f :: outer =>
    match f.bound? name scope with
    | some place => some (0, place)
    | none => (plainSearch name f.parentScope outer).map fun (depth, place) => (depth + 1, place)

/-- The slot of a place, once the special bindings are made. -/
def Frame.slot? (f : Frame) : Place → Option Slot
  | .var idx => some (.var idx)
  | .arg idx => some (.arg idx)
  | .special which => (f.specials.get? which).map .var
  | .closure idx => some (.closure idx)

theorem Frame.Grows.slot? (h : f.Grows g) {place} (hslot : f.slot? place = some slot) : g.slot? place = some slot := by
  cases place with
  | special which =>
    obtain ⟨i, hi, rfl⟩ := Option.map_eq_some_iff.mp hslot
    exact Option.map_eq_some_iff.mpr ⟨i, h.special which i hi, rfl⟩
  | var | arg | closure => exact hslot

/-- If a name has no variable, the special binding that it stands for is not made yet. -/
theorem Frame.Grows.specials_eq_none (h : f.Grows g) (hmade : f.Made) {name} (hspecial : f.special? name = some which)
    (hvar : g.scopes.findVar? name = none) : g.specials.get? which = none := by
  cases hget : g.specials.get? which with
  | none => rfl
  | some i =>
    -- the variable of the binding has its name
    obtain ⟨v, hv, hname, hlevel⟩ : ∃ v : Variable, g.scopes.vars[i]? = some v ∧ v.name = name ∧ v.scopeLevel = 0 := by
      have hname := Frame.name_of_special? hspecial
      rcases h.newSpecial which i hget with hold | ⟨-, v, hv, hmadeFor⟩
      · obtain ⟨rfl, v, hv, hthis, hlevel⟩ := hmade.specials which i hold
        obtain ⟨_, hv'⟩ := h.var i v hv
        exact ⟨_, hv', hthis.trans hname, hlevel⟩
      · exact ⟨v, hv, (Frame.name_of_special? hmadeFor.special).symm.trans hname, hmadeFor.level⟩
    have hnone := ScopeTree.findLast?_eq_none.mp hvar v (Array.mem_of_getElem? hv)
    simp [hname, hlevel] at hnone

theorem ScopeTree.lt_of_findLast? (h : findLast? p vars = some i) : i < vars.size := by
  obtain ⟨⟨_, hv, -⟩, -⟩ := findLast?_eq_some h
  exact (Array.getElem?_eq_some_iff.mp hv).1

/-- Looking a name up in one function, given what there is on the chain of the scope. -/
theorem Frame.find_eq {name scope inScope withs}
    (h : f.scopes.search name f.scopes.vars.size (f.scopes.first? scope) [] = (inScope, withs)) :
    f.find name scope = match inScope <|> f.scopes.findVar? name with
      | some idx => (some (.var idx), withs.map .var, f)
      | none =>
        match f.scopes.findArg? name with
        | some idx => (some (.arg idx), withs.map .var, f)
        | none =>
          match f.special? name with
          | some which => (some (.var (f.makeSpecial name which).1), withs.map .var, (f.makeSpecial name which).2)
          | none => ((f.closureVar? name).map .closure, withs.map .var, f) := by
  unfold Frame.find
  generalize f.scopes.search name f.scopes.vars.size (f.scopes.first? scope) [] = found at h
  cases h
  rfl

/-- What look-up in one function gives. -/
structure Frame.Found (f g : Frame) (name : Atom) (scope : Nat) (found : Option Slot) (withs : List Slot)
    (g' : Frame) : Prop where
  grows : g.Grows g'
  closureVars : g'.closureVars = g.closureVars
  hasWiths : ∀ slot ∈ withs, g'.HasSlot slot
  noWiths : f.scopes.lookup? .withObject scope = none → withs = []
  bound : ∀ place, f.bound? name scope = some place →
    ∃ slot, found = some slot ∧ g'.HasSlot slot ∧ g'.slot? place = some slot
  unbound : f.bound? name scope = none → found = (g.closureVar? name).map .closure ∧
    (f.role = .module → found = none) ∧ f.scopes.lookup? name scope = none

/-- The slot of a special binding that was not there yet. -/
theorem Frame.makeSpecial_slot (name : Atom) (h : f.specials.get? which = none) :
    (f.makeSpecial name which).2.closureVars = f.closureVars ∧
      (f.makeSpecial name which).2.HasSlot (.var (f.makeSpecial name which).1) ∧
      (f.makeSpecial name which).2.slot? (.special which) = some (.var (f.makeSpecial name which).1) := by
  obtain ⟨v, -, -, -, hmake⟩ := Frame.Grows.makeSpecial_of_new name h
  rw [hmake]
  refine ⟨rfl, Frame.hasSlot_var.mpr (by simp), ?_⟩
  rw [Frame.slot?, Specials.get?_set, if_pos rfl]
  rfl

/-- Along the chain of a scope, a frame that has grown has what it had before. -/
theorem Frame.Grows.search (h : f.Grows g) (hmade : f.Made) (name : Atom) (scope : Nat) :
    ∃ withs, g.scopes.search name g.scopes.vars.size (g.scopes.first? scope) [] =
        (f.scopes.lookup? name scope, withs) ∧
      (∀ idx ∈ withs, idx < g.scopes.vars.size) ∧ (f.scopes.lookup? .withObject scope = none → withs = []) := by
  have hsame : g.scopes.search name g.scopes.vars.size (g.scopes.first? scope) [] =
      f.scopes.search name f.scopes.vars.size (f.scopes.first? scope) [] := by
    rw [h.first?_eq]
    refine h.search_eq hmade.chained name (fun i hi => ?_) []
    have hlt := hmade.chained.first scope i hi
    exact ⟨hlt.trans_le h.size_le, hlt, hlt⟩
  refine ⟨_, hsame.trans (Prod.ext (ScopeTree.search_fst _ _ _) rfl), fun idx hidx => ?_, ScopeTree.search_snd []⟩
  exact ((ScopeTree.mem_search_snd hidx).resolve_left nofun).trans_le h.size_le

/-- Looking a name up in a frame that has grown finds what plain search finds, if that is anything. -/
theorem Frame.Grows.find (h : f.Grows g) (hmade : f.Made) (name : Atom) (scope : Nat)
    (hmodule : f.role = .module → g.closureVars = f.closureVars) :
    Frame.Found f g name scope (g.find name scope).1 (g.find name scope).2.1 (g.find name scope).2.2 := by
  obtain ⟨withs, hsearch, hwiths, hnoWiths⟩ := h.search hmade name scope
  have hfound : ∀ {found g'}, g.Grows g' → g'.closureVars = g.closureVars →
      (∀ place, f.bound? name scope = some place →
        ∃ slot, found = some slot ∧ g'.HasSlot slot ∧ g'.slot? place = some slot) →
      (f.bound? name scope = none → found = (g.closureVar? name).map .closure ∧
        (f.role = .module → found = none) ∧ f.scopes.lookup? name scope = none) →
      Frame.Found f g name scope found (withs.map .var) g' := by
    intro found g' hgrows hclosure hbound hunbound
    refine ⟨hgrows, hclosure, fun slot hslot => ?_, fun hnone => by rw [hnoWiths hnone]; rfl, hbound, hunbound⟩
    obtain ⟨idx, hidx, rfl⟩ := List.mem_map.mp hslot
    exact Frame.hasSlot_var.mpr ((hwiths idx hidx).trans_le hgrows.size_le)
  -- a place that is found and makes no difference to the frame
  have hplace : ∀ place {slot}, f.bound? name scope = some place → g.HasSlot slot → g.slot? place = some slot →
      Frame.Found f g name scope (some slot) (withs.map .var) g := by
    intro place slot hbound hhas hslot
    refine hfound (.refl g) rfl (fun place' hbound' => ?_) fun hnone => nomatch hnone.symm.trans hbound
    cases hbound.symm.trans hbound'
    exact ⟨slot, rfl, hhas, hslot⟩
  rw [Frame.find_eq hsearch]
  cases hlookup : f.scopes.lookup? name scope with
  | some idx =>
    refine hplace (.var idx) (by rw [Frame.bound?, hlookup]; rfl) (Frame.hasSlot_var.mpr ?_) rfl
    obtain ⟨v, hv, -⟩ := ScopeTree.exists_of_walk hlookup
    exact Nat.lt_of_lt_of_le (Array.getElem?_eq_some_iff.mp hv).1 h.size_le
  | none =>
    rcases h.findVar?_cases name with ⟨i, hvar, hvar'⟩ | ⟨hvar, hvar' | ⟨harg, i, which, hvar', hspecial, hget⟩⟩
    · rw [hvar']
      exact hplace (.var i) (by rw [Frame.bound?, hlookup, hvar]; rfl)
        (Frame.hasSlot_var.mpr (ScopeTree.lt_of_findLast? hvar')) rfl
    · rw [hvar', h.findArg?_eq, h.special?_eq]
      cases harg : f.scopes.findArg? name with
      | some idx =>
        refine hplace (.arg idx) (by rw [Frame.bound?, hlookup, hvar, harg]; rfl) ?_ rfl
        rw [Frame.hasSlot_arg, h.args_eq]
        exact ScopeTree.lt_of_findLast? harg
      | none =>
        cases hspecial : f.special? name with
        | some which =>
          have hbound : f.bound? name scope = some (.special which) := by
            rw [Frame.bound?, hlookup, hvar, harg, hspecial]
            rfl
          have hnew := h.specials_eq_none hmade hspecial hvar'
          have hgrows : g.Grows (g.makeSpecial name which).2 := .makeSpecial ((h.special?_eq name).trans hspecial) hnew
            hvar' ((h.findArg?_eq name).trans harg)
          obtain ⟨hclosure, hhas, hslot⟩ := Frame.makeSpecial_slot name hnew
          refine hfound hgrows hclosure (fun place hplace => ?_) fun hnone => nomatch hnone.symm.trans hbound
          cases hbound.symm.trans hplace
          exact ⟨_, rfl, hhas, hslot⟩
        | none =>
          have hbound : f.bound? name scope =
              if f.role = .module then (f.closureVar? name).map .closure else none := by
            rw [Frame.bound?, hlookup, hvar, harg, hspecial]
            rfl
          by_cases hrole : f.role = .module
          · have hsame : g.closureVar? name = f.closureVar? name := by
              rw [Frame.closureVar?, hmodule hrole, Frame.closureVar?]
            rw [if_pos hrole, ← hsame] at hbound
            cases hclosure : g.closureVar? name with
            | some k =>
              rw [hclosure] at hbound
              refine hplace (.closure k) hbound (Frame.hasSlot_closure.mpr ?_) rfl
              exact (Array.findIdx?_eq_some_iff_getElem.mp hclosure).1
            | none =>
              rw [hclosure] at hbound
              exact hfound (.refl g) rfl (fun place hplace => nomatch hbound.symm.trans hplace)
                fun _ => ⟨by rw [hclosure]; rfl, fun _ => rfl, hlookup⟩
          · rw [if_neg hrole] at hbound
            exact hfound (.refl g) rfl (fun place hplace => nomatch hbound.symm.trans hplace)
              fun _ => ⟨rfl, fun h => absurd h hrole, hlookup⟩
    · rw [hvar']
      refine hplace (.special which) (by rw [Frame.bound?, hlookup, hvar, harg, hspecial]; rfl)
        (Frame.hasSlot_var.mpr (ScopeTree.lt_of_findLast? hvar')) ?_
      rw [Frame.slot?, hget]
      rfl

end ScriptBytecode
