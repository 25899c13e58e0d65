import ScriptBytecode.Proofs.Naming.Frames

/-!
# Nested functions while names are resolved

`Stack` is the invariant of look-up: the frames have grown from those that were emitted, and every closure variable
leads to what plain search finds for its name. So look-up finds what plain search finds, whatever was looked up
before it.
-/

namespace ScriptBytecode

variable {scope : Nat} {name : Atom} {slot : Slot} {S S' E : List Frame} {withs : List Slot}

/-! ## Closure variables -/

namespace Slot

def index : Slot → Nat
  | var idx | arg idx | closure idx => idx

def isLocal : Slot → Bool
  | var _ | arg _ => true
  | closure _ => false

def isArg : Slot → Bool
  | arg _ => true
  | _ => false

end Slot

/-- The closure variable is for a slot of the enclosing function, up to the sixteen bits of its index. -/
structure ClosureVar.RefersTo (c : ClosureVar) (slot : Slot) : Prop where
  isLocal : c.isLocal = slot.isLocal
  isArg : c.isArg = slot.isArg
  varIdx : c.varIdx = slot.index % 0x10000

/-- From a slot of the innermost function, closure variables lead to a place further out. -/
inductive Finds : List Frame → Slot → Nat × Place → Prop
  | here {f : Frame} {outer : List Frame} {slot : Slot} {place : Place} (has : f.HasSlot slot)
      (slot_eq : f.slot? place = some slot) : Finds (f :: outer) slot (0, place)
  | outside {f : Frame} {outer : List Frame} {k depth : Nat} {c : ClosureVar} {slot : Slot} {place : Place}
      (closureVar : f.closureVars[k]? = some c) (refers : c.RefersTo slot) (next : Finds outer slot (depth, place)) :
      Finds (f :: outer) (.closure k) (depth + 1, place)

/-- The functions before and after some names were looked up. -/
abbrev Grow : List Frame → List Frame → Prop :=
  List.Forall₂ Frame.Grows

theorem Grow.refl (S : List Frame) : Grow S S :=
  List.forall₂_same.mpr fun f _ => .refl f

theorem Grow.trans {S''} (h : Grow S S') (h' : Grow S' S'') : Grow S S'' := by
  induction h generalizing S'' with
  | nil => exact h'
  | cons hfirst _ ih =>
    cases h' with
    | cons hfirst' hrest' => exact .cons (hfirst.trans hfirst') (ih hrest')

/-- The innermost of some functions has the slot. -/
def HasSlot (S : List Frame) (slot : Slot) : Prop :=
  ∃ f ∈ S.head?, f.HasSlot slot

theorem HasSlot.grow (h : HasSlot S slot) (hgrow : Grow S S') : HasSlot S' slot := by
  obtain ⟨f, hf, hslot⟩ := h
  cases hgrow with
  | nil => cases hf
  | cons hfirst =>
    cases hf
    exact ⟨_, rfl, hfirst.hasSlot hslot⟩

theorem Finds.grow {p} (h : Finds S slot p) (hgrow : Grow S S') : Finds S' slot p := by
  induction h generalizing S' with
  | here has slot_eq =>
    cases hgrow with
    | cons hfirst => exact .here (hfirst.hasSlot has) (hfirst.slot? slot_eq)
  | outside closureVar refers _ ih =>
    cases hgrow with
    | cons hfirst hrest => exact .outside (hfirst.closureVar _ _ closureVar) refers (ih hrest)

/-! ## The invariant -/

/-- Why a slot may be captured under a name: plain search finds it, or it is the object of a `with` statement. -/
def Justified (E S : List Frame) (scope : Nat) (name : Atom) (slot : Slot) : Prop :=
  name = .withObject ∧ underWith scope E = true ∨ ∃ p, plainSearch name scope E = some p ∧ Finds S slot p

/-- A closure variable of a function that stands in `scope` of the functions around it. -/
def Captured (E S : List Frame) (scope : Nat) (c : ClosureVar) : Prop :=
  ∃ slot, c.RefersTo slot ∧ (∃ f ∈ S.head?, f.traits? slot = some c.traits) ∧ Justified E S scope c.name slot

theorem Justified.grow (h : Justified E S scope name slot) (hgrow : Grow S S') : Justified E S' scope name slot :=
  h.imp_right fun ⟨p, hp, hfinds⟩ => ⟨p, hp, hfinds.grow hgrow⟩

/-- Unless it is the name for objects of `with` statements, a name is captured because plain search finds it. -/
theorem Justified.finds (h : Justified E S scope name slot) (hname : name ≠ .withObject ∨ underWith scope E = false) :
    ∃ p, plainSearch name scope E = some p ∧ Finds S slot p := by
  rcases h with ⟨hwithObject, hwith⟩ | hfinds
  · rcases hname with hname | hname
    · exact absurd hwithObject hname
    · exact nomatch hwith.symm.trans hname
  · exact hfinds

theorem Captured.grow {c} (h : Captured E S scope c) (hgrow : Grow S S') : Captured E S' scope c := by
  obtain ⟨slot, hrefers, ⟨f, hf, htraits⟩, hname⟩ := h
  refine ⟨slot, hrefers, ?_, hname.grow hgrow⟩
  cases hgrow with
  | nil => cases hf
  | cons hfirst =>
    cases hf
    exact ⟨_, rfl, hfirst.traits? htraits⟩

/-- Nested functions as they were emitted, and as they are while their names are resolved. -/
inductive Stack : List Frame → List Frame → Prop
  | nil : Stack [] []
  | outermost {e f : Frame} (made : e.Made) (grows : e.Grows f) (closureVars : f.closureVars = e.closureVars) :
      Stack [e] [f]
  | nested {e f e' : Frame} {E S : List Frame} (made : e.Made) (grows : e.Grows f)
      (isNested : e.role.isTopLevel = false) (captured : ∀ c ∈ f.closureVars, Captured (e' :: E) S e.parentScope c)
      (outer : Stack (e' :: E) S) : Stack (e :: e' :: E) (f :: S)

namespace Stack

variable {e f f' : Frame} {E S S' : List Frame}

theorem eq_nil (h : Stack [] S) : S = [] := by
  cases h
  rfl

section

variable (h : Stack (e :: E) (f :: S))
include h

theorem made : e.Made := by
  cases h with
  | outermost made => exact made
  | nested made => exact made

theorem grows : e.Grows f := by
  cases h with
  | outermost _ grows => exact grows
  | nested _ grows => exact grows

/-- Arguments are plain variables. -/
theorem args : ∀ v ∈ f.scopes.args, v = .plain v.name := by
  rw [h.grows.args_eq]
  exact h.made.args

theorem tail : Stack E S := by
  cases h with
  | outermost => exact .nil
  | nested _ _ _ _ outer => exact outer

omit h in
theorem enter (h : Stack E S) (hmade : e.Made) (hnested : E ≠ [] → e.role.isTopLevel = false) :
    Stack (e :: E) (e :: S) := by
  cases E with
  | nil =>
    cases h
    exact .outermost hmade (.refl e) rfl
  | cons e' E =>
    have hrole := hnested nofun
    refine .nested hmade (.refl e) hrole (fun c hc => ?_) h
    rw [hmade.closureVars fun hmodule => by rw [hmodule] at hrole; cases hrole] at hc
    exact absurd hc (Array.not_mem_empty c)

omit h in
/-- The innermost frame grows, and its closure variables stay. -/
theorem head (h : Stack E (f :: S)) (hgrows : f.Grows f') (hclosure : f'.closureVars = f.closureVars) :
    Stack E (f' :: S) := by
  cases h with
  | outermost made grows closureVars => exact .outermost made (grows.trans hgrows) (hclosure.trans closureVars)
  | nested made grows isNested captured outer =>
    exact .nested made (grows.trans hgrows) isNested (hclosure ▸ captured) outer

/-- The functions around the innermost one grow. -/
theorem outer (hS : Stack E S') (hgrow : Grow S S') : Stack (e :: E) (f :: S') := by
  cases h with
  | outermost made grows closureVars =>
    cases hS
    exact .outermost made grows closureVars
  | nested made grows isNested captured =>
    exact .nested made grows isNested (fun c hc => (captured c hc).grow hgrow) hS

end

/-- The closure variable for a slot. -/
theorem refersTo_refer (g : Frame) (name : Atom) (slot : Slot) :
    ClosureVar.RefersTo { g.refer name slot with varIdx := (g.refer name slot).varIdx % 0x10000 } slot := by
  cases slot <;> exact ⟨rfl, rfl, rfl⟩

theorem index_refer (g : Frame) (name : Atom) (slot : Slot) : (g.refer name slot).isLocal = slot.isLocal ∧
    (g.refer name slot).isArg = slot.isArg ∧ (g.refer name slot).varIdx = slot.index := by
  cases slot <;> exact ⟨rfl, rfl, rfl⟩

/-- What a captured slot becomes. -/
structure Capturing (e : Frame) (E : List Frame) (f : Frame) (S : List Frame) (slot : Slot)
    (r : Slot × Frame × List Frame) : Prop where
  stack : Stack (e :: E) (r.2.1 :: r.2.2)
  grows : f.Grows r.2.1
  grow : Grow S r.2.2
  hasSlot : r.2.1.HasSlot r.1
  finds : ∀ depth place, Finds S slot (depth, place) → Finds (r.2.1 :: r.2.2) r.1 (depth + 1, place)

theorem capture {slot name} (h : Stack (e :: E) (f :: S)) (hslot : HasSlot S slot)
    (hname : Justified E S e.parentScope name slot) : Capturing e E f S slot (capture name f slot S) := by
  obtain ⟨g, hg, hhas⟩ := hslot
  cases h with
  | outermost => cases hg
  | @nested _ _ e' E S made grows isNested captured outer =>
    cases S with
    | nil => cases hg
    | cons g' T =>
      cases hg
      have hgrow : Grow (g :: T) (g.markCaptured slot :: T) := .cons (.markCaptured g slot) (Grow.refl T)
      have houter : Stack (e' :: E) (g.markCaptured slot :: T) := by
        refine outer.head (.markCaptured g slot) ?_
        cases slot <;> rfl
      have hfinds : ∀ {f' k c}, f'.closureVars[k]? = some c → c.RefersTo slot → ∀ depth place,
          Finds (g :: T) slot (depth, place) →
            Finds (f' :: g.markCaptured slot :: T) (.closure k) (depth + 1, place) :=
        fun hk hrefers _ _ h => .outside hk hrefers (h.grow hgrow)
      obtain ⟨hlocal, harg, hidx⟩ := index_refer g name slot
      unfold ScriptBytecode.capture Frame.addClosureVar
      dsimp only
      split
      · -- there is a closure variable for the slot already
        rename_i k hk
        obtain ⟨hlt, hsame, -⟩ := Array.findIdx?_eq_some_iff_getElem.mp hk
        have hget := Array.getElem?_eq_getElem hlt
        simp only [Bool.and_eq_true, beq_iff_eq] at hsame
        obtain ⟨slot', hrefers', -, -⟩ := captured _ (Array.getElem_mem hlt)
        have hrefers : f.closureVars[k].RefersTo slot := by
          refine ⟨hsame.1.1.trans hlocal, hsame.1.2.trans harg, ?_⟩
          have hindex : f.closureVars[k].varIdx = slot.index := hsame.2.trans hidx
          have hmod := hrefers'.varIdx
          omega
        exact ⟨.nested made grows isNested (fun c hc => (captured c hc).grow hgrow) houter, .refl f, hgrow,
          Frame.hasSlot_closure.mpr hlt, hfinds hget hrefers⟩
      · have hrefers := refersTo_refer g name slot
        obtain ⟨τ, hτ⟩ := Option.isSome_iff_exists.mp hhas
        have htraits : g.traits? slot = some (g.refer name slot).traits := by
          rw [hτ, g.traits_refer, Frame.traits_binding outer.args hτ]
        refine ⟨.nested made (grows.trans (.addClosureVar f _)) isNested (fun c hc => ?_) houter,
          .addClosureVar f _, hgrow, Frame.hasSlot_closure.mpr (by simp), hfinds Array.getElem?_push_size hrefers⟩
        rcases Array.mem_push.mp hc with hc | rfl
        · exact (captured c hc).grow hgrow
        · have hname' : (g.refer name slot).name = name := by cases slot <;> rfl
          have hjustified := hname.grow hgrow
          rw [← hname'] at hjustified
          exact ⟨slot, hrefers, ⟨_, rfl, (Frame.Grows.markCaptured g slot).traits? htraits⟩, hjustified⟩

/-- Objects of `with` statements are captured one after the other. -/
theorem captureAll {slots} (h : Stack (e :: E) (f :: S))
    (hslots : ∀ slot ∈ slots, HasSlot S slot ∧ underWith e.parentScope E) :
    Stack (e :: E) ((captureAll .withObject slots f S).2.1 :: (captureAll .withObject slots f S).2.2) ∧
      f.Grows (captureAll .withObject slots f S).2.1 ∧ Grow S (captureAll .withObject slots f S).2.2 ∧
      ∀ slot ∈ (captureAll .withObject slots f S).1, (captureAll .withObject slots f S).2.1.HasSlot slot := by
  induction slots generalizing f S with
  | nil => exact ⟨h, .refl f, .refl S, nofun⟩
  | cons slot rest ih =>
    rw [List.forall_mem_cons] at hslots
    obtain ⟨⟨hslot, hwith⟩, hrest⟩ := hslots
    have hone := h.capture hslot (.inl ⟨rfl, hwith⟩)
    obtain ⟨hstack, hgrows, hgrow, hhas⟩ :=
      ih hone.stack fun s hs => ⟨(hrest s hs).1.grow hone.grow, (hrest s hs).2⟩
    refine ⟨hstack, hone.grows.trans hgrows, hone.grow.trans hgrow, fun s hs => ?_⟩
    rcases List.mem_cons.mp hs with rfl | hs
    · exact hgrows.hasSlot hone.hasSlot
    · exact hhas s hs

/-! ## Look-up -/

/-- What looking a name up in nested functions gives. Of the internal name for objects of `with` statements it says
nothing where there are such objects. -/
structure Looked (E S : List Frame) (name : Atom) (scope : Nat) (r : Option Slot × List Slot × List Frame) : Prop where
  stack : Stack E r.2.2
  grow : Grow S r.2.2
  hasFound : ∀ slot ∈ r.1, HasSlot r.2.2 slot
  hasWiths : ∀ slot ∈ r.2.1, HasSlot r.2.2 slot
  noWiths : underWith scope E = false → r.2.1 = []
  finds : name ≠ .withObject ∨ underWith scope E = false → ∀ p, plainSearch name scope E = some p →
    ∃ slot, r.1 = some slot ∧ Finds r.2.2 slot p
  global : name ≠ .withObject ∨ underWith scope E = false → plainSearch name scope E = none → r.1 = none

theorem plainSearch_of_bound {place} (h : e.bound? name scope = some place) :
    plainSearch name scope (e :: E) = some (0, place) := by
  rw [plainSearch, h]

theorem plainSearch_of_unbound (h : e.bound? name scope = none) :
    plainSearch name scope (e :: E) =
      (plainSearch name e.parentScope E).map fun (depth, place) => (depth + 1, place) := by
  rw [plainSearch, h]

theorem underWith_cons (e : Frame) (E : List Frame) (scope : Nat) : underWith scope (e :: E) = false ↔
    e.scopes.lookup? .withObject scope = none ∧ underWith e.parentScope E = false := by
  rw [underWith, Bool.or_eq_false_iff, Option.isSome_eq_false_iff, Option.isNone_iff_eq_none]

theorem outer_of_underWith (h : name ≠ .withObject ∨ underWith scope (e :: E) = false) :
    name ≠ .withObject ∨ underWith e.parentScope E = false :=
  h.imp_right fun hwith => ((underWith_cons e E scope).mp hwith).2

/-- What plain search does not find in the function is one of its closure variables. -/
theorem closure_of_unbound (h : Stack (e :: E) (f :: S)) (hfound : Frame.Found e f name scope (some slot) withs f')
    (hbound : e.bound? name scope = none) :
    ∃ k c, slot = .closure k ∧ f'.closureVars[k]? = some c ∧ c.name = name ∧ Captured E S e.parentScope c := by
  obtain ⟨hslot, hmodule, -⟩ := hfound.unbound hbound
  obtain ⟨k, hk, rfl⟩ := Option.map_eq_some_iff.mp hslot.symm
  obtain ⟨hlt, hname, -⟩ := Array.findIdx?_eq_some_iff_getElem.mp hk
  have hget : f'.closureVars[k]? = some f.closureVars[k] := by
    rw [hfound.closureVars]
    exact Array.getElem?_eq_getElem hlt
  refine ⟨k, _, rfl, hget, eq_of_beq hname, ?_⟩
  cases h with
  | outermost made grows closureVars =>
    -- at the top only modules have closure variables
    by_cases hrole : e.role = .module
    · exact nomatch hmodule hrole
    · rw [closureVars, made.closureVars hrole] at hlt
      exact absurd hlt (Nat.not_lt_zero k)
  | nested _ _ _ captured => exact captured _ (Array.getElem_mem hlt)

/-- A name that the function itself finds. -/
theorem looked_of_found (h : Stack (e :: E) (f :: S)) (hfound : Frame.Found e f name scope (some slot) withs f') :
    Looked (e :: E) (f :: S) name scope (some slot, withs, f' :: S) := by
  have hstack := h.head hfound.grows hfound.closureVars
  have hgrow : Grow (f :: S) (f' :: S) := .cons hfound.grows (Grow.refl S)
  refine ⟨hstack, hgrow, fun s hs => ⟨f', rfl, ?_⟩, fun s hs => ⟨f', rfl, hfound.hasWiths s hs⟩,
    fun hwith => hfound.noWiths ((underWith_cons e E scope).mp hwith).1, fun hname p hp => ⟨slot, rfl, ?_⟩,
    fun hname hp => ?_⟩
  · cases hs
    cases hbound : e.bound? name scope with
    | some place =>
      obtain ⟨_, heq, hhas, -⟩ := hfound.bound place hbound
      cases heq
      exact hhas
    | none =>
      obtain ⟨k, c, rfl, hc, -⟩ := h.closure_of_unbound hfound hbound
      exact Frame.hasSlot_closure.mpr (Array.getElem?_eq_some_iff.mp hc).1
  · cases hbound : e.bound? name scope with
    | some place =>
      obtain ⟨_, heq, hhas, hslot⟩ := hfound.bound place hbound
      cases heq
      rw [plainSearch_of_bound hbound] at hp
      cases hp
      exact .here hhas hslot
    | none =>
      obtain ⟨k, c, rfl, hc, rfl, slot', hrefers, -, hjustified⟩ := h.closure_of_unbound hfound hbound
      obtain ⟨p', hp', hfinds⟩ := hjustified.finds (outer_of_underWith hname)
      rw [plainSearch_of_unbound hbound, hp'] at hp
      cases hp
      exact .outside hc hrefers hfinds
  · cases hbound : e.bound? name scope with
    | some place => exact nomatch (plainSearch_of_bound hbound).symm.trans hp
    | none =>
      obtain ⟨k, c, rfl, hc, rfl, slot', hrefers, -, hjustified⟩ := h.closure_of_unbound hfound hbound
      obtain ⟨p', hp', -⟩ := hjustified.finds (outer_of_underWith hname)
      rw [plainSearch_of_unbound hbound, hp'] at hp
      cases hp

/-- A name that is looked up further out. -/
theorem looked_of_outer {outerWiths found} (h : Stack (e :: E) (f :: S))
    (hfound : Frame.Found e f name scope none withs f')
    (hlooked : Looked E S name e.parentScope (found, outerWiths, S')) :
    let (captured, f'', S'') := ScriptBytecode.captureAll .withObject outerWiths f' S'
    Looked (e :: E) (f :: S) name scope (found.elim (none, withs ++ captured, f'' :: S'') fun slot =>
      let (slot, f'', S'') := ScriptBytecode.capture name f'' slot S''
      (some slot, withs ++ captured, f'' :: S'')) := by
  have hbound : e.bound? name scope = none := by
    cases hbound : e.bound? name scope with
    | none => rfl
    | some place =>
      obtain ⟨_, hsome, -⟩ := hfound.bound place hbound
      cases hsome
  have hsearch := plainSearch_of_unbound (E := E) hbound
  have hstack : Stack (e :: E) (f' :: S') :=
    (h.head hfound.grows hfound.closureVars).outer hlooked.stack hlooked.grow
  obtain ⟨hstack', hgrows, hgrow, hhas⟩ := hstack.captureAll fun slot (hslot : slot ∈ outerWiths) => by
    refine ⟨hlooked.hasWiths slot hslot, ?_⟩
    cases hwith : underWith e.parentScope E with
    | true => rfl
    | false =>
      have hnil : outerWiths = [] := hlooked.noWiths hwith
      rw [hnil] at hslot
      cases hslot
  have hnone : underWith scope (e :: E) = false →
      withs ++ (ScriptBytecode.captureAll .withObject outerWiths f' S').1 = [] := by
    intro hwith
    obtain ⟨hhere, hout⟩ := (underWith_cons e E scope).mp hwith
    have hnil : outerWiths = [] := hlooked.noWiths hout
    rw [hfound.noWiths hhere, hnil]
    rfl
  generalize ScriptBytecode.captureAll .withObject outerWiths f' S' = r at hstack' hgrows hgrow hhas hnone ⊢
  obtain ⟨captured, f'', S''⟩ := r
  have hwiths : ∀ slot ∈ withs ++ captured, f''.HasSlot slot := by
    intro slot hslot
    rcases List.mem_append.mp hslot with hslot | hslot
    · exact hgrows.hasSlot (hfound.hasWiths slot hslot)
    · exact hhas slot hslot
  cases found with
  | none =>
    refine ⟨hstack', .cons (hfound.grows.trans hgrows) (hlooked.grow.trans hgrow), nofun,
      fun slot hslot => ⟨f'', rfl, hwiths slot hslot⟩, hnone, fun hname p hp => ?_, fun _ _ => rfl⟩
    rw [hsearch] at hp
    obtain ⟨p', hp', -⟩ := Option.map_eq_some_iff.mp hp
    obtain ⟨_, hsome, -⟩ := hlooked.finds (outer_of_underWith hname) p' hp'
    cases hsome
  | some slot =>
    have hjustified : Justified E S'' e.parentScope name slot := by
      by_cases hname : name = .withObject ∧ underWith e.parentScope E = true
      · exact .inl hname
      · have hname' : name ≠ .withObject ∨ underWith e.parentScope E = false := by
          simpa [Classical.or_iff_not_imp_left] using hname
        cases hp : plainSearch name e.parentScope E with
        | none => exact nomatch hlooked.global hname' hp
        | some p =>
          obtain ⟨_, heq, hfinds⟩ := hlooked.finds hname' p hp
          cases heq
          exact .inr ⟨p, hp, hfinds.grow hgrow⟩
    have hcapturing := hstack'.capture ((hlooked.hasFound slot rfl).grow hgrow) hjustified
    refine ⟨hcapturing.stack,
      .cons ((hfound.grows.trans hgrows).trans hcapturing.grows) ((hlooked.grow.trans hgrow).trans hcapturing.grow),
      fun s hs => ⟨_, rfl, ?_⟩, fun s hs => ⟨_, rfl, hcapturing.grows.hasSlot (hwiths s hs)⟩, hnone,
      fun hname p hp => ⟨_, rfl, ?_⟩, fun hname hp => ?_⟩
    · cases hs
      exact hcapturing.hasSlot
    · rw [hsearch] at hp
      obtain ⟨⟨depth, place⟩, hp', rfl⟩ := Option.map_eq_some_iff.mp hp
      obtain ⟨_, heq, hfinds⟩ := hlooked.finds (outer_of_underWith hname) _ hp'
      cases heq
      exact hcapturing.finds depth place (hfinds.grow hgrow)
    · rw [hsearch, Option.map_eq_none_iff] at hp
      exact nomatch hlooked.global (outer_of_underWith hname) hp

/-- Look-up finds what plain search finds, and keeps the invariant. -/
theorem lookup (h : Stack E S) (name : Atom) (scope : Nat) :
    Looked E S name scope (ScriptBytecode.lookup name scope S) := by
  induction S generalizing E scope with
  | nil =>
    cases h
    exact ⟨.nil, .nil, nofun, nofun, fun _ => rfl, nofun,
      fun _ _ => rfl⟩
  | cons f S ih =>
    cases E with
    | nil => cases h
    | cons e E =>
      have hmodule : e.role = .module → f.closureVars = e.closureVars := by
        intro hrole
        cases h with
        | outermost _ _ closureVars => exact closureVars
        | nested _ _ isNested =>
          rw [hrole] at isNested
          cases isNested
      have hfound := h.grows.find h.made name scope hmodule
      unfold ScriptBytecode.lookup
      split
      · rename_i slot withs f' hfind
        rw [hfind] at hfound
        exact h.looked_of_found hfound
      · rename_i withs f' hfind
        rw [hfind] at hfound
        have hscope : f'.parentScope = e.parentScope := (h.grows.trans hfound.grows).parentScope_eq
        have hlooked := ih h.tail e.parentScope
        rw [hscope]
        generalize ScriptBytecode.lookup name e.parentScope S = r at hlooked ⊢
        obtain ⟨found, outerWiths, S'⟩ := r
        have hresult := h.looked_of_outer hfound hlooked
        cases found with
        | none => exact hresult
        | some slot => exact hresult

end Stack

end ScriptBytecode
