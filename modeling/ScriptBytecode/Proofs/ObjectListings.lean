import ScriptBytecode.Listing
import ScriptBytecode.Proofs.ObjectCopies

/-!
# Listings of copies

A listing shows atoms by their names and objects by their kind. With other atoms of the same names, in code and
everywhere else, it stays as it is, and so do the names in an inline cache.
-/

namespace ScriptBytecode

open Object (WriteOptions recode recode_mod recode_of_decode decodeFinal_recode atomSites atomSites_map)

variable {a : Atom} {α : Type}

/-- The atoms of one table with atoms of another one that have the same names. -/
structure SameNames (t t' : AtomTable) (ρ : Atom → Atom) (S : Atom → Prop) : Prop where
  name : ∀ a, S a → t'.name? (ρ a) = t.name? a
  display : ∀ a, S a → t'.display (ρ a) = t.display a
  handle : ∀ a, S a → (ρ a).id < 0x100000000
  injective : ∀ a b, S a → S b → ρ a = ρ b → a = b

/-- All atoms that a listing of the function shows, but for those of its constants. -/
structure FunctionRecord.Shows (S : Atom → Prop) (f : FunctionRecord) : Prop where
  name : S f.name
  slotVars : ∀ v ∈ f.slotVars, S v.name
  closureVars : ∀ v ∈ f.closureVars, S v.name
  code : ∀ instrs, decodeFinal f.code = .ok instrs → ∀ site ∈ atomSites instrs, S site.2

variable {t t' : AtomTable} {ρ σ : Atom → Atom} {S P : Atom → Prop} {o : WriteOptions} {I J : Nat → Nat → Prop}

/-! ## Code -/

/-- Every atom of an instruction is one of the atoms of the code. -/
theorem Decode.Reads.exists_site {total pos bytes code} (h : Decode.Reads .final total pos bytes code) {here}
    (hmem : here ∈ code) (ha : here.instr.arg.atom? = some a) : ∃ site ∈ atomSites code, site.2 = a := by
  have hatom : here.instr.op.format.hasAtom := by
    induction h with
    | nil => cases hmem
    | @cons pos b bytes rest i code hi _ ih =>
      rcases List.mem_cons.mp hmem with rfl | hmem
      · by_contra hnot
        have hnone := Shape.atom?_of_fits (Bool.not_eq_true _ ▸ hnot) (Decode.instr_bounds hi).1
        exact nomatch hnone.symm.trans ha
      · exact ih hmem
  refine ⟨(here.pos + 1, a), List.mem_filterMap.mpr ⟨here, hmem, ?_⟩, rfl⟩
  simp [hatom, ha]

theorem decodeFinal_rename (hnames : SameNames t t' ρ S) {code}
    (hcode : ∀ instrs, decodeFinal code = .ok instrs → ∀ site ∈ atomSites instrs, S site.2) :
    decodeFinal (recode (fun a => (ρ a).id) code) = (decodeFinal code).map (List.map (Located.mapAtom ρ)) := by
  cases hdecode : decodeFinal code with
  | error e => rw [recode, hdecode]; exact hdecode
  | ok instrs =>
    exact decodeFinal_recode hdecode fun site hsite => hnames.handle site.2 (hcode instrs hdecode site hsite)

/-- Copies of code with different numbers differ. -/
theorem eq_of_recode_eq {code instrs} (hdecode : decodeFinal code = .ok instrs)
    (h : recode (fun a => (ρ a).id) code = recode (fun a => (σ a).id) code) :
    ∀ site ∈ atomSites instrs, (ρ site.2).id % 0x100000000 = (σ site.2).id % 0x100000000 := by
  have hread : ∀ τ : Atom → Atom, decodeFinal (recode (fun a => (τ a).id) code)
      = .ok (instrs.map (Located.mapAtom fun a => ⟨(τ a).id % Nat.pow 256 4⟩)) := by
    intro τ
    rw [← recode_mod]
    exact decodeFinal_recode hdecode fun site _ => Nat.mod_lt _ (by decide)
  have hsame := (hread ρ).symm.trans ((congrArg decodeFinal h).trans (hread σ))
  have hsites := congrArg atomSites (Except.ok.inj hsame)
  rw [atomSites_map, atomSites_map, List.map_inj_left] at hsites
  intro site hsite
  exact congrArg (fun site : Nat × Atom => site.2.id) (hsites site hsite)

/-! ## Inline caches -/

/-- A cache with its names in place of atoms. -/
def InlineCache.names (t : AtomTable) (c : InlineCache) : List (Option String × Nat) :=
  c.map fun slot => (t.name? slot.atom, slot.uses)

def CacheSlot.rename (ρ : Atom → Atom) (slot : CacheSlot) : CacheSlot :=
  { slot with atom := ρ slot.atom }

variable {c : InlineCache}

/-- What a copy of a function has in its fields. -/
structure FunctionRecord.HeadCopied (o : WriteOptions) (ρ : Atom → Atom) (f g : FunctionRecord) : Prop where
  name : g.name = ρ f.name
  argCount : g.argCount = f.argCount
  varCount : g.varCount = f.varCount
  stackSize : g.stackSize = f.stackSize
  slotVars : g.slotVars = f.slotVars.map (·.rename ρ)
  closureVars : g.closureVars = f.closureVars.map (·.rename ρ)
  code : g.code = recode (fun a => (ρ a).id) f.code
  debug : g.debug = (o.shown f.debug).map (·.stored o ρ)
  cache : g.cache = .of (recode (fun a => (ρ a).id) f.code)

variable {f g : FunctionRecord}

theorem FunctionRecord.headCopied (h : g.head = (f.stored o ρ).head) : f.HeadCopied o ρ g := by
  obtain ⟨name, flags, kind, mode, args, vars, defined, stack, slotVars, closure, code, debug, constants, cache⟩ := f
  obtain ⟨name', flags', kind', mode', args', vars', defined', stack', slotVars', closure', code', debug', constants',
    cache'⟩ := g
  simp only [FunctionRecord.head, FunctionRecord.stored, FunctionRecord.mk.injEq] at h
  obtain ⟨hname, -, -, -, hargs, hvars, -, hstack, hslots, hclosure, hcode, hdebug, -, hcache⟩ := h
  exact ⟨hname, hargs, hvars, hstack, hslots, hclosure, hcode, hdebug, hcache⟩

namespace Listing

theorem item?_map {β : Type} (f : α → β) (xs : List α) (i : Int) : item? (xs.map f) i = (item? xs i).map f := by
  unfold item?
  split
  · rfl
  · rw [List.getElem?_map]

theorem mem_of_item? {xs : List α} {i : Int} {x : α} (h : item? xs i = some x) : x ∈ xs := by
  unfold item? at h
  split at h
  · cases h
  · exact List.mem_of_getElem? h

variable (hnames : SameNames t t' ρ S)

include hnames

/-- A slot of a list of variables, the names of which are renamed. -/
theorem slot_map {xs} (rename : α → α) {name} (hrename : ∀ x, name (rename x) = ρ (name x)) (hxs : ∀ x ∈ xs, S (name x))
    (i : Int) : slot t' i ((item? (xs.map rename) i).map name) = slot t i ((item? xs i).map name) := by
  unfold slot
  rw [item?_map]
  cases hitem : item? xs i with
  | none => rfl
  | some x => simp [hrename, hnames.display _ (hxs x (mem_of_item? hitem))]

variable {f g : FunctionRecord} (hshows : f.Shows S) (hcopied : f.HeadCopied o ρ g)

include hshows hcopied

theorem slot_locals (n : Int) :
    slot t' n ((item? g.locals n).map (·.name)) = slot t n ((item? f.locals n).map (·.name)) := by
  rw [FunctionRecord.locals, FunctionRecord.locals, hcopied.slotVars, hcopied.argCount, ← List.map_drop]
  exact slot_map hnames (Variable.rename ρ) (fun _ => rfl) (fun v hv => hshows.slotVars v (List.mem_of_mem_drop hv)) n

theorem slot_args (n : Int) :
    slot t' n ((item? g.args n).map (·.name)) = slot t n ((item? f.args n).map (·.name)) := by
  rw [FunctionRecord.args, FunctionRecord.args, hcopied.slotVars, hcopied.argCount, ← List.map_take]
  exact slot_map hnames (Variable.rename ρ) (fun _ => rfl) (fun v hv => hshows.slotVars v (List.mem_of_mem_take hv)) n

theorem slot_closureVars (n : Int) :
    slot t' n ((item? g.closureVars n).map (·.name)) = slot t n ((item? f.closureVars n).map (·.name)) := by
  rw [hcopied.closureVars]
  exact slot_map hnames (ClosureVar.rename ρ) (fun _ => rfl) (fun v hv => hshows.closureVars v hv) n

/-- An operand is shown alike, if the constants are. -/
theorem operand_copy {i : Instr} (hatom : ∀ a, i.arg.atom? = some a → S a)
    (hconstant : ∀ n, (item? g.constants n).elim "?" (constant t') = (item? f.constants n).elim "?" (constant t)) :
    operand g t' ⟨i.op, i.arg.mapAtom ρ⟩ = operand f t i := by
  obtain ⟨op, arg⟩ := i
  unfold operand
  dsimp only
  generalize op.format = format
  cases arg with
  | int n =>
    have hlocals := slot_locals hnames hshows hcopied n
    have hargs := slot_args hnames hshows hcopied n
    have hclosure := slot_closureVars hnames hshows hcopied n
    cases format <;> simp only [Operand.mapAtom, hconstant n, hlocals, hargs, hclosure]
  | atom a =>
    have hshown := hnames.display a (hatom a rfl)
    cases format <;> exact hshown
  | atomInt a n =>
    have hshown := hnames.display a (hatom a rfl)
    cases format <;> simp only [Operand.mapAtom, hshown]
  | atomLabel a l n =>
    have hshown := hnames.display a (hatom a rfl)
    cases format <;> simp only [Operand.mapAtom, hshown]
  | none | label | labelInt | intPair => cases format <;> rfl

theorem heading_copy : heading g t' = heading f t := by
  have hlength : g.closureVars.length = f.closureVars.length := by rw [hcopied.closureVars, List.length_map]
  unfold heading
  rw [hcopied.name, hnames.display _ hshows.name, hcopied.argCount, hcopied.varCount, hcopied.stackSize, hlength]

/-- The lines of code are the same. -/
theorem code_copy (hconstant : ∀ n, (item? g.constants n).elim "?" (constant t')
      = (item? f.constants n).elim "?" (constant t)) {instrs}
    (hatoms : ∀ here ∈ instrs, ∀ a, here.instr.arg.atom? = some a → S a) (lines : LineTable) (done : Array String) :
    code g t' lines (instrs.map (Located.mapAtom ρ)) done = code f t lines instrs done := by
  induction instrs generalizing lines done with
  | nil => rfl
  | cons here rest ih =>
    rw [List.forall_mem_cons] at hatoms
    have hoperand := operand_copy hnames hshows hcopied hatoms.1 hconstant
    have hline : instruction g t' (here.mapAtom ρ) = instruction f t here := by
      unfold instruction
      rw [show (here.mapAtom ρ).instr = ⟨here.instr.op, here.instr.arg.mapAtom ρ⟩ from rfl, hoperand]
      rfl
    rw [List.map_cons, code, code, hline]
    exact ih hatoms.2 _ _

/-- The lines of a copy of a function, if its constants are shown alike. -/
theorem body_copy (hdebug : o.stripDebug = false) (hconstant : ∀ n, (item? g.constants n).elim "?" (constant t')
      = (item? f.constants n).elim "?" (constant t)) : body g t' = body f t := by
  have hinfo : g.debug = f.debug.map (·.stored o ρ) := by
    rw [hcopied.debug, WriteOptions.shown, hdebug]
    rfl
  have hheading := heading_copy hnames hshows hcopied
  have hdecode := decodeFinal_rename hnames hshows.code
  have hrest : ∀ lines, (do return code g t' lines (← decodeFinal g.code) #[heading g t'] : Result (Array String))
      = (do return code f t lines (← decodeFinal f.code) #[heading f t]) := by
    intro lines
    rw [hcopied.code, hdecode, hheading]
    cases hread : decodeFinal f.code with
    -- through the error: compared directly, the two continuations would be unfolded
    | error e => exact Eq.trans (b := .error e) rfl rfl
    | ok instrs =>
      have hatoms : ∀ here ∈ instrs, ∀ a, here.instr.arg.atom? = some a → S a := by
        intro here hmem a ha
        obtain ⟨site, hsite, rfl⟩ := (Decode.decode_eq_ok_iff.mp hread).exists_site hmem ha
        exact hshows.code instrs hread site hsite
      exact congrArg Except.ok (code_copy hnames hshows hcopied hconstant hatoms lines _)
  unfold body
  rw [hinfo]
  cases f.debug with
  | none => exact hrest []
  | some d => exact congrArg (LineTable.decode d.line d.lines >>= ·) (funext hrest)

end Listing

/-! ## Whole functions -/

theorem FunctionRecord.Mirrors.split (h : f.Mirrors I g) : g.head = f.head ∧ mirrorsAll I f.constants g.constants := by
  cases f
  exact h

/-- A function that is a copy of another one in two ways has only atoms on which the two agree. -/
theorem FunctionRecord.shows_of_copies (hagree : ∀ a, P a → (ρ a).id % 0x100000000 = (σ a).id % 0x100000000 → S a)
    (hfits : f.HeadFits P) (hρ : g.head = (f.stored o ρ).head) (hσ : g.head = (f.stored o σ).head) : f.Shows S := by
  have hsame := hρ.symm.trans hσ
  obtain ⟨name, flags, kind, mode, args, vars, defined, stack, slotVars, closure, code, debug, constants, cache⟩ := f
  simp only [FunctionRecord.head, FunctionRecord.stored, FunctionRecord.mk.injEq, List.map_inj_left] at hsame
  obtain ⟨hname, -, -, -, -, -, -, -, hslots, hclosure, hcode, -⟩ := hsame
  have hatom : ∀ a, P a → ρ a = σ a → S a := fun a ha heq => hagree a ha (by rw [heq])
  refine ⟨hatom name hfits.name hname, ?_, ?_, ?_⟩
  · intro v hv
    exact hatom v.name (hfits.slotVars v hv).name (congrArg Variable.name (hslots v hv))
  · intro v hv
    exact hatom v.name (hfits.closureVars v hv).name (congrArg ClosureVar.name (hclosure v hv))
  · intro instrs hdecode site hsite
    exact hagree site.2 (hfits.code instrs hdecode site hsite) (eq_of_recode_eq hdecode hcode site hsite)

/-- The second value is a copy of the first, whether `ρ` or `σ` gives its atoms. -/
structure Value.Copied (P : Atom → Prop) (heap : List (Nat × Value)) (o : WriteOptions) (ρ σ : Atom → Atom)
    (I J : Nat → Nat → Prop) (v w : Value) : Prop where
  fits : v.Fits P heap
  first : (v.stored o ρ).Mirrors I w
  second : (v.stored o σ).Mirrors J w

structure FunctionRecord.Copied (P : Atom → Prop) (heap : List (Nat × Value)) (o : WriteOptions) (ρ σ : Atom → Atom)
    (I J : Nat → Nat → Prop) (f g : FunctionRecord) : Prop where
  fits : f.Fits P heap
  first : (f.stored o ρ).Mirrors I g
  second : (f.stored o σ).Mirrors J g

variable {heap : List (Nat × Value)}

theorem copied_all {vs ws} (hfits : fitsAll P heap vs) (hfirst : mirrorsAll I (storedAll o ρ vs) ws)
    (hsecond : mirrorsAll J (storedAll o σ vs) ws) : List.Forall₂ (Value.Copied P heap o ρ σ I J) vs ws := by
  induction vs generalizing ws with
  | nil =>
    cases ws with
    | nil => exact .nil
    | cons => exact hfirst.elim
  | cons v vs ih =>
    cases ws with
    | nil => exact hfirst.elim
    | cons w ws => exact .cons ⟨hfits.1, hfirst.1, hsecond.1⟩ (ih hfits.2 hfirst.2 hsecond.2)

namespace FunctionRecord.Copied

variable {f g : FunctionRecord} (h : f.Copied P heap o ρ σ I J g)

include h

theorem constants : List.Forall₂ (Value.Copied P heap o ρ σ I J) f.constants g.constants := by
  have hfirst := h.first.split.2
  have hsecond := h.second.split.2
  have hfits := h.fits
  obtain ⟨_, _, _, _, _, _, _, _, _, _, _, _, constants, _⟩ := f
  exact copied_all hfits.2 hfirst hsecond

theorem shows (hagree : ∀ a, P a → (ρ a).id % 0x100000000 = (σ a).id % 0x100000000 → S a) : f.Shows S := by
  have hfits : f.HeadFits P := by
    have hfits := h.fits
    cases f
    exact hfits.1
  exact shows_of_copies hagree hfits h.first.split.1 h.second.split.1

theorem head : f.HeadCopied o ρ g :=
  headCopied h.first.split.1

end FunctionRecord.Copied

namespace Listing

section

variable (hnames : SameNames t t' ρ S)
  (hagree : ∀ a, P a → (ρ a).id % 0x100000000 = (σ a).id % 0x100000000 → S a)

include hnames hagree

theorem constant_copy {v : Value} {w} (h : v.Copied P heap o ρ σ I J w) : constant t' w = constant t v := by
  obtain ⟨hfits, hfirst, hsecond⟩ := h
  cases v with
  | function i f =>
    cases w with
    | function j g =>
      have hcopied : f.Copied P heap o ρ σ I J g := ⟨hfits, hfirst, hsecond⟩
      have hdisplay := hnames.display _ (hcopied.shows hagree).name
      simp only [constant, hcopied.head.name, hdisplay]
    | _ => exact hfirst.elim
  | int n | float x | string s | bigint n =>
    cases w <;> first
      | exact hfirst.elim
      | cases hfirst; rfl
  | _ =>
    cases w <;> first
      | exact hfirst.elim
      | rfl

theorem item?_constants {vs ws} (h : List.Forall₂ (Value.Copied P heap o ρ σ I J) vs ws) (n : Int) :
    (item? ws n).elim "?" (constant t') = (item? vs n).elim "?" (constant t) := by
  have hlength := h.length_eq
  unfold item?
  split
  · rfl
  · by_cases hn : n.toNat < vs.length
    · rw [List.getElem?_eq_getElem hn, List.getElem?_eq_getElem (hlength ▸ hn)]
      exact constant_copy hnames hagree (h.get hn (hlength ▸ hn))
    · rw [List.getElem?_eq_none (by omega), List.getElem?_eq_none (by omega)]
      rfl

end

mutual

/-- A copy of a function has its listing. -/
theorem function_copy (hnames : SameNames t t' ρ S)
    (hagree : ∀ a, P a → (ρ a).id % 0x100000000 = (σ a).id % 0x100000000 → S a) (hdebug : o.stripDebug = false) :
    (f g : FunctionRecord) → f.Copied P heap o ρ σ I J g → function t' g = function t f
  | ⟨name, flags, kind, mode, args, vars, defined, stack, slotVars, closure, code, debug, constants, cache⟩, g, h => by
    have hconstants := h.constants
    have hbody := body_copy hnames (h.shows hagree) h.head hdebug (item?_constants hnames hagree hconstants)
    have hfunctions := functions_copy hnames hagree hdebug constants g.constants hconstants
    cases g
    rw [function, function, hbody, hfunctions]

theorem functions_copy (hnames : SameNames t t' ρ S)
    (hagree : ∀ a, P a → (ρ a).id % 0x100000000 = (σ a).id % 0x100000000 → S a) (hdebug : o.stripDebug = false) :
    (vs ws : List Value) → List.Forall₂ (Value.Copied P heap o ρ σ I J) vs ws → functions t' ws = functions t vs
  | [], ws, h => by
    cases h
    rfl
  | v :: vs, ws, h => by
    obtain ⟨w, ws, hcopied, hrest, rfl⟩ := List.forall₂_cons_left_iff.mp h
    have hfunctions := functions_copy hnames hagree hdebug vs ws hrest
    obtain ⟨hfits, hfirst, hsecond⟩ := hcopied
    cases v with
    | function i f =>
      cases w with
      | function j g =>
        have hfunction := function_copy hnames hagree hdebug f g ⟨hfits, hfirst, hsecond⟩
        rw [functions, functions, hfunction, hfunctions]
      | _ => exact hfirst.elim
    | _ =>
      cases w <;> first
        | exact hfirst.elim
        | exact hfunctions

end

end Listing

end ScriptBytecode
