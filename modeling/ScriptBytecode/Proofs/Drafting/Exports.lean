import Mathlib.Data.List.Forall2
import Mathlib.Data.List.Nodup
import ScriptBytecode.Proofs.Drafting.Steps

/-!
# What statements export

The exports of a statement, read off its syntax tree, and the tables of a module that lists them: every export has an
entry, and the entries refer to modules that are required. `Exported` says that a piece of emission adds the entries
of some exports and nothing else to the tables.
-/

namespace ScriptBytecode

/-! ## Exports in a syntax tree -/

inductive ExportItem where
  /-- A binding of the module. -/
  | binding (name exported : String)
  /-- What another module exports; under the name `*` it is that module as a whole. -/
  | reexport (source name exported : String)
  /-- All that another module exports, under the same names. -/
  | all (source : String)
deriving DecidableEq, Inhabited

namespace ExportItem

def isBinding : ExportItem → Bool
  | binding .. => true
  | _ => false

def isReexport : ExportItem → Bool
  | reexport .. => true
  | _ => false

def isAll : ExportItem → Bool
  | all _ => true
  | _ => false

end ExportItem

/-- The binding of a declaration that is the default export. -/
def Stmt.defaultBinding : Stmt → String
  | .functionDecl f => f.id.elim "*default*" (·.name)
  | .classDecl c => c.id.elim "*default*" (·.name)
  | _ => "*default*"

mutual

/-- What the export declarations in a statement export, in order. -/
def Stmt.exports : Stmt → List ExportItem
  | .block b => b.exports
  | .ifElse _ yes no _ => yes.exports ++ optStmtExports no
  | .whileLoop _ body _ => body.exports
  | .doWhile body _ _ => body.exports
  | .forLoop _ _ _ body _ => body.exports
  | .forIn _ _ body _ => body.exports
  | .forOf _ _ body _ _ => body.exports
  | .switch _ cases _ => switchCasesExports cases
  | .tryCatch body handler finalizer _ => body.exports ++ (optCatchExports handler ++ optBlockExports finalizer)
  | .labeled _ body _ => body.exports
  | .withObject _ body _ => body.exports
  | .exportDecl kind _ => kind.exports
  | _ => []

def ExportKind.exports : ExportKind → List ExportItem
  | .named specifiers none => specifiers.map fun s => .binding s.binding s.exported
  | .named specifiers (some source) => specifiers.map fun s => .reexport source s.binding s.exported
  | .byDefault _ => [.binding "*default*" "default"]
  | .defaultDecl s => [.binding s.defaultBinding "default"]
  | .decl s => s.exports ++ s.declared.map fun id => .binding id.name id.name
  | .all source => [.all source]
  | .allAs exported source => [.reexport source "*" exported]

def optStmtExports : Option Stmt → List ExportItem
  | none => []
  | some s => s.exports

def stmtsExports : List Stmt → List ExportItem
  | [] => []
  | s :: rest => s.exports ++ stmtsExports rest

def Block.exports : Block → List ExportItem
  | ⟨body, _⟩ => stmtsExports body

def optBlockExports : Option Block → List ExportItem
  | none => []
  | some b => b.exports

def SwitchCase.exports : SwitchCase → List ExportItem
  | ⟨_, body, _⟩ => stmtsExports body

def switchCasesExports : List SwitchCase → List ExportItem
  | [] => []
  | c :: rest => c.exports ++ switchCasesExports rest

def CatchClause.exports : CatchClause → List ExportItem
  | ⟨_, body, _⟩ => body.exports

def optCatchExports : Option CatchClause → List ExportItem
  | none => []
  | some c => c.exports

end

theorem Block.exports_eq (b : Block) : b.exports = stmtsExports b.body := by
  cases b
  rfl

theorem SwitchCase.exports_eq (c : SwitchCase) : c.exports = stmtsExports c.body := by
  cases c
  rfl

theorem stmtsExports_eq_flatMap (ss : List Stmt) : stmtsExports ss = ss.flatMap Stmt.exports := by
  induction ss with
  | nil => rfl
  | cons s ss ih => rw [stmtsExports, ih, List.flatMap_cons]

theorem switchCasesExports_eq_flatMap (cs : List SwitchCase) :
    switchCasesExports cs = cs.flatMap SwitchCase.exports := by
  induction cs with
  | nil => rfl
  | cons c cs ih => rw [switchCasesExports, ih, List.flatMap_cons]

/-! ## Attributes -/

namespace Value

/-- The attributes under which a module is required. -/
def attributes : Value → List (Atom × String)
  | .object _ props => props.filterMap fun
    | ⟨key, .string text⟩ => some (key, text)
    | _ => none
  | _ => []

/-- Attributes as a value: no object stands for no attributes. -/
def ofAttributes (id : Nat) : List (Atom × String) → Value
  | [] => .undefined
  | attributes => .object id (attributes.map fun (key, text) => ⟨key, .string text⟩)

theorem attributes_ofAttributes (id : Nat) (attributes : List (Atom × String)) :
    (ofAttributes id attributes).attributes = attributes := by
  cases attributes with
  | nil => rfl
  | cons a attributes =>
    simp only [ofAttributes, Value.attributes, List.filterMap_map]
    exact List.filterMap_some

theorem sameProps_strings (attributes : List (Atom × String)) :
    sameProps (attributes.map fun (key, text) => ⟨key, .string text⟩)
      (attributes.map fun (key, text) => ⟨key, .string text⟩) := by
  induction attributes with
  | nil => rfl
  | cons a attributes ih => simp [sameProps, Value.same, ih]

/-- Only their identity tells two values of the same attributes apart. -/
theorem same_ofAttributes (id id' : Nat) (attributes : List (Atom × String)) :
    (ofAttributes id attributes).same (ofAttributes id' attributes) := by
  cases attributes with
  | nil => rfl
  | cons a attributes => exact sameProps_strings (a :: attributes)

theorem same_undefined {v : Value} (h : v.same .undefined) : v = .undefined := by
  cases v <;> first | rfl | cases h

end Value

/-! ## Entries of the tables -/

/-- The entry for an export of a binding. -/
inductive LocalExport.Enters (t : AtomTable) : ExportItem → LocalExport → Prop
  | mk {name exported : String} {e : LocalExport} (binding : t.atom? name = some e.binding)
      (exported_eq : t.atom? exported = some e.exported) : Enters t (.binding name exported) e

/-- The module `source` is required under an index, without attributes. -/
def RequiredAt (t : AtomTable) (requires : List Property) (source : String) (idx : Nat) : Prop :=
  ∃ a, t.atom? source = some a ∧ requires[idx]? = some ⟨a, .undefined⟩

/-- The entry for an export of what another module exports. -/
inductive Export.Enters (t : AtomTable) (requires : List Property) : ExportItem → Export → Prop
  | mk {source name exported : String} {idx : Nat} {n a : Atom} (required : RequiredAt t requires source idx)
      (name_eq : t.atom? name = some n) (exported_eq : t.atom? exported = some a) :
      Enters t requires (.reexport source name exported) (.ofModule idx n a)

/-- The entry for an export of all that another module exports. -/
inductive EntersAll (t : AtomTable) (requires : List Property) : ExportItem → Nat → Prop
  | mk {source : String} {idx : Nat} (required : RequiredAt t requires source idx) :
      EntersAll t requires (.all source) idx

section

variable {t t' : AtomTable} {requires requires' : List Property} {item : ExportItem}

theorem LocalExport.Enters.extend {e : LocalExport} (h : e.Enters t item) (ht : t.Extends t') : e.Enters t' item := by
  cases h with
  | mk binding exported_eq => exact .mk (ht _ _ binding) (ht _ _ exported_eq)

theorem RequiredAt.extend {source idx} (h : RequiredAt t requires source idx) (ht : t.Extends t')
    (hrequires : requires <+: requires') : RequiredAt t' requires' source idx := by
  obtain ⟨a, ha, hidx⟩ := h
  obtain ⟨added, rfl⟩ := hrequires
  have hlt := (List.getElem?_eq_some_iff.mp hidx).1
  exact ⟨a, ht _ _ ha, (List.getElem?_append_left hlt).trans hidx⟩

theorem Export.Enters.extend {e : Export} (h : e.Enters t requires item) (ht : t.Extends t')
    (hrequires : requires <+: requires') : e.Enters t' requires' item := by
  cases h with
  | mk required name_eq exported_eq =>
    exact .mk (required.extend ht hrequires) (ht _ _ name_eq) (ht _ _ exported_eq)

theorem EntersAll.extend {idx} (h : EntersAll t requires item idx) (ht : t.Extends t')
    (hrequires : requires <+: requires') : EntersAll t' requires' item idx := by
  cases h with
  | mk required => exact .mk (required.extend ht hrequires)

end

/-! ## Tables that list exports -/

section

variable {β : Type} {R : ExportItem → β → Prop} {p : ExportItem → Bool} {items : List ExportItem} {es : Array β}
  {item : ExportItem}

theorem forall₂_filter_concat {e} (h : List.Forall₂ R (items.filter p) es.toList) (hp : p item) (he : R item e) :
    List.Forall₂ R ((items ++ [item]).filter p) (es.push e).toList := by
  rw [List.filter_append, List.filter_cons_of_pos hp, Array.toList_push]
  exact List.rel_append h (.cons he .nil)

theorem forall₂_filter_skip (h : List.Forall₂ R (items.filter p) es.toList) (hp : p item = false) :
    List.Forall₂ R ((items ++ [item]).filter p) es.toList := by
  rw [List.filter_append, List.filter_cons_of_neg (by simp [hp]), List.filter_nil, List.append_nil]
  exact h

end

/-- The tables of a module that exports `items`. -/
structure ModuleTables.Lists (t : AtomTable) (items : List ExportItem) (m : ModuleTables) : Prop where
  attributes : ∀ r ∈ m.requires, ∃ id attributes, r.value = .ofAttributes id attributes
  distinct : (m.requires.toList.map fun r => (r.key, r.value.attributes)).Nodup
  imports : ∀ i ∈ m.imports, i.reqModule < m.requires.size
  localExports : List.Forall₂ (LocalExport.Enters t) (items.filter (·.isBinding)) m.localExports.toList
  indirectExports :
    List.Forall₂ (Export.Enters t m.requires.toList) (items.filter (·.isReexport)) m.indirectExports.toList
  starExports : List.Forall₂ (EntersAll t m.requires.toList) (items.filter (·.isAll)) m.starExports.toList

namespace ModuleTables

variable {t t' : AtomTable} {m : ModuleTables} {items : List ExportItem} {source : Atom} {v : Value}

theorem lists_empty (t : AtomTable) : empty.Lists t [] where
  attributes := by simp [empty]
  distinct := by simp [empty]
  imports := by simp [empty]
  localExports := .nil
  indirectExports := .nil
  starExports := .nil

theorem Lists.extend (h : m.Lists t items) (ht : t.Extends t') : m.Lists t' items :=
  { h with
    localExports := h.localExports.imp fun _ _ he => he.extend ht
    indirectExports := h.indirectExports.imp fun _ _ he => he.extend ht (List.prefix_refl _)
    starExports := h.starExports.imp fun _ _ he => he.extend ht (List.prefix_refl _) }

/-- A module is required under an index that the table has. -/
theorem getElem?_require (m : ModuleTables) (source : Atom) (v : Value) :
    ∃ w, (m.require source v).2.requires[(m.require source v).1]? = some ⟨source, w⟩ ∧ (w = v ∨ w.same v) := by
  unfold ModuleTables.require
  split
  · rename_i idx hfind
    obtain ⟨hlt, hsame, -⟩ := Array.findIdx?_eq_some_iff_getElem.mp hfind
    have hentry := Array.getElem?_eq_getElem hlt
    cases hr : m.requires[idx] with
    | mk key value =>
      rw [hr] at hsame hentry
      obtain ⟨hkey, hvalue⟩ := Bool.and_eq_true_iff.mp hsame
      cases beq_iff_eq.mp hkey
      exact ⟨value, hentry, .inr hvalue⟩
  · exact ⟨v, Array.getElem?_push_size, .inl rfl⟩

theorem require_lt (m : ModuleTables) (source : Atom) (v : Value) :
    (m.require source v).1 < (m.require source v).2.requires.size := by
  obtain ⟨w, hw, -⟩ := m.getElem?_require source v
  exact (Array.getElem?_eq_some_iff.mp hw).1

theorem requires_prefix_require (m : ModuleTables) (source : Atom) (v : Value) :
    m.requires.toList <+: (m.require source v).2.requires.toList := by
  unfold ModuleTables.require
  split
  · exact List.prefix_refl _
  · simp

theorem imports_require (m : ModuleTables) (source : Atom) (v : Value) :
    (m.require source v).2.imports = m.imports := by
  unfold ModuleTables.require
  split <;> rfl

/-- No module is required twice with the same attributes. -/
theorem Lists.require (h : m.Lists t items) (source : Atom) (hv : ∃ id attributes, v = .ofAttributes id attributes) :
    (m.require source v).2.Lists t items := by
  have hprefix := m.requires_prefix_require source v
  have hsize := hprefix.length_le
  unfold ModuleTables.require at hprefix hsize ⊢
  split
  · exact h
  · rename_i hnone
    simp only [hnone] at hprefix hsize
    refine {
      attributes := fun r hr => ?_
      distinct := ?_
      imports := fun i hi => (h.imports i hi).trans_le (by simp)
      localExports := h.localExports
      indirectExports := h.indirectExports.imp fun _ _ he => he.extend (.refl t) hprefix
      starExports := h.starExports.imp fun _ _ he => he.extend (.refl t) hprefix }
    · rcases Array.mem_push.mp hr with hr | rfl
      · exact h.attributes r hr
      · exact hv
    · rw [Array.toList_push, List.map_append, List.map_singleton, ← List.concat_eq_append, List.nodup_concat]
      refine ⟨fun hmem => ?_, h.distinct⟩
      obtain ⟨r, hr, heq⟩ := List.mem_map.mp hmem
      obtain ⟨hkey, hattributes⟩ := Prod.mk.inj heq
      have hother := Array.findIdx?_eq_none_iff.mp hnone r (Array.mem_toList_iff.mp hr)
      obtain ⟨id, as, hvalue⟩ := h.attributes r (Array.mem_toList_iff.mp hr)
      obtain ⟨id', as', rfl⟩ := hv
      rw [hvalue, Value.attributes_ofAttributes, Value.attributes_ofAttributes] at hattributes
      subst hattributes
      rw [hkey, hvalue, Value.same_ofAttributes, beq_self_eq_true] at hother
      cases hother

/-- An export of a binding. -/
theorem Lists.exportLocal (h : m.Lists t items) {e : LocalExport} {item} (he : e.Enters t item) :
    { m with localExports := m.localExports.push e }.Lists t (items ++ [item]) := by
  cases he with
  | mk binding exported_eq =>
    exact { h with
      localExports := forall₂_filter_concat h.localExports rfl (.mk binding exported_eq)
      indirectExports := forall₂_filter_skip h.indirectExports rfl
      starExports := forall₂_filter_skip h.starExports rfl }

theorem requiredAt_require (m : ModuleTables) {name} (hname : t.atom? name = some source) :
    RequiredAt t (m.require source .undefined).2.requires.toList name (m.require source .undefined).1 := by
  obtain ⟨w, hw, hsame⟩ := m.getElem?_require source .undefined
  cases hsame.elim id Value.same_undefined
  exact ⟨source, hname, Array.getElem?_toList.trans hw⟩

/-- An export of what another module exports. -/
theorem Lists.exportFrom (h : m.Lists t items) {name exported source' name' exported'}
    (hsource : t.atom? source' = some source) (hname : t.atom? name' = some name)
    (hexported : t.atom? exported' = some exported) :
    (m.exportFrom source name exported).Lists t (items ++ [.reexport source' name' exported']) := by
  have hrequire := h.require source ⟨0, [], rfl⟩
  exact { hrequire with
    localExports := forall₂_filter_skip hrequire.localExports rfl
    indirectExports :=
      forall₂_filter_concat hrequire.indirectExports rfl (.mk (m.requiredAt_require hsource) hname hexported)
    starExports := forall₂_filter_skip hrequire.starExports rfl }

theorem Lists.exportAllFrom (h : m.Lists t items) {source'} (hsource : t.atom? source' = some source) :
    (m.exportAllFrom source).Lists t (items ++ [.all source']) := by
  have hrequire := h.require source ⟨0, [], rfl⟩
  exact { hrequire with
    localExports := forall₂_filter_skip hrequire.localExports rfl
    indirectExports := forall₂_filter_skip hrequire.indirectExports rfl
    starExports := forall₂_filter_concat hrequire.starExports rfl (.mk (m.requiredAt_require hsource)) }

end ModuleTables

/-! ## Emission that exports -/

/-- The tables and what is linked through them stay as they are. -/
structure EmitState.SameLinks (s s' : EmitState) : Prop where
  tables : s'.tables = s.tables
  closureVars : s'.draft.frame.closureVars = s.draft.frame.closureVars

/-- The exports `items` get their entries, and nothing else is added to the tables but modules that are required. -/
structure Exported (items : List ExportItem) (s s' : EmitState) : Prop where
  closureVars : s'.draft.frame.closureVars = s.draft.frame.closureVars
  /-- Only modules export. -/
  nothing : s.draft.frame.role ≠ .module → items = []
  tables : ∀ m, s.tables = some m → ∀ before, m.Lists s.atoms before →
    ∃ m', s'.tables = some m' ∧ m'.imports = m.imports ∧ m'.Lists s'.atoms (before ++ items)

namespace Exported

variable {items items' : List ExportItem} {s s₁ s' : EmitState}

theorem of_same (h : s.SameLinks s') (hatoms : s.atoms.Extends s'.atoms) : Exported [] s s' where
  closureVars := h.closureVars
  nothing := fun _ => rfl
  tables := by
    intro m hm before hbefore
    rw [List.append_nil]
    exact ⟨m, h.tables.trans hm, rfl, hbefore.extend hatoms⟩

theorem refl (s : EmitState) : Exported [] s s :=
  of_same ⟨rfl, rfl⟩ (.refl _)

theorem trans (h : Exported items s s₁) (h' : Exported items' s₁ s')
    (hrole : s₁.draft.frame.role = s.draft.frame.role) : Exported (items ++ items') s s' where
  closureVars := h'.closureVars.trans h.closureVars
  nothing := fun hs => by rw [h.nothing hs, h'.nothing (hrole ▸ hs), List.append_nil]
  tables := by
    intro m hm before hbefore
    obtain ⟨m₁, hm₁, himports₁, hlists₁⟩ := h.tables m hm before hbefore
    obtain ⟨m', hm', himports, hlists⟩ := h'.tables m₁ hm₁ _ hlists₁
    rw [List.append_assoc] at hlists
    exact ⟨m', hm', himports.trans himports₁, hlists⟩

/-- What was emitted as a nested function has exported nothing. -/
theorem adopt {frame} (h : Exported items (s.enter frame) s') (hrole : frame.role ≠ .module) :
    Exported [] s (s.adopt s') where
  closureVars := rfl
  nothing := fun _ => rfl
  tables := h.nothing hrole ▸ h.tables

end Exported

end ScriptBytecode
