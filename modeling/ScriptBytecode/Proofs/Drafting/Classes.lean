import ScriptBytecode.Proofs.Drafting.Functions

/-!
# Drafts of classes

A class leaves one value on the stack. While its elements are emitted, the class and its prototype are on top
of the stack.
-/

namespace ScriptBytecode

variable {c : ClassNode} {name : Atom}

def InitStep.isRegular : InitStep → Bool
  | .field _ value => optExprRegular false value
  | .block body => stmtsRegular false body

namespace ClassNode

theorem isRegular_defaultConstructor (c : ClassNode) : c.defaultConstructor.isRegular false := by
  unfold defaultConstructor
  cases c.heritage <;> rfl

theorem isRegular_constructor (hc : c.isRegular false) :
    (c.constructor?.getD c.defaultConstructor).isRegular false := by
  cases hmade : c.constructor? with
  | none => exact c.isRegular_defaultConstructor
  | some f =>
    obtain ⟨id, heritage, body, span⟩ := c
    simp only [isRegular, classElementsRegular_eq, Bool.and_eq_true, List.all_eq_true] at hc
    unfold constructor? at hmade
    obtain ⟨e, he, hf⟩ := List.exists_of_findSome?_eq_some hmade
    have hregular := hc.2 e he
    split at hf
    · cases hf
      simp only [ClassElement.isRegular, Bool.and_eq_true] at hregular
      exact hregular.2
    · cases hf

end ClassNode

namespace Drafts

open Supply (knows_of_mem allows_and)

variable {C : Supply} {d : Nat} {r : Parts} [hr : r.Drafting]

/-! ## Private names -/

theorem addPrivateName {declared : List (Atom × VarKind)} (hdeclared : ∀ a ∈ declared.map (·.1), C.Knows a)
    (e : ClassElement) : Drafts C d (Emit.addPrivateName declared e) (fun _ => d) [] (fun d => d.map (·.1)) := by
  unfold Emit.addPrivateName
  split
  · exact result _ rfl hdeclared
  · refine .bind (privateAtom _) fun name => ?_
    have hold : ∀ a ∈ declared.map (·.1), (C.know [name]).Knows a := fun a ha => (hdeclared a ha).know _
    extract_lets rest
    have hrest : ∀ u, Drafts (C.know [name]) d (rest u) (fun _ => d) [] (fun d => d.map (·.1)) := by
      intro u
      dsimp only [rest]
      split
      · refine result _ rfl fun a ha => ?_
        rw [List.map_append, List.mem_append] at ha
        exact ha.elim (hold a) fun ha => knows_of_mem ha
      · split
        · refine result _ rfl fun a ha => ?_
          simp only [List.map_map, List.mem_map, Function.comp_apply] at ha
          obtain ⟨d, hd, rfl⟩ := ha
          split
          · exact C.knows_self name
          · exact hold _ (List.mem_map_of_mem hd)
        · exact .read (.of_state _) fun _ => misuse _ _
    exact .ite (fun _ => error_seq _) fun _ => hrest ()

theorem setterAtom (name : Atom) : Drafts C d (Emit.setterAtom name) (fun _ => d) [] (fun a => [a]) :=
  .read (.of_state _) fun _ => interns _

theorem declarePrivateNames (hC : C.enclosed = true) {elements : List ClassElement} :
    Drafts C d (Emit.declarePrivateNames elements) (fun _ => d) := by
  refine .bind (foldlM (fun _ _ e _ h => addPrivateName h e) nofun) fun declared =>
    forM fun ⟨name, kind⟩ hd => ?_
  refine .seq (declare hC (knows_of_mem (List.mem_map_of_mem hd))) fun _ => .ite (fun _ => ?_) fun _ => .pure _
  exact .bind (setterAtom name) fun setter => declare hC (Supply.knows_self _ setter)

theorem makePrivateSymbols (elements : List ClassElement) :
    Drafts C d (Emit.makePrivateSymbols elements) (fun _ => d) := by
  refine forM fun e _ => ?_
  split
  · exact .bind (privateAtom _) fun name => .seq (opAtom 0 1 rfl (C.knows_self name)) fun _ =>
      access 1 0 rfl (C.knows_self name)
  · exact .pure _

/-! ## Elements -/

theorem classMethod (hd : C.base ≤ d) {key : PropertyKey} (hkey : C.Allows (key.isRegular false)) {f : FunctionNode}
    (hf : C.Allows (f.isRegular false)) (kind : MethodKind) (isStatic : Bool) (span : Span) :
    Drafts C (d + 2) (Emit.classMethod r key f kind isStatic span) (fun _ => d + 2) := by
  refine .seq (locate span) fun _ => optionally (fun _ => .op 2 2 rfl) fun _ => ?_
  extract_lets finish bindSlot slot
  have hfinish : ∀ C u, Drafts C (d + 2) (finish u) (fun _ => d + 2) := fun _ _ =>
    .ite (fun _ => .op 2 2 rfl) fun _ => .pure _
  have hbind : ∀ C slot, Supply.Knows C slot → Drafts C (d + 3) (bindSlot slot) (fun _ => d + 2) := fun _ _ h =>
    .seq (access 1 0 rfl h) (hfinish _)
  clear_value finish bindSlot
  split
  · refine .bind (privateAtom _) fun name => nesting (hr.function hf (C.knows_self name) rfl) fun child =>
      .before (.pushClosure child) fun _ => .seq (.op 2 2 rfl) fun _ => .read (.of_state _) fun _ => ?_
    refine .ite (fun _ => .bind (setterAtom _) fun setter => hbind _ _ (Supply.knows_self _ setter)) fun _ => ?_
    rw [pure_bind]
    exact hbind _ _ (C.knows_self name)
  · exact .seq (method (Nat.le_add_right_of_le hd) hkey rfl _ hf) (hfinish C)

/-- The atoms that a field is initialized by. -/
def fieldNames : FieldKey → List Atom
  | .named a | .computed a | .privateName a => [a]

def stepNames : InitStep → List Atom
  | .field key _ => fieldNames key
  | .block _ => []

def stepsNames (steps : List InitStep × List InitStep) : List Atom :=
  (steps.1 ++ steps.2).flatMap stepNames

theorem mem_stepsNames {a steps} :
    a ∈ stepsNames steps ↔ (∃ s ∈ steps.1, a ∈ stepNames s) ∨ ∃ s ∈ steps.2, a ∈ stepNames s := by
  simp [stepsNames]

theorem fieldKey (hC : C.enclosed = true) (hd : C.base ≤ d) {key : PropertyKey} (hkey : C.Allows (key.isRegular false))
    {count : Nat} : Drafts C d (Emit.fieldKey r key count) (fun _ => d) [] fieldNames := by
  unfold Emit.fieldKey
  split
  · exact .bind (privateAtom _) fun _ => result _ rfl fun _ ha => knows_of_mem ha
  · exact intern _ fun v => .seq (declare hC (C.knows_self v)) fun _ => .seq (hr.value hd hkey) fun _ =>
      .seq (.op 1 1 rfl) fun _ => .seq (access 1 0 rfl (C.knows_self v)) fun _ =>
      result _ rfl fun _ ha => knows_of_mem ha
  · exact .bind (keyAtom _) fun _ => result _ rfl fun _ ha => knows_of_mem ha

theorem elements (hC : C.enclosed = true) (hd : C.base ≤ d) {es : List ClassElement}
    (hes : ∀ e ∈ es, C.Allows (e.isRegular false)) (count : Nat) :
    Drafts C (d + 2) (Emit.elements r es count) (fun _ => d + 2) [] stepsNames := by
  induction es generalizing C count with
  | nil => exact result _ rfl nofun
  | cons e es ih =>
    rw [List.forall_mem_cons] at hes
    obtain ⟨he, hes⟩ := hes
    unfold Emit.elements
    split
    · exact ih hC hd hes count
    · simp only [ClassElement.isRegular, allows_and] at he
      exact .seq (classMethod hd he.1 he.2 _ _ _) fun _ => ih hC hd hes count
    · rename_i isStatic _
      simp only [ClassElement.isRegular, allows_and] at he
      refine .bind (fieldKey hC (Nat.le_add_right_of_le hd) he.1) fun key =>
        .bind (ih (C := C.know (fieldNames key)) hC hd hes _) fun steps => result _ rfl fun a ha => ?_
      have hmem : a ∈ fieldNames key ∨ a ∈ stepsNames steps := by
        rw [mem_stepsNames] at ha ⊢
        cases isStatic with
        | true =>
          simp only [if_true, List.mem_cons, exists_eq_or_imp] at ha
          exact ha.elim (fun ha => .inr (.inl ha)) fun ha => ha.imp_right .inr
        | false =>
          simp only [Bool.false_eq_true, if_false, List.mem_cons, exists_eq_or_imp] at ha
          exact or_assoc.mp ha
      exact hmem.elim (fun ha => (knows_of_mem ha).know _) fun ha => knows_of_mem ha
    · refine .bind (ih hC hd hes _) fun steps => result _ rfl fun a ha => knows_of_mem ?_
      rw [mem_stepsNames] at ha ⊢
      simpa only [List.mem_cons, exists_eq_or_imp, stepNames, List.not_mem_nil, false_or] using ha

omit hr in
/-- The initializers do what stands in the class. -/
theorem returns_elements {es : List ClassElement} (hes : ∀ e ∈ es, C.Allows (e.isRegular false)) (count : Nat) :
    Returns (Emit.elements r es count) fun steps => (∀ s ∈ steps.1, C.Allows s.isRegular) ∧
      ∀ s ∈ steps.2, C.Allows s.isRegular := by
  induction es generalizing count with
  | nil => exact .pure (by simp)
  | cons e es ih =>
    rw [List.forall_mem_cons] at hes
    obtain ⟨he, hes⟩ := hes
    unfold Emit.elements
    split
    · exact ih hes count
    · exact .bind (.any _) fun _ _ => ih hes count
    · rename_i isStatic _
      simp only [ClassElement.isRegular, allows_and] at he
      refine .bind (.any _) fun key _ => .bind (ih hes _) fun steps hsteps => .pure ?_
      cases isStatic with
      | true => exact ⟨hsteps.1, List.forall_mem_cons.mpr ⟨he.2, hsteps.2⟩⟩
      | false => exact ⟨List.forall_mem_cons.mpr ⟨he.2, hsteps.1⟩, hsteps.2⟩
    · refine .bind (ih hes _) fun steps hsteps => .pure ⟨hsteps.1, ?_⟩
      exact List.forall_mem_cons.mpr ⟨he, hsteps.2⟩

/-! ## Initializers -/

theorem fieldValue (hd : C.base ≤ d) {value} (hvalue : C.Allows (optExprRegular false value)) {name}
    (hname : ∀ a ∈ name, C.Knows a) : Drafts C d (Emit.fieldValue r value name) (fun _ => d + 1) := by
  cases value with
  | none => exact .op 0 1 rfl
  | some e => exact hr.expr hd hvalue hname

def stepExports : InitStep → List ExportItem
  | .field .. => []
  | .block body => stmtsExports body

theorem initStep {step : InitStep} (hstep : C.Allows step.isRegular) (hnames : ∀ a ∈ stepNames step, C.Knows a) :
    Drafts C C.base (Emit.initStep r step) (fun _ => C.base) [] noNames (stepExports step) := by
  have hbase : ∀ k, C.base ≤ C.base + k := fun k => Nat.le_add_right _ k
  cases step with
  | field key value =>
    refine .seq (.op 0 1 rfl) fun _ => ?_
    extract_lets finish
    have hfinish : ∀ u, Drafts C (C.base + 1) (finish u) (fun _ => C.base) := fun _ => .op 1 0 rfl
    cases key with
    | named key =>
      have hkey := hnames key List.mem_cons_self
      exact .seq (fieldValue (hbase 1) hstep hkey.some) fun _ => .seq (opAtom 2 1 rfl hkey) hfinish
    | computed v =>
      have hv := hnames v List.mem_cons_self
      exact .seq (access 0 1 rfl hv) fun _ => .seq (fieldValue (hbase 2) hstep C.knows_none) fun _ =>
        optionally (fun _ => .op 2 2 rfl) fun _ => .seq (ops 3 1 rfl) hfinish
    | privateName name =>
      have hname := hnames name List.mem_cons_self
      exact .seq (access 0 1 rfl hname) fun _ => .seq (fieldValue (hbase 2) hstep hname.some) fun _ =>
        .seq (.op 3 1 rfl) hfinish
  | block body =>
    simp only [InitStep.isRegular, stmtsRegular_eq, Supply.allows_all] at hstep
    exact .seq (declareVars _) fun _ => block hstep

theorem initializer {steps : List InitStep} {addBrand span} (hsteps : ∀ s ∈ steps, C.Allows s.isRegular)
    (hnames : ∀ s ∈ steps, ∀ a ∈ stepNames s, C.Knows a) : Nests C (Emit.initializer r steps addBrand span) := by
  refine nested (.inl rfl) rfl _ 0 (steps.flatMap stepExports) (.of_drafts ?_) ?_
  · extract_lets rest
    have hrest : ∀ u, Drafts C.nested 0 (rest u) (fun _ => 0) [] noNames (steps.flatMap stepExports) := fun _ =>
      .exporting_all (forM_exporting fun s hs => initStep (C := C.nested) (hsteps s hs) (hnames s hs)) fun _ =>
        returnWith false 0 0
    clear_value rest
    refine .ite (fun _ => ?_) fun _ => hrest ()
    exact .seq (.op 0 1 rfl) fun _ => .seq (access 0 1 rfl (.inl rfl)) fun _ => .seq (.op 2 0 rfl) hrest
  · have hrest : Closes (do
        steps.forM (Emit.initStep r)
        Emit.returnWith false) := .bind fun _ => .returnWith false
    exact .ite (.bind fun _ => .bind fun _ => .bind fun _ => hrest) hrest

/-! ## The whole class -/

theorem classBody (hC : C.enclosed = true) (hd : C.base ≤ d) (hc : C.Allows (c.isRegular false))
    (hname : C.Knows name) : Drafts C d (Emit.classBody r name c) (fun _ => d + 1) := by
  have hmade : C.Allows _ := fun hm => ClassNode.isRegular_constructor (hc hm)
  obtain ⟨id, heritage, elems, span⟩ := c
  simp only [ClassNode.isRegular, classElementsRegular_eq, allows_and, Supply.allows_all] at hc
  refine .bind (optionMapM fun _ _ => interns _) fun ownName => ?_
  have hown : ∀ a ∈ ownName, (C.know (ownName.toList.flatMap fun a => [a])).Knows a := fun a ha =>
    knows_of_mem (by simpa using ha)
  have hname' := hname.know (ownName.toList.flatMap fun a => [a])
  replace hC : (C.know (ownName.toList.flatMap fun a => [a])).enclosed = true := hC
  replace hd : (C.know (ownName.toList.flatMap fun a => [a])).base ≤ d := hd
  replace hmade : (C.know (ownName.toList.flatMap fun a => [a])).Allows _ := hmade
  have hheritage : (C.know (ownName.toList.flatMap fun a => [a])).Allows _ := hc.1
  have helems : ∀ e ∈ elems, (C.know (ownName.toList.flatMap fun a => [a])).Allows _ := hc.2
  generalize C.know (ownName.toList.flatMap fun a => [a]) = C at *
  refine .seq (optionForM fun a ha => declare hC (hown a ha)) fun _ => .seq (declarePrivateNames hC) fun _ =>
    optionally (fun _ => declare hC (.inl rfl)) fun _ => optionally (fun _ => declare hC (.inl rfl)) fun _ =>
    .seq (makePrivateSymbols _) fun _ => ?_
  extract_lets members brand rest
  have hmembers : ∀ u, Drafts C (d + 2) (members u) (fun _ => d + 1) := by
    intro _
    refine bind_of (elements hC hd helems 0) (returns_elements helems 0) fun steps hsteps => ?_
    have hinstances : ∀ s ∈ steps.1, ∀ a ∈ stepNames s, (C.know (stepsNames steps)).Knows a := fun s hs a ha =>
      knows_of_mem (mem_stepsNames.mpr (.inl ⟨s, hs, ha⟩))
    have hstatics : ∀ s ∈ steps.2, ∀ a ∈ stepNames s, (C.know (stepsNames steps)).Knows a := fun s hs a ha =>
      knows_of_mem (mem_stepsNames.mpr (.inr ⟨s, hs, ha⟩))
    have hfinish : Drafts (C.know (stepsNames steps)) (d + 2) (do
        Emit.op .drop
        ownName.forM fun name => do
          Emit.op .dup
          Emit.access .putVarInit name
        if !steps.2.isEmpty then
          let child ← Emit.initializer r steps.2 false span
          Emit.op .dup
          Emit.pushClosure child
          Emit.op .setHomeObject
          Emit.opCount .callMethod 0
          Emit.op .drop) (fun _ => d + 1) := by
      refine .seq (.op 1 0 rfl) fun _ => .seq (optionForM fun a ha => ?_) fun _ => .ite (fun _ => ?_) fun _ => .pure _
      · exact .seq (.op 1 2 rfl) fun _ => access 1 0 rfl ((hown a ha).know _)
      · exact nesting (initializer hsteps.2 hstatics) fun child => .seq (.op 1 2 rfl) fun _ =>
          .before (.pushClosure child) fun _ =>
            .seq (.op 2 2 rfl) fun _ => .seq (opCount 2 1 0 rfl) fun _ => .op 1 0 rfl
    refine .ite (fun _ => nesting (initializer hsteps.1 hinstances) fun child => ?_) fun _ => hfinish
    exact .before (.pushClosure child) fun _ => .seq (.op 2 2 rfl) fun _ => .seq (access 1 0 rfl (.inl rfl)) fun _ =>
      hfinish
  have hbrand : ∀ u, Drafts C (d + 2) (brand u) (fun _ => d + 1) := fun _ =>
    optionally (fun _ => ops 2 2 rfl) hmembers
  have hrest : ∀ u, Drafts C (d + 1) (rest u) (fun _ => d + 1) := by
    intro _
    refine nesting (hr.function hmade hname' rfl) fun _ => .addFunction _ fun i =>
      .seq (pushFunction List.mem_cons_self) fun _ =>
      forgetFunction (.seq (opAtomInt 2 2 _ rfl hname') fun _ => .ite (fun _ => ?_) fun _ => hbrand ())
    exact .seq (.op 1 2 rfl) fun _ => .seq (access 1 0 rfl (.inl rfl)) hbrand
  clear_value rest
  cases heritage with
  | none => exact .seq (.op 0 1 rfl) hrest
  | some e => exact .seq (hr.value hd hheritage) hrest

theorem classDef (hd : C.base ≤ d) (hc : C.Allows (c.isRegular false)) (hname : C.Knows name) :
    Drafts C d (Emit.classDef r name c) (fun _ => d + 1) :=
  .seq (locate _) fun _ => .read (.of_state _) fun _ => .seq (setStrict true) fun _ =>
    .seq (inScope (classBody rfl hd hc hname)) fun _ => setStrict _

end Drafts

end ScriptBytecode
