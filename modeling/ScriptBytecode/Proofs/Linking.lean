import ScriptBytecode.Proofs.Naming.Code

/-!
# Labels of resolved code

Emission wires the labels of a function, and resolving its names keeps them wired: a placeholder marks the label it
was given, and jumps to no other but to labels that are made for it. So the code of every function is linked, and
the only thing that can go wrong in its layout is a jump over more than two gigabytes.
-/

namespace ScriptBytecode

variable {i : Instr} {t : FunctionTree} {pool : ConstantPool}

namespace Naming

variable {s s' : State} {code : List Instr} {n : Nat} {outer : List Nat}

theorem target?_of_adds {k e} (h : Adds [] k code e) : ∀ i ∈ code, i.target? = none := by
  intro i hi
  cases htarget : i.target? with
  | none => rfl
  | some l => exact absurd ((h.instrs i hi).2 l htarget) (Nat.not_lt_zero l)

/-- The code of an access marks its label behind the access. -/
theorem wired_accessCode {op : Pseudo} (hop : op.isVariable) (name : Atom) (withs : List Binding)
    (found : Option Binding) (strict : Bool) (done : Nat) (labels : List Nat) :
    Wired (done :: labels) [done] [] (accessCode op name withs found strict (some done)) := by
  have hwiths : Wired (done :: labels) [] [] (withs.flatMap (tryWith op name done)) := by
    induction withs with
    | nil => exact .nil _
    | cons b withs ih =>
      have hget : Wired (done :: labels) [] [] [b.get false] :=
        .unlabelled (target?_of_adds (b.adds_get (k := 0) false)) _
      have htry : Wired (done :: labels) [] [] [.of (withAccess op) (.atomLabel name done 1)] := by
        refine .jumps_to rfl ?_ List.mem_cons_self
        cases op <;> cases hop <;> rfl
      exact (hget.append htry).append ih
  have haccess : Wired (done :: labels) [] [] (accessBinding op name strict found) :=
    .unlabelled (target?_of_adds (adds_accessBinding (k := 0) hop name strict found)) _
  exact (hwiths.append haccess).append (.marks_one rfl _)

theorem wired_optionalLink (present : Nat) {exit labels} (hexit : exit ∈ labels) :
    Wired (present :: labels) [present] [] (optionalLink present exit) := by
  refine ⟨.refl _, fun l hl => .inl ?_⟩
  have hmem : l ∈ [present, exit] := hl
  rcases List.mem_cons.mp hmem with rfl | hmem
  · exact List.mem_cons_self
  · cases List.mem_singleton.mp hmem
    exact List.mem_cons_of_mem _ hexit

/-- Code in place of a body. It marks what the body marks, and jumps to no labels but those of the body and its own,
which are made from `n` on. -/
def Rewired (n : Nat) (outer : List Nat) (body code : List Instr) (s' : State) : Prop :=
  ∃ own n', Wired (ends body ++ jumps body) (ends body) own code ∧ Fresh n n' own ∧ s'.labels = n' :: outer

theorem rewired_self (i : Instr) (hs : s.labels = n :: outer) : Rewired n outer [i] [i] s :=
  ⟨[], n, (Wired.self i).mono (List.subset_append_right _ _), .nil le_rfl, hs⟩

/-- Code without labels in place of an instruction without labels to mark. -/
theorem rewired_unlabelled (hi : i.endLabel? = none) (hcode : ∀ j ∈ code, j.target? = none)
    (hs' : s'.labels = n :: outer) : Rewired n outer [i] code s' := by
  have hends : ends [i] = [] := by simp [ends, hi]
  rw [Rewired, hends]
  exact ⟨[], n, .unlabelled hcode _, .nil le_rfl, hs'⟩

/-- Code that marks one label of its own. -/
theorem rewired_own (hi : i.endLabel? = none) (hcode : Wired (n :: (ends [i] ++ jumps [i])) ([] ++ [n]) [] code)
    (hs' : s'.labels = (n + 1) :: outer) :
    Rewired n outer [i] code s' := by
  have hends : ends [i] = [] := by simp [ends, hi]
  rw [hends] at hcode
  rw [Rewired, hends]
  exact ⟨[n], n + 1, hcode.own_label, .one n, hs'⟩

theorem Access.rewired {op name scope} (h : Access s op name scope none code s') (hop : op.isVariable)
    (hs : s.labels = n :: outer) : Rewired n outer [⟨.pseudo op, .atomInt name scope⟩] code s' := by
  have hend : Instr.endLabel? ⟨.pseudo op, .atomInt name scope⟩ = none := by cases op <;> rfl
  obtain ⟨withs, found, strict, ⟨rfl, hs', hwiths⟩ | ⟨-, rfl, hs'⟩⟩ := h.code_eq hs
  · refine rewired_unlabelled hend (target?_of_adds (k := op.info.pops) (e := op.info.pushes) ?_) hs'
    rw [hwiths rfl]
    simpa [accessCode] using adds_accessBinding (k := 0) hop name strict found
  · exact rewired_own hend (wired_accessCode hop name withs found strict n _) hs'

/-- A step: the code of one instruction. -/
theorem Resolved.rewired (h : Resolved s i code s') (hs : s.labels = n :: outer) : Rewired n outer [i] code s' := by
  cases h with
  | final o arg => exact rewired_self _ hs
  | marker => exact rewired_self _ hs
  | enterScope scope =>
    exact rewired_unlabelled rfl (target?_of_adds (k := 0) (adds_enterScope _ _)) hs
  | leaveScope scope =>
    exact rewired_unlabelled rfl (target?_of_adds (k := 0) (adds_leaveScope _ _)) hs
  | chainField | chainElement =>
    refine rewired_unlabelled rfl (fun j hj => ?_) hs
    cases List.mem_singleton.mp hj
    rfl
  | optionalLink exit =>
    rw [State.nextLabel_frame hs]
    exact rewired_own rfl (wired_optionalLink n List.mem_cons_self) (State.labels_withLabel hs)
  | makeRef access =>
    obtain ⟨withs, found, strict, ⟨rfl, hs', -⟩ | ⟨hlabel, -⟩⟩ := access.code_eq hs
    · exact ⟨[], n, wired_accessCode rfl _ withs found strict _ [], .nil le_rfl, hs'⟩
    · cases hlabel
  | ofVariable _ isVariable access => exact access.rewired isVariable hs
  | @ofPrivate op _ _ _ _ isPrivate access =>
    refine rewired_unlabelled ?_ (target?_of_adds (k := 0 + op.info.pops) access.adds)
      (access.labels_eq.trans hs)
    cases op <;> rfl

/-- The code of a function. -/
theorem CodeResolved.rewired {body pieces} (h : CodeResolved s body pieces s') (hs : s.labels = n :: outer) :
    Rewired n outer body pieces.flatten s' := by
  induction h generalizing n with
  | nil => exact ⟨[], n, .nil _, .nil le_rfl, hs⟩
  | @cons _ _ _ i body piece pieces first _ ih =>
    obtain ⟨own, n', hwired, hfresh, hs₁⟩ := first.rewired hs
    obtain ⟨own', n'', hwired', hfresh', hs₂⟩ := ih hs₁
    have hends : ends (i :: body) = ends [i] ++ ends body := ends_append [i] body
    have hjumps : jumps (i :: body) = jumps [i] ++ jumps body := jumps_append [i] body
    refine ⟨own ++ own', n'', ?_, hfresh.append hfresh', hs₂⟩
    rw [hends, hjumps, List.flatten_cons]
    refine (hwired.mono fun l hl => ?_).append (hwired'.mono fun l hl => ?_)
    · simp only [List.mem_append] at hl ⊢
      exact hl.imp .inl .inl
    · simp only [List.mem_append] at hl ⊢
      exact hl.imp .inr .inr

/-- A resolved function is wired as it was when it was emitted. Labels that were made since then are new. -/
theorem ResolvedFunction.isWired {outer outer' t'} (h : ResolvedFunction outer outer' t t') (hemitted : t.IsWired) :
    t'.IsWired ∧ ∃ own, (ends t'.code).Perm (ends t.code ++ own) ∧ (∀ l ∈ own, t.frame.nextLabel ≤ l) ∧
      ∀ l ∈ jumps t'.code, l ∈ ends t.code ∨ l ∈ jumps t.code ∨ l ∈ own := by
  obtain ⟨s, pieces, s', hs, hlabel, hcode, hframe, -, hresult⟩ := h.run
  obtain ⟨S, hS⟩ := State.frames_eq hs
  have hlabels : s.labels = t.frame.nextLabel :: S.map Frame.nextLabel := by
    rw [State.labels, hS, List.map_cons, hlabel]
  obtain ⟨own, n', hwired, hfresh, hlabels'⟩ := hcode.rewired hlabels
  have hnext : t'.frame.nextLabel = n' := by
    rw [← hframe]
    exact State.nextLabel_frame hlabels'
  have hprologue : Wired (ends t.code ++ jumps t.code) [] [] t'.frame.prologue :=
    .unlabelled (target?_of_adds (k := 0) (adds_prologue t'.frame)) _
  have hall := hprologue.append hwired
  rw [← hresult] at hall
  have hends : (ends t'.code).Perm (ends t.code ++ own) := hall.ends
  have hjumps : ∀ l ∈ jumps t'.code, l ∈ ends t.code ∨ l ∈ jumps t.code ∨ l ∈ own := by
    intro l hl
    simpa [or_assoc] using hall.jumps l hl
  refine ⟨⟨hends.nodup_iff.mpr ?_, fun l hl => ?_, fun l hl => hends.mem_iff.mpr ?_⟩, own, hends,
    fun l hl => (hfresh.between l hl).1, hjumps⟩
  · refine List.nodup_append.mpr ⟨hemitted.nodup, hfresh.nodup, ?_⟩
    rintro l hl _ hown rfl
    exact lt_irrefl l ((hemitted.lt l hl).trans_le (hfresh.between l hown).1)
  · rw [hnext]
    rcases List.mem_append.mp (hends.mem_iff.mp hl) with hl | hl
    · exact (hemitted.lt l hl).trans_le hfresh.le
    · exact (hfresh.between l hl).2
  · rcases hjumps l hl with hl | hl | hl
    · exact List.mem_append_left _ hl
    · exact List.mem_append_left _ (hemitted.jumps l hl)
    · exact List.mem_append_right _ hl

end Naming

/-! ## Layout -/

namespace Layout

variable {code : List Instr} {e : Error}

/-- A jump that no field has room for. -/
def IsTooLong (e : Error) : Prop :=
  ∃ distance name, e = .internal (.jumpTooLong distance name)

theorem isTooLong_of_widen {bound here} (hlinked : Linked code) (hlabel : ∀ i ∈ code, Labelled i)
    (hbind : bind 0 [] code = .ok bound) (hhere : here ∈ placeFrom 0 code) (h : widen bound here = .error e) :
    IsTooLong e := by
  unfold widen at h
  split at h
  · cases h
  · rename_i op hop
    split at h
    · cases h
    · rename_i hjump
      obtain ⟨target, hlookup, -⟩ :=
        hlinked.lookup_label hlabel hbind (mem_placeFrom hhere).1 hop (by simpa using hjump)
      dsimp only at h
      rw [hlookup] at h
      dsimp only at h
      split at h
      · cases h
      · split at h
        · cases h
        · cases h
          exact ⟨_, _, rfl⟩

theorem isTooLong_of_settle {rounds} (hlinked : Linked code) (hlabel : ∀ i ∈ code, Labelled i)
    (h : settle rounds code = .error e) : IsTooLong e := by
  induction rounds generalizing code with
  | zero => cases h
  | succ rounds ih =>
    obtain ⟨bound, hbound⟩ := hlinked.bind_ok
    obtain ⟨_, hbound', h⟩ := (bind_eq_error.mp h).resolve_left (by rw [hbound]; nofun)
    cases hbound.symm.trans hbound'
    rcases bind_eq_error.mp h with h | ⟨wider, hwider, h⟩
    · rw [place_eq] at h
      obtain ⟨here, hhere, h⟩ := exists_of_mapM_eq_error h
      exact isTooLong_of_widen hlinked hlabel hbound hhere h
    · split at h
      · cases h
      · rw [place_eq] at hwider
        obtain ⟨hwides, -⟩ := round_spec hwider
        exact ih ((linked_iff_of_widens hwides).mp hlinked)
          (forall₂_mem hwides (fun _ _ => Labelled.widens) hlabel) h

end Layout

/-- In the layout of linked code nothing goes wrong but jumps that are too long. -/
theorem isTooLong_of_assemble {code e} (hplace : ∀ i ∈ code, Layout.Placeable i)
    (hlabel : ∀ i ∈ code, Layout.Labelled i) (hlinked : Layout.Linked code) (h : assemble code = .error e) :
    Layout.IsTooLong e := by
  obtain ⟨⟨⟩, -, h⟩ := (bind_eq_error.mp h).resolve_left (by rw [Layout.checkOpcodes_eq_ok_iff.mpr hplace]; nofun)
  rcases bind_eq_error.mp h with h | ⟨settled, hsettle, h⟩
  · exact Layout.isTooLong_of_settle hlinked hlabel h
  · have hsteps := Layout.stepsLeft_le code
    obtain ⟨-, bound, hsettled⟩ := Layout.settle_spec hsettle (by omega)
    rw [hsettled.binds] at h
    cases h

variable {f : Frame}

theorem Frame.Admits.placeable {t} (h : f.Admits pool t i) : Layout.Placeable i := by
  cases h with
  | mark | line => exact .inl rfl
  | _ => exact .inr ⟨_, rfl⟩

theorem Frame.Admits.isRaw {t} (h : f.Admits pool t i) : i.op.isRaw := by
  cases h with
  | free isFree =>
    simp only [Opcode.isFree, Bool.and_eq_true] at isFree
    exact isFree.1.1.1
  | slot _ _ isLong => simp [Instr.of, Op.isRaw, isLong]
  | reference slot => cases slot <;> rfl
  | constant | closure | mark | line => rfl
  | @jump o isJump => cases o <;> first | rfl | cases isJump
  | tryWith op => cases op <;> rfl

theorem Frame.Admits.labelled {t} (h : f.Admits pool t i) : Layout.Labelled i := by
  cases h with
  | @free o _ isFree =>
    simp only [Opcode.isFree, Bool.and_eq_true, Bool.not_eq_true'] at isFree
    intro hlabel
    cases hlabel.symm.trans isFree.1.1.2
  | @slot o slot format =>
    intro hlabel
    have hformat : (Instr.of o (.int slot.index)).op.format = slot.format := format
    rw [hformat] at hlabel
    cases slot <;> cases hlabel
  | reference slot =>
    intro hlabel
    cases slot <;> cases hlabel
  | constant | closure | line =>
    intro hlabel
    cases hlabel
  | jump | tryWith | mark => exact fun _ => rfl

/-- Wired code without placeholders is linked. -/
theorem FunctionTree.IsWired.linked (h : t.IsWired) (hplace : ∀ i ∈ t.code, Layout.Placeable i) :
    Layout.Linked t.code := by
  have hmarked : ∀ i ∈ t.code, i.endLabel? = Layout.marked? i := by
    intro i hi
    obtain ⟨op, arg⟩ := i
    rcases hplace _ hi with hmarker | ⟨o, ho⟩
    · cases op with
      | final => cases hmarker
      | pseudo p => cases p <;> first | rfl | cases hmarker
    · cases ho
      rfl
  have hmarks : ends t.code = Layout.marks t.code := List.filterMap_congr hmarked
  refine ⟨hmarks ▸ h.nodup, fun i hi l hl => hmarks ▸ h.jumps l (List.mem_filterMap.mpr ⟨i, ?_, ?_⟩)⟩
  · exact List.mem_of_mem_filter hi
  · have hend : i.endLabel? = none := by
      rw [hmarked i (List.mem_of_mem_filter hi), Layout.marked?, if_neg]
      intro hmark
      have hmarker : i.isMarker = false := by simpa using (List.mem_filter.mp hi).2
      rw [Instr.isMark, beq_iff_eq] at hmark
      rw [Instr.isMarker, hmark] at hmarker
      cases hmarker
    rw [Instr.jump?, hend]
    exact hl

/-! ## Programs -/

theorem Emittable.isRaw {s} (h : Emittable s i) : i.op.isRaw := by
  cases h with
  | permitted h =>
    cases h with
    | free isFree =>
      simp only [Opcode.isFree, Bool.and_eq_true] at isFree
      exact isFree.1.1.1
    | completion isLoc => rcases isLoc with rfl | rfl <;> rfl
    | arg isArg => rcases isArg with rfl | rfl <;> rfl
    | constant | closure | access | scope | chainField | chainElement | line => rfl
  | mark | makeRef | optionalLink => rfl
  | @jump o isJump => cases o <;> first | rfl | cases isJump

/-- A label occurs in the code, as the target of a jump or marked. -/
def Mentions (code : List Instr) (l : Nat) : Prop :=
  ∃ i ∈ code, i.target? = some l

theorem mentions_iff {code l} : Mentions code l ↔ l ∈ ends code ∨ l ∈ jumps code := by
  constructor
  · rintro ⟨i, hi, hl⟩
    cases hend : i.endLabel? with
    | some l' =>
      cases (Flow.target?_of_endLabel? hend).symm.trans hl
      exact .inl (List.mem_filterMap.mpr ⟨i, hi, hend⟩)
    | none =>
      refine .inr (List.mem_filterMap.mpr ⟨i, hi, ?_⟩)
      rw [Instr.jump?, hend]
      exact hl
  · rintro (hl | hl)
    · obtain ⟨i, hi, hl⟩ := List.mem_filterMap.mp hl
      exact ⟨i, hi, Flow.target?_of_endLabel? hl⟩
    · obtain ⟨i, hi, hl⟩ := List.mem_filterMap.mp hl
      rw [Instr.jump?] at hl
      split at hl
      · cases hl
      · exact ⟨i, hi, hl⟩

/-- What is promised of the labels of a function that was emitted as `t` and whose names were resolved in `t'`. -/
structure FunctionTree.LabelsKept (t t' : FunctionTree) : Prop where
  /-- The code can be read back from its bytes, before names are resolved and after. -/
  emittedRaw : ∃ read, decodeRaw (encodeRaw t.code) = .ok read ∧ read.map (·.instr) = t.code.map Instr.readRaw
  resolvedRaw : ∃ read, decodeRaw (encodeRaw t'.code) = .ok read ∧ read.map (·.instr) = t'.code.map Instr.readRaw
  /-- No placeholder is left. -/
  placeable : ∀ i ∈ t'.code, Layout.Placeable i
  /-- Labels made while names are resolved are new. -/
  old : ∀ l, Mentions t.code l → l < t.frame.nextLabel
  new : ∀ l, Mentions t'.code l → Mentions t.code l ∨ t.frame.nextLabel ≤ l
  /-- Every label of a jump is marked exactly once. -/
  linked : Layout.Linked t'.code
  /-- The layout fails only if a jump is too long, and not if the code is short enough. -/
  tooLong : ∀ e, assemble t'.code = .error e → Layout.IsTooLong e
  laidOut : Layout.sizeOf (t'.code.map Instr.widest) < 0x80000000 → ∃ a, assemble t'.code = .ok a

theorem Naming.ResolvedFunction.labelsKept {atoms outer outer' t'} (h : ResolvedFunction outer outer' t t')
    (ht : t.Emitted atoms) : t.LabelsKept t' := by
  have hemitted := ht.isWired
  obtain ⟨hwired, own, hends, hnew, hjumps⟩ := h.isWired hemitted
  have hadmits := h.admits ht
  have hplace : ∀ i ∈ t'.code, Layout.Placeable i := fun i hi => (hadmits i hi).placeable
  have hlabel : ∀ i ∈ t'.code, Layout.Labelled i := fun i hi => (hadmits i hi).labelled
  have hlinked := hwired.linked hplace
  refine ⟨decodeRaw_encodeRaw ?_, decodeRaw_encodeRaw fun i hi => (hadmits i hi).isRaw, hplace, fun l hl => ?_,
    fun l hl => ?_, hlinked, fun e he => isTooLong_of_assemble hplace hlabel hlinked he, fun hsize => ?_⟩
  · obtain ⟨σ, rfl, hσ⟩ := ht.finished
    exact fun i hi => (hσ.emittable i (Array.mem_toList_iff.mp hi)).isRaw
  · exact hemitted.lt l ((mentions_iff.mp hl).elim id (hemitted.jumps l))
  · rw [mentions_iff] at hl ⊢
    rcases hl with hl | hl
    · exact (List.mem_append.mp (hends.mem_iff.mp hl)).imp .inl (hnew l)
    · rcases hjumps l hl with hl | hl | hl
      · exact .inl (.inl hl)
      · exact .inl (.inr hl)
      · exact .inr (hnew l hl)
  · exact assemble_ok hplace hlabel hlinked hsize

/-- Labels of compiled programs: throughout the program, every function keeps what is promised of its labels. -/
theorem labelsKept_of_resolveTree {options : CompileOptions} {p : Program} {tree tree' : FunctionTree}
    {filename : Atom} {s : EmitState} {naming : Naming.State} (hemit : emitProgram options p = .ok (tree, filename, s))
    (hresolve : (Naming.resolveTree tree).run ⟨s.atoms, []⟩ = .ok (tree', naming)) :
    tree.Throughout (fun _ _ t t' => t.LabelsKept t') [] [] tree' := by
  have hprogram := emittedProgram_emitProgram hemit
  obtain ⟨hadvances, -, hthroughout⟩ :=
    Naming.resolvedFunctions_resolveTree hprogram.tree.scoped (fun h => absurd rfl h) .nil hresolve
  rw [hadvances.stack.eq_nil] at hthroughout
  exact (hthroughout.emitted hprogram.tree).mono fun h => h.2.labelsKept h.1

/-- The program `function f(o) { with (o) for (;;) { x ||= y?.z; try { break; } finally { g(); } } }`, where labels are
made for a loop, a finalizer, a logical assignment, a reference, an optional chain and the object of `with`. -/
def Program.labelledAccesses : Program where
  body :=
    let ident (name : String) : Ident := ⟨name, .unknown⟩
    let chain : Expr := .chain (.member ⟨.ident (ident "y"), .name "z", true, .unknown⟩) .unknown
    let body : List Stmt :=
      [.expr (.assign .or (.ident (ident "x")) chain .unknown) .unknown,
        .tryCatch ⟨[.breakTo none .unknown], .unknown⟩ none
          (some ⟨[.expr (.call (.ident (ident "g")) [] false .unknown) .unknown], .unknown⟩) .unknown]
    let loop : Stmt := .forLoop none none none (.block ⟨body, .unknown⟩) .unknown
    [.functionDecl ⟨some (ident "f"), [.ident (ident "o")],
      .block [.withObject (.ident (ident "o")) loop .unknown], false, false, false, none, .unknown⟩]
  sourceType := .script
  strict := false
  source := none
  span := .unknown

theorem labelsKept_labelledAccesses : ∃ tree filename s tree' naming,
    emitProgram .standard Program.labelledAccesses = .ok (tree, filename, s) ∧
      (Naming.resolveTree tree).run ⟨s.atoms, []⟩ = .ok (tree', naming) ∧ tree.children.length = 1 ∧
      tree.Throughout (fun _ _ t t' => t.LabelsKept t') [] [] tree' := by
  have hok : (do
      let emitted ← emitProgram .standard Program.labelledAccesses
      let _ ← (Naming.resolveTree emitted.1).run ⟨emitted.2.2.atoms, []⟩
      return emitted.1.children.length : Result Nat) = .ok 1 := by decide +kernel
  obtain ⟨⟨tree, filename, s⟩, hemit, hok⟩ := bind_eq_ok.mp hok
  obtain ⟨⟨tree', naming⟩, hresolve, hok⟩ := bind_eq_ok.mp hok
  exact ⟨tree, filename, s, tree', naming, hemit, hresolve, Except.ok.inj hok, labelsKept_of_resolveTree hemit hresolve⟩

end ScriptBytecode
