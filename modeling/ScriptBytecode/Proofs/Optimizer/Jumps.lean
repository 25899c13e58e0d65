import ScriptBytecode.Optimizer.DeadCode
import ScriptBytecode.Optimizer.Threading
import ScriptBytecode.Proofs.Optimizer.Rules

/-!
# Jumps and dead code

All labels on the way of a jump have one depth, so a jump may go to the end of the way at once. Code that is
left out is not reached, or does nothing.
-/

namespace ScriptBytecode

open Flow
open Layout (marks marked? marks_append)

variable {L : Nat → Option Nat} {cur : Option Nat}

variable {code rest front : List Instr} {l d : Nat} {i : Instr} {arg : Operand} {op : Opcode}

namespace Flow

/-- The second labelling gives depths to some of the labels that had none. -/
structure Extends (labels : List Nat) (L L' : Nat → Option Nat) : Prop where
  grows : ∀ l, Under (L l) (L' l)
  same : ∀ l, l ∉ labels → L' l = L l

variable {labels : List Nat} {L' L'' : Nat → Option Nat}

theorem Extends.refl (labels : List Nat) (L : Nat → Option Nat) : Extends labels L L :=
  ⟨fun _ => .refl _, fun _ _ => rfl⟩

theorem Extends.trans (h : Extends labels L L') (h' : Extends labels L' L'') : Extends labels L L'' :=
  ⟨fun l => (h.grows l).trans (h'.grows l), fun l hl => (h'.same l hl).trans (h.same l hl)⟩

theorem Extends.mono {more} (h : Extends labels L L') (hmore : labels ⊆ more) : Extends more L L' :=
  ⟨h.grows, fun l hl => h.same l fun hmem => hl (hmore hmem)⟩

theorem extends_update (h : L l = none) : Extends [l] L (Function.update L l (some d)) where
  grows := by
    intro x e he
    have hne : x ≠ l := by
      rintro rfl
      exact nomatch h.symm.trans he
    rwa [Function.update_of_ne hne]
  same := fun x hx => Function.update_of_ne (fun heq => hx (List.mem_singleton.mpr heq)) _ _

/-- Code goes on to flow as long as it has none of the labels itself. -/
theorem Extends.flows (h : Extends labels L L') (hends : ∀ i ∈ code, ∀ l, i.endLabel? = some l → l ∉ labels)
    (hflows : Flows L cur code) :
    Flows L' cur code ∧ through L' code cur = through L code cur := by
  induction code generalizing cur with
  | nil => exact ⟨trivial, rfl⟩
  | cons i rest ih =>
    rw [List.forall_mem_cons] at hends
    have hpass : pass L' i cur = pass L i cur := by
      cases hend : i.endLabel? with
      | some l => rw [pass_end hend, pass_end hend, h.same l (hends.1 l hend)]
      | none => rw [pass, pass, hend]
    obtain ⟨hrest, hthrough⟩ := ih hends.2 hflows.2
    rw [Flows, through_cons, hpass]
    refine ⟨⟨?_, hrest⟩, hthrough⟩
    cases hm : marked? i with
    | some l => exact (allows_mark hm _).mpr fun d hd => h.grows l d ((allows_mark hm _).mp hflows.1 d hd)
    | none =>
      cases cur with
      | none => exact allows_none i
      | some d =>
        have hallows := (allows_some hm d).mp hflows.1
        refine (allows_some hm d).mpr ⟨hallows.1, fun l hl => ?_⟩
        exact h.grows l _ (hallows.2 l hl)

end Flow

/-! ## Dead code -/

/-- Of all placeholders only markers can be laid out. -/
theorem Layout.Placeable.marker {op} (h : Placeable ⟨.pseudo op, arg⟩) : op = .label ∨ op = .lineNum := by
  rcases h with h | ⟨_, h⟩
  · unfold Instr.isMarker at h
    split at h
    · rename_i heq
      exact .inl (Op.pseudo.inj heq)
    · rename_i heq
      exact .inr (Op.pseudo.inj heq)
    · cases h
  · cases h

theorem Layout.Placeable.endLabel? (h : Placeable i) : i.endLabel? = marked? i := by
  obtain ⟨op, arg⟩ := i
  cases op with
  | final op => rfl
  | pseudo op => rcases h.marker with rfl | rfl <;> rfl

namespace DeadCode

theorem mem_referenced : l ∈ referenced code ↔ ∃ i ∈ code, i.opcode?.any Opcode.isJump ∧ i.arg.label? = some l := by
  simp [referenced]

/-- Some code is replaced by code that uses no other labels. -/
theorem referenced_replace (old new) (h : ∀ i ∈ new, i.opcode?.any Opcode.isJump → ∀ l, i.arg.label? = some l →
      l ∈ referenced (front ++ (old ++ rest))) :
    referenced (front ++ (new ++ rest)) ⊆ referenced (front ++ (old ++ rest)) := by
  intro l hl
  obtain ⟨i, hi, hjump, hlabel⟩ := mem_referenced.mp hl
  simp only [List.mem_append] at hi
  rcases hi with hi | hi | hi
  · exact mem_referenced.mpr ⟨i, by simp [hi], hjump, hlabel⟩
  · exact h i hi hjump l hlabel
  · exact mem_referenced.mpr ⟨i, by simp [hi], hjump, hlabel⟩

/-- Is the instruction kept? -/
def stays (used : List Nat) (live : Bool) (i : Instr) : Bool :=
  match i.op with
  | .pseudo .label => i.arg.label?.any used.contains
  | .pseudo _ => true
  | .final _ => live

/-- Does control come to the instruction behind this one? -/
def after (used : List Nat) (live : Bool) (i : Instr) : Bool :=
  match i.op with
  | .pseudo .label => i.arg.label?.any used.contains || live
  | .pseudo _ => live
  | .final op => live && !op.isTerminator

/-- What is kept of code. -/
def kept (used : List Nat) : Bool → List Instr → List Instr
  | _, [] => []
  | live, i :: rest =>
    if stays used live i then i :: kept used (after used live i) rest else kept used (after used live i) rest

theorem keep_eq (used : List Nat) (live : Bool) (front code : List Instr) :
    keep used live front code = front.reverse ++ kept used live code := by
  induction code generalizing live front with
  | nil => simp [keep, kept]
  | cons i rest ih =>
    obtain ⟨op, arg⟩ := i
    cases op with
    | pseudo op =>
      by_cases hlabel : op = .label
      · subst hlabel
        by_cases hused : arg.label?.any used.contains = true
        · simp [keep, kept, stays, after, hused, ih]
        · simp [keep, kept, stays, after, hused, ih]
      · simp [keep, kept, stays, after, ih]
    | final op =>
      cases live with
      | true => simp [keep, kept, stays, after, ih]
      | false => simp [keep, kept, stays, after, ih]

variable {used : List Nat} {live : Bool}

theorem kept_cons_of_stays (h : stays used live i) (rest : List Instr) :
    kept used live (i :: rest) = i :: kept used (after used live i) rest :=
  if_pos h

theorem kept_cons_of_not_stays (h : stays used live i = false) (rest : List Instr) :
    kept used live (i :: rest) = kept used (after used live i) rest :=
  if_neg (by simp [h])

theorem stays_of_marked? (hi : marked? i = some l) (hl : l ∈ used) (live : Bool) :
    stays used live i ∧ after used live i := by
  obtain ⟨op, arg⟩ := i
  cases op with
  | final op => cases hi
  | pseudo op =>
    unfold marked? at hi
    split at hi
    · rename_i hmark
      obtain rfl : op = .label := by simpa [Instr.isMark] using hmark
      have hlabel : arg.label? = some l := hi
      simp [stays, after, hlabel, hl]
    · cases hi

/-- What is kept is reached at the same depths; `live` is false only where control does not come to. -/
theorem flows_keep (used : List Nat) (kept : List Instr) {cur'} (hcode : Workable code) (hflows : Flows L cur code)
    (hcur : Under cur' cur) (hlive : live = false → cur' = none) :
    ∃ new, keep used live kept code = kept.reverse ++ new ∧ Flows L cur' new ∧ new.Sublist code := by
  induction code generalizing live kept cur cur' with
  | nil => exact ⟨[], by simp [keep], trivial, .refl _⟩
  | cons i rest ih =>
    have hrest : Workable rest := fun j hj => hcode j (List.mem_cons_of_mem _ hj)
    have hi := (hcode i List.mem_cons_self).2
    -- the instruction stays
    have hstays : ∀ live', (live' = false → pass L i cur' = none) →
        ∃ new, keep used live' (i :: kept) rest = kept.reverse ++ new ∧ Flows L cur' new ∧
          new.Sublist (i :: rest) := by
      intro live' hlive'
      obtain ⟨new, hnew, hflows', hsub⟩ := ih (i :: kept) hrest hflows.2 (hcur.pass i) hlive'
      refine ⟨i :: new, by simpa using hnew, ⟨?_, hflows'⟩, hsub.cons_cons i⟩
      exact hcur.allows hflows.1
    -- the instruction is left out
    have hgoes : Under cur' (pass L i cur) → ∃ new, keep used live kept rest = kept.reverse ++ new ∧
        Flows L cur' new ∧ new.Sublist (i :: rest) := by
      intro hunder
      obtain ⟨new, hnew, hflows', hsub⟩ := ih kept hrest hflows.2 hunder hlive
      exact ⟨new, hnew, hflows', hsub.cons i⟩
    obtain ⟨op, arg⟩ := i
    unfold keep
    dsimp only
    split
    · split
      · exact hstays true nofun
      · refine hgoes fun d hd => ?_
        have hcur := hcur d hd
        subst hcur
        exact Layout.pass_marker rfl hflows.1
    · rename_i op hlabel
      obtain rfl : op = .lineNum := hi.marker.resolve_left hlabel
      refine hstays live fun h => ?_
      rw [hlive h]
      exact pass_none rfl
    · rename_i op
      split
      · refine hstays _ fun h => ?_
        have hexit : op.isTerminator := by simpa using h
        exact pass_exit (i := ⟨.final op, arg⟩) rfl hexit cur'
      · rename_i hdead
        have hdead : live = false := by simpa using hdead
        rw [hlive hdead] at hgoes ⊢
        have := hgoes (under_none _)
        rwa [hdead] at this

/-- If the last instruction is left out, the one kept before it does not pass control on either. -/
theorem endsInExit_keep (used : List Nat) {kept : List Instr} (hcode : Workable code)
    (hlive : live = false → EndsInExit kept.reverse) (h : EndsInExit (kept.reverse ++ code)) :
    EndsInExit (keep used live kept code) := by
  induction code generalizing live kept with
  | nil => simpa [keep] using h
  | cons i rest ih =>
    have hrest : Workable rest := fun j hj => hcode j (List.mem_cons_of_mem _ hj)
    have hi := (hcode i List.mem_cons_self).2
    -- the instruction stays
    have hstays : ∀ live', (live' = false → EndsInExit (i :: kept).reverse) →
        EndsInExit (keep used live' (i :: kept) rest) :=
      fun live' hlive' => ih hrest hlive' (by simpa using h)
    obtain ⟨op, arg⟩ := i
    unfold keep
    dsimp only
    split
    · split
      · exact hstays true nofun
      · refine ih hrest hlive ?_
        by_cases hbare : bare rest = []
        · -- a label is no exit
          obtain ⟨j, hj, hexit⟩ := h
          have hlabel : bare (⟨.pseudo .label, arg⟩ :: rest) = ⟨.pseudo .label, arg⟩ :: bare rest := rfl
          rw [bare_append, hlabel, hbare, List.getLast?_concat] at hj
          cases hj
          cases hexit
        · rw [endsInExit_append hbare]
          rwa [endsInExit_append_cons _ hbare] at h
    · rename_i op hlabel
      obtain rfl : op = .lineNum := hi.marker.resolve_left hlabel
      refine hstays live fun hdead => ?_
      rw [List.reverse_cons, endsInExit_append_lines rfl]
      exact hlive hdead
    · rename_i op
      split
      · refine hstays _ fun hdead => ?_
        have hexit : op.isTerminator := by simpa using hdead
        rw [List.reverse_cons]
        have hlast : EndsInExit [⟨.final op, arg⟩] := ⟨_, rfl, hexit⟩
        exact hlast.append _
      · rename_i hdead
        have hdead := hlive (by simpa using hdead)
        refine ih hrest (fun _ => hdead) ?_
        by_cases hbare : bare rest = []
        · exact (endsInExit_append_lines hbare).mpr hdead
        · rw [endsInExit_append hbare]
          rwa [endsInExit_append_cons _ hbare] at h

theorem replaces_run (hcode : Workable code) : Replaces code (run code) := by
  have hkeep : ∀ {L cur}, Flows L cur code → Flows L cur (run code) ∧ (run code).Sublist code := by
    intro L cur hflows
    have hlive : true = false → cur = none := nofun
    obtain ⟨new, hnew, hflows', hsub⟩ := flows_keep (referenced code) [] hcode hflows (.refl _) hlive
    obtain rfl : run code = new := hnew
    exact ⟨hflows', hsub⟩
  -- without labels and without a depth, all code flows
  have hsub : (run code).Sublist code := (hkeep (flows_none (L := fun _ => none) fun _ _ _ _ => rfl).1).2
  refine ⟨fun h => (hkeep h).1, fun h i hi => h i (hsub.subset hi), hsub.filterMap _,
    fun h i hi => h i (hsub.subset hi), fun {front} h => ?_⟩
  by_cases hbare : bare code = []
  · have hbare' : bare (run code) = [] := List.sublist_nil.mp (hbare ▸ hsub.filter _)
    exact (endsInExit_append_lines hbare').mpr ((endsInExit_append_lines hbare).mp h)
  · rw [endsInExit_append hbare] at h
    have hends : EndsInExit (run code) := endsInExit_keep _ hcode nofun h
    exact hends.append front

end DeadCode

/-! ## Threading -/

namespace Threading

/-- Where nothing is done the depth stays. -/
theorem pass_idle (hi : i.isMarker ∨ i.is .nop) (hallows : Allows L i (some d)) : pass L i (some d) = some d := by
  rcases hi with hmarker | hnop
  · exact Layout.pass_marker hmarker hallows
  · obtain ⟨op, arg⟩ := i
    obtain rfl : op = .final .nop := by simpa [Instr.is] using hnop
    rw [pass_some rfl]
    rfl

/-- Control comes to the first instruction behind markers at the depth in front of them. -/
theorem flows_firstCode? (hcode : Workable code) (hflows : Flows L (some d) code) (h : firstCode? code = some i) :
    Allows L i (some d) := by
  induction code with
  | nil => cases h
  | cons j rest ih =>
    have hrest : Workable rest := fun k hk => hcode k (List.mem_cons_of_mem _ hk)
    unfold firstCode? at h ih
    rw [List.find?_cons] at h
    split at h
    · cases h
      exact hflows.1
    · rename_i hidle
      simp only [Bool.and_eq_false_iff, Bool.not_eq_false'] at hidle
      exact ih hrest (pass_idle hidle hflows.1 ▸ hflows.2) h

theorem behind?_eq_some {found} (h : behind? l found code = some rest) :
    found = some rest ∨ ∃ front i, code = front ++ i :: rest ∧ marked? i = some l := by
  induction code generalizing found with
  | nil => exact .inl h
  | cons i code ih =>
    rcases ih h with hfound | ⟨front, j, rfl, hj⟩
    · split at hfound
      · rename_i hmark
        cases hfound
        refine .inr ⟨[], i, rfl, ?_⟩
        simp only [Bool.and_eq_true, decide_eq_true_eq] at hmark
        rw [marked?, if_pos hmark.1, hmark.2]
      · exact .inl hfound
    · exact .inr ⟨i :: front, j, rfl, hj⟩

/-- Control that comes to a label comes to the instruction behind it at the depth of the label. -/
theorem flows_landing? (hcode : Workable code) (hflows : Flows L cur code) (hl : L l = some d)
    (h : landing? code l = some i) : Allows L i (some d) := by
  obtain ⟨rest, hbehind, hfirst⟩ := Option.bind_eq_some_iff.mp h
  rcases behind?_eq_some hbehind with hnone | ⟨front, j, rfl, hj⟩
  · cases hnone
  · have hpass := (flows_append.mp hflows).2.2
    rw [pass_end (endLabel?_of_marked? hj), hl] at hpass
    exact flows_firstCode? (fun k hk => hcode k (by simp [hk])) hpass hfirst

/-- A jump that is followed: the instruction at the label is a `goto`. -/
theorem follow_induction {P : Nat → Prop} {start}
    (hgoto : ∀ l next i, P l → landing? code l = some i → i.is .goto → i.arg.label? = some next → P next) (hops : Nat)
    (h : P l) : P (follow code start hops l) := by
  induction hops generalizing l with
  | zero => exact h
  | succ hops ih =>
    unfold follow
    split
    · rename_i i hi
      split
      · rename_i next hnext
        split
        · split at hnext
          · rename_i his
            exact ih (hgoto l next i h hi his hnext)
          · cases hnext
        · exact h
      · exact h
    · exact h

/-- Following jumps keeps the depth. -/
theorem depth_follow {start hops} (hcode : Workable code) (hflows : Flows L cur code) (hl : L l = some d) :
    L (follow code start hops l) = some d := by
  refine follow_induction (P := fun l => L l = some d) (fun l next i hl hi hgoto hnext => ?_) hops hl
  obtain ⟨op, arg⟩ := i
  obtain rfl : op = .final .goto := by simpa [Instr.is] using hgoto
  exact ((allows_some rfl d).mp (flows_landing? hcode hflows hl hi)).2 next hnext

/-- What becomes of a jump: it leads to a label further on, or it is the return that it leads to. -/
theorem retarget_cases (hop : isThreaded op) :
    retarget code ⟨.final op, arg⟩ = ⟨.final op, arg⟩ ∨
      ∃ start, arg.label? = some start ∧
        (retarget code ⟨.final op, arg⟩ = .of op (.label (follow code start 8 start)) ∨
          op = .goto ∧ ∃ i o, landing? code (follow code start 8 start) = some i ∧ i.opcode? = some o ∧
            (o = .returnValue ∨ o = .returnUndef) ∧ retarget code ⟨.final op, arg⟩ = .plain o) := by
  unfold retarget
  dsimp only [Instr.opcode?]
  cases hl : arg.label? with
  | none => exact .inl rfl
  | some start =>
    simp only [hop, Bool.not_true, Bool.false_eq_true, if_false]
    have hreturn : ∀ o, (if op = .goto then (landing? code (follow code start 8 start)).bind Instr.opcode? else none)
        = some o → op = .goto ∧ ∃ i, landing? code (follow code start 8 start) = some i ∧ i.opcode? = some o := by
      intro o ho
      split at ho
      · rename_i hgoto
        obtain ⟨i, hi, ho⟩ := Option.bind_eq_some_iff.mp ho
        exact ⟨hgoto, i, hi, ho⟩
      · cases ho
    split
    · rename_i hland
      obtain ⟨hgoto, i, hi, ho⟩ := hreturn _ hland
      exact .inr ⟨start, rfl, .inr ⟨hgoto, i, _, hi, ho, .inl rfl, rfl⟩⟩
    · rename_i hland
      obtain ⟨hgoto, i, hi, ho⟩ := hreturn _ hland
      exact .inr ⟨start, rfl, .inr ⟨hgoto, i, _, hi, ho, .inr rfl, rfl⟩⟩
    · split
      · exact .inl rfl
      · exact .inr ⟨start, rfl, .inl rfl⟩

/-- The label that a threaded jump leads to has the depth behind the jump. -/
theorem allows_jump (hop : isThreaded op) :
    Allows L ⟨.final op, arg⟩ (some d) ↔ op.info.pops ≤ d ∧
      ∀ l, arg.label? = some l → L l = some (d - op.info.pops) := by
  unfold isThreaded at hop
  split at hop
  case h_4 => cases hop
  all_goals
    rw [allows_some rfl]
    exact Iff.rfl

/-- One instruction is replaced; why this may be done can depend on all the code. -/
theorem replaces_one {j} (hmark : marked? j = none) (hpass : ∀ L cur, pass L j cur = pass L i cur)
    (hallows : ∀ L cur d, Flows L cur (front ++ i :: rest) → Allows L i (some d) → Allows L j (some d))
    (hworkable : i.Encodable ∧ Layout.Placeable i → j.Encodable ∧ Layout.Placeable j) (hrefers : ∀ R, j.Refers R)
    (hexit : i.isExit → j.isExit) (hlines : i.isLine = false ∧ j.isLine = false) :
    Replaces (front ++ i :: rest) (front ++ j :: rest) where
  flows := by
    intro L cur h
    obtain ⟨hfront, hi, hrest⟩ := flows_append.mp h
    refine flows_append.mpr ⟨hfront, ?_, hpass L _ ▸ hrest⟩
    generalize through L front cur = cur' at *
    cases cur' with
    | none => exact allows_none j
    | some d => exact hallows L cur d h hi
  workable := by
    intro h
    unfold Workable at *
    rw [List.forall_mem_append, List.forall_mem_cons] at h ⊢
    exact ⟨h.1, hworkable h.2.1, h.2.2⟩
  marks := by
    unfold marks
    rw [List.filterMap_append, List.filterMap_append, List.filterMap_cons_none hmark]
    refine (List.Sublist.refl _).append ?_
    rw [List.filterMap_cons]
    split
    · exact .refl _
    · exact List.sublist_cons_self _ _
  refers := by
    intro R h
    rw [List.forall_mem_append, List.forall_mem_cons] at h ⊢
    exact ⟨h.1, hrefers R, h.2.2⟩
  exits := by
    intro front' h
    rw [← List.append_assoc] at h ⊢
    by_cases hbare : bare rest = []
    · obtain ⟨k, hk, hk'⟩ := h
      rw [bare_append, bare_cons hlines.1, hbare, List.getLast?_concat] at hk
      cases hk
      have hlast : EndsInExit (j :: rest) := ⟨j, by rw [bare_cons hlines.2, hbare]; rfl, hexit hk'⟩
      exact hlast.append _
    · exact (endsInExit_append_cons j hbare).mpr ((endsInExit_append_cons i hbare).mp h)

/-- A step: one jump. -/
theorem replaces_retarget {front rest op arg} (hop : isThreaded op)
    (hcode : Workable (front ++ ⟨.final op, arg⟩ :: rest)) :
    Replaces (front ++ ⟨.final op, arg⟩ :: rest)
      (front ++ retarget (front ++ ⟨.final op, arg⟩ :: rest) ⟨.final op, arg⟩ :: rest) := by
  have hplain : op.format.takesCount = false := by
    unfold isThreaded at hop
    split at hop <;> first | rfl | cases hop
  have hclosed : op.isClosed := by
    unfold isThreaded at hop
    split at hop <;> first | rfl | cases hop
  rcases retarget_cases hop with heq | ⟨start, hstart, heq | ⟨rfl, i, o, hi, ho, hreturn, heq⟩⟩
  · rw [heq]
    exact .refl _
  · rw [heq]
    refine replaces_one rfl (fun L cur => ?_) (fun L cur d hflows hallows => ?_) (fun _ => ?_)
      (fun R => refers_of_isClosed hclosed _) id ⟨rfl, rfl⟩
    · have hsame : Instr.SameEffect (.of op (.label (follow (front ++ ⟨.final op, arg⟩ :: rest) start 8 start)))
          ⟨.final op, arg⟩ :=
        Instr.sameEffect_of_op fun hcount => absurd (hplain.symm.trans hcount) (by decide)
      unfold Flow.pass
      rw [hsame.isExit, hsame.takesCount, funext hsame.depthBehind]
      rfl
    · obtain ⟨hpops, hlabel⟩ := (allows_jump hop).mp hallows
      refine (allows_jump hop).mpr ⟨hpops, fun l hl => ?_⟩
      cases hl
      exact depth_follow hcode hflows (hlabel start hstart)
    · exact ⟨⟨fun _ => rfl, fun hcount => absurd (hplain.symm.trans hcount) (by decide), nofun⟩,
        .inr ⟨op, rfl⟩⟩
  · rw [heq]
    have hlast : o.isTerminator = true ∧ o.isJump = false ∧ o.format.takesCount = false := by
      rcases hreturn with rfl | rfl <;> exact ⟨rfl, rfl, rfl⟩
    have hclosed : o.isClosed := by rcases hreturn with rfl | rfl <;> rfl
    refine replaces_one rfl (fun L cur => ?_) (fun L cur d hflows hallows => ?_) (fun _ => ?_)
      (fun R => refers_of_isClosed hclosed _) (fun _ => hlast.1) ⟨rfl, rfl⟩
    · rw [pass_exit (i := .plain o) rfl hlast.1, pass_exit rfl rfl]
    · -- the return is reached at the depth of the jump
      obtain ⟨-, hlabel⟩ := (allows_jump hop).mp hallows
      have hland := flows_landing? hcode hflows (depth_follow hcode hflows (hlabel start hstart)) hi
      obtain ⟨op', arg'⟩ := i
      cases op' with
      | pseudo op' => cases ho
      | final op' =>
        obtain rfl : o = op' := (Option.some.inj ho).symm
        have hpops := ((allows_some rfl d).mp hland).1
        rw [Instr.stackEffect_of_not_count ⟨.final o, arg'⟩ hlast.2.2] at hpops
        refine (allows_some rfl d).mpr ⟨?_, fun l hl => ?_⟩
        · rw [Instr.stackEffect_of_not_count (.plain o) hlast.2.2]
          exact hpops
        · rw [Instr.plain, Instr.target?_of_not_jump hlast.2.1] at hl
          cases hl
    · exact ⟨Instr.encodable_of_plain hlast.2.1 hlast.2.2 _, .inr ⟨o, rfl⟩⟩

theorem isJump_of_isThreaded (h : isThreaded op) : op.isJump := by
  unfold isThreaded at h
  split at h <;> first | rfl | cases h

theorem mem_of_landing? (h : landing? code l = some i) : i ∈ code := by
  obtain ⟨rest, hbehind, hfirst⟩ := Option.bind_eq_some_iff.mp h
  have hmem : i ∈ rest := List.mem_of_find?_eq_some hfirst
  rcases behind?_eq_some hbehind with hnone | ⟨front, j, rfl, -⟩
  · cases hnone
  · simp [hmem]

/-- A jump that is threaded leads to a label that some jump leads to, or it is none any more. -/
theorem referenced_retarget (hi : i.opcode?.any isThreaded) :
    DeadCode.referenced (front ++ retarget (front ++ i :: rest) i :: rest) ⊆
      DeadCode.referenced (front ++ i :: rest) := by
  obtain ⟨op, arg⟩ := i
  cases op with
  | pseudo op => cases hi
  | final op =>
    have hjump : op.isJump := isJump_of_isThreaded hi
    rcases retarget_cases hi with heq | ⟨start, hstart, heq | ⟨rfl, j, o, hj, ho, hreturn, heq⟩⟩
    · rw [heq]
      exact List.Subset.refl _
    · have hmem : start ∈ DeadCode.referenced (front ++ .of op arg :: rest) :=
        DeadCode.mem_referenced.mpr ⟨.of op arg, by simp, hjump, hstart⟩
      have hfollow : follow (front ++ .of op arg :: rest) start 8 start ∈
          DeadCode.referenced (front ++ .of op arg :: rest) := by
        refine follow_induction (P := (· ∈ DeadCode.referenced _)) (fun l next i _ hi hgoto hnext => ?_) 8 hmem
        refine DeadCode.mem_referenced.mpr ⟨i, mem_of_landing? hi, ?_, hnext⟩
        obtain ⟨op, arg⟩ := i
        obtain rfl : op = .final .goto := by simpa [Instr.is] using hgoto
        rfl
      rw [heq]
      refine DeadCode.referenced_replace [_] [_] (List.forall_mem_singleton.mpr fun _ l hl => ?_)
      cases hl
      exact hfollow
    · rw [heq]
      refine DeadCode.referenced_replace [_] [_] (List.forall_mem_singleton.mpr fun hjump => ?_)
      rcases hreturn with rfl | rfl <;> cases hjump

theorem marks_retarget (hi : i.opcode?.any isThreaded) :
    marks (front ++ retarget (front ++ i :: rest) i :: rest) = marks (front ++ i :: rest) := by
  obtain ⟨op, arg⟩ := i
  cases op with
  | pseudo op => cases hi
  | final op =>
    have hmark : ∀ code, marked? (retarget code ⟨.final op, arg⟩) = none := by
      intro code
      rcases retarget_cases hi with heq | ⟨_, _, heq | ⟨_, _, _, _, _, _, heq⟩⟩ <;> rw [heq] <;> rfl
    rw [marks_append, marks_append, Layout.marks_cons_none (hmark _)]
    rfl

theorem threadFrom_preserves {P : List Instr → Prop}
    (hstep : ∀ front i rest, i.opcode?.any isThreaded → P (front ++ i :: rest) →
      P (front ++ retarget (front ++ i :: rest) i :: rest)) (left : List Instr) {right}
    (h : P (left.reverse ++ right)) : P (threadFrom left right) := by
  induction right generalizing left with
  | nil => simpa [threadFrom] using h
  | cons i rest ih =>
    unfold threadFrom
    rw [List.reverseAux_eq]
    refine ih _ ?_
    rw [List.reverse_cons, List.append_assoc]
    split
    · rename_i hi
      exact hstep _ i rest hi h
    · exact h

/-- All jumps. -/
theorem replaces_threadFrom (hcode : Workable code) : Replaces code (threadFrom [] code) := by
  refine threadFrom_preserves (P := Replaces code) (fun front i rest hi h => ?_) [] (.refl _)
  obtain ⟨op, arg⟩ := i
  cases op with
  | pseudo op => cases hi
  | final op => exact h.trans (replaces_retarget hi (h.workable hcode))

/-! ### Jumps to the next instruction -/

theorem reaches_cons (hi : Layout.Placeable i) (h : reaches l (i :: rest)) :
    marked? i = some l ∨ reaches l rest ∧ (i.isMarker ∨ i.is .nop) := by
  obtain ⟨op, arg⟩ := i
  unfold reaches at h
  dsimp only at h
  split at h
  · exact .inr ⟨h, .inr rfl⟩
  · cases h
  · simp only [Bool.or_eq_true, decide_eq_true_eq] at h
    exact h.imp id fun hrest => ⟨hrest, .inl rfl⟩
  · rename_i op hlabel
    obtain rfl : op = .lineNum := hi.marker.resolve_left hlabel
    exact .inr ⟨h, .inl rfl⟩

theorem depth_of_reaches (hcode : Workable code) (hflows : Flows L (some d) code) (h : reaches l code) :
    L l = some d := by
  induction code with
  | nil => cases h
  | cons i rest ih =>
    rcases reaches_cons (hcode i List.mem_cons_self).2 h with hmark | ⟨hrest, hidle⟩
    · exact (allows_mark hmark _).mp hflows.1 d rfl
    · exact ih (fun j hj => hcode j (List.mem_cons_of_mem _ hj)) (pass_idle hidle hflows.1 ▸ hflows.2) hrest

theorem flows_idle_cons (hi : i.isMarker ∨ i.is .nop) (hend : i.endLabel? = none) :
    Flows L cur (i :: rest) ↔ Flows L cur rest := by
  obtain ⟨op, arg⟩ := i
  rcases hi with hmarker | hnop
  · unfold Instr.isMarker at hmarker
    dsimp only at hmarker
    split at hmarker
    · exact flows_idle hend rfl hend rfl rfl
    · exact flows_idle rfl rfl rfl rfl rfl
    · cases hmarker
  · obtain rfl : op = .final .nop := by simpa [Instr.is] using hnop
    exact flows_idle rfl rfl rfl rfl rfl

/-- Control may come in front of code at the depth of a label that it reaches without doing anything. Labels
on the way get this depth if control did not come to them before. -/
theorem flows_of_reaches (hcode : Workable code) (hmarks : (marks code).Nodup) (hflows : Flows L none code)
    (h : reaches l code) (hl : L l = some d) :
    ∃ L', Extends (marks code) L L' ∧ Flows L' (some d) code := by
  induction code with
  | nil => cases h
  | cons i rest ih =>
    obtain ⟨hi, hrest⟩ := List.forall_mem_cons.mp hcode
    rcases reaches_cons hi.2 h with hmark | ⟨hreaches, hidle⟩
    · refine ⟨L, .refl _ L, (allows_mark hmark _).mpr (fun e he => he ▸ hl), ?_⟩
      have hbehind := hflows.2
      rwa [pass_end (endLabel?_of_marked? hmark)] at hbehind ⊢
    · cases hend : i.endLabel? with
      | none =>
        have hmark : marks (i :: rest) = marks rest :=
          List.filterMap_cons_none (marked?_of_endLabel? hend)
        rw [hmark] at hmarks ⊢
        obtain ⟨L', hL', hflows'⟩ := ih hrest hmarks ((flows_idle_cons hidle hend).mp hflows) hreaches
        exact ⟨L', hL', (flows_idle_cons hidle hend).mpr hflows'⟩
      | some x =>
        have hmark : marked? i = some x := hi.2.endLabel? ▸ hend
        have hcons : marks (i :: rest) = x :: marks rest := List.filterMap_cons_some hmark
        rw [hcons] at hmarks ⊢
        obtain ⟨hx, hmarks⟩ := List.nodup_cons.mp hmarks
        have hbehind := hflows.2
        rw [pass_end hend] at hbehind
        cases hLx : L x with
        | some e =>
          rw [hLx] at hbehind
          have he : e = d := Option.some.inj ((depth_of_reaches hrest hbehind hreaches).symm.trans hl)
          rw [he] at hLx hbehind
          refine ⟨L, .refl _ L, (allows_mark hmark _).mpr (fun e he => he ▸ hLx), ?_⟩
          rwa [pass_end hend, hLx]
        | none =>
          rw [hLx] at hbehind
          obtain ⟨L', hL', hflows'⟩ := ih hrest hmarks hbehind hreaches
          have hset : Extends [x] L' (Function.update L' x (some d)) :=
            extends_update (by rw [hL'.same x hx, hLx])
          have hat : Function.update L' x (some d) x = some d := Function.update_self ..
          refine ⟨_, (hL'.mono (List.subset_cons_self x _)).trans (hset.mono (by simp)), ?_, ?_⟩
          · exact (allows_mark hmark _).mpr fun e he => he ▸ hat
          · rw [pass_end hend, hat]
            refine (hset.flows (fun j hj y hy => ?_) hflows').1
            rw [(hrest j hj).2.endLabel?] at hy
            rintro hyx
            rw [List.mem_singleton.mp hyx] at hy
            exact hx (List.mem_filterMap.mpr ⟨j, hj, hy⟩)

/-- A step: a jump to the code behind it goes away. -/
theorem tidy_without_goto (hl : arg.label? = some l) (hreaches : reaches l rest)
    (h : Tidy (front ++ ⟨.final .goto, arg⟩ :: rest)) : Tidy (front ++ rest) := by
  have hsub : (front ++ rest).Sublist (front ++ ⟨.final .goto, arg⟩ :: rest) :=
    (List.Sublist.refl front).append (List.sublist_cons_self _ rest)
  have hmarks : marks (front ++ ⟨.final .goto, arg⟩ :: rest) = marks front ++ marks rest := by
    unfold marks
    rw [List.filterMap_append, List.filterMap_cons_none rfl]
  have hnodup := hmarks ▸ h.marks
  obtain ⟨L, hflows⟩ := h.flows
  obtain ⟨hfront, hgoto, hrest⟩ := flows_append.mp hflows
  rw [pass_exit rfl rfl] at hrest
  refine ⟨⟨?_, fun i hi => h.instrs i (hsub.subset hi)⟩, fun i hi => h.placeable i (hsub.subset hi),
    (hsub.filterMap _).nodup h.marks⟩
  cases hcur : through L front (some 0) with
  | none => exact ⟨L, flows_append.mpr ⟨hfront, hcur ▸ hrest⟩⟩
  | some d =>
    rw [hcur] at hgoto
    have hdepth : L l = some d := ((allows_some rfl d).mp hgoto).2 l hl
    have hworkable : Workable rest := fun i hi => h.workable i (by simp [hi])
    obtain ⟨L', hL', hrest'⟩ :=
      flows_of_reaches hworkable (List.nodup_append.mp hnodup).2.1 hrest hreaches hdepth
    obtain ⟨hfront', hthrough⟩ := hL'.flows (fun i hi x hx hmem => by
      rw [(h.placeable i (by simp [hi])).endLabel?] at hx
      exact (List.nodup_append.mp hnodup).2.2 x (List.mem_filterMap.mpr ⟨i, hi, hx⟩) x hmem rfl) hfront
    exact ⟨L', flows_append.mpr ⟨hfront', hthrough.trans hcur ▸ hrest'⟩⟩

/-- A step: a branch to the code behind it only takes the value that it tests. -/
theorem replaces_branch (hop : isThreaded op) (hgoto : op ≠ .goto) :
    Replaces (front ++ ⟨.final op, arg⟩ :: rest) (front ++ .plain .drop :: rest) := by
  have hbranch : op = .ifFalse ∨ op = .ifTrue := by
    unfold isThreaded at hop
    split at hop <;> simp_all
  refine replaces_one rfl (fun L cur => ?_) (fun L cur d hflows hallows => ?_) (fun _ => ?_)
    (fun R => refers_of_isClosed rfl _) (fun hexit => ?_) ⟨rfl, rfl⟩
  · cases cur with
    | none => rfl
    | some d =>
      rw [pass_some rfl, pass_some rfl]
      rcases hbranch with rfl | rfl <;> rfl
  · refine (allows_some rfl d).mpr ⟨?_, nofun⟩
    have hpops := ((allows_jump hop).mp hallows).1
    rcases hbranch with rfl | rfl <;> exact hpops
  · exact ⟨Instr.encodable_of_plain rfl rfl _, .inr ⟨.drop, rfl⟩⟩
  · rcases hbranch with rfl | rfl <;> cases hexit

theorem dropFrom_preserves {P : List Instr → Prop}
    (hgoto : ∀ front arg l rest, arg.label? = some l → reaches l rest → P (front ++ .of .goto arg :: rest) →
      P (front ++ rest))
    (htest : ∀ front op arg l rest, isThreaded op → op ≠ .goto → arg.label? = some l → reaches l rest →
      P (front ++ .of op arg :: rest) → P (front ++ .plain .drop :: rest)) (left : List Instr) {right}
    (h : P (left.reverse ++ right)) : P (dropFrom left right) := by
  induction right generalizing left with
  | nil => simpa [dropFrom] using h
  | cons i rest ih =>
    have hstays : P (dropFrom (i :: left) rest) := ih _ (by simpa using h)
    obtain ⟨op, arg⟩ := i
    unfold dropFrom
    split
    · rename_i op' l hop hl
      split
      · rename_i hnext
        simp only [Bool.and_eq_true] at hnext
        cases op with
        | pseudo op => cases hop
        | final op =>
          cases hop
          split
          · rename_i heq
            subst heq
            exact ih _ (hgoto _ arg l rest hl hnext.2 h)
          · rename_i hne
            refine ih _ ?_
            rw [List.reverse_cons, List.append_assoc]
            exact htest _ op' arg l rest hnext.1 hne hl hnext.2 h
      · exact hstays
    · exact hstays

/-- A property of code that optimizing does not change: it survives replacements, and the loss of a jump to the code
behind it. -/
structure Survives (P : List Instr → Prop) : Prop where
  workable : ∀ {code}, P code → Workable code
  replace : ∀ {code code'}, P code → Replaces code code' → P code'
  skip : ∀ {front rest : List Instr} {arg : Operand} {l : Nat}, arg.label? = some l → reaches l rest = true →
    P (front ++ ⟨.final .goto, arg⟩ :: rest) → P (front ++ rest)

variable {P : List Instr → Prop}

theorem Survives.run (hP : Survives P) (h : P code) : P (run code) := by
  have hthread : P (threadFrom [] code) := hP.replace h (replaces_threadFrom (hP.workable h))
  have hdrop : P (dropFrom [] (threadFrom [] code)) := dropFrom_preserves (fun _ _ _ _ => hP.skip)
    (fun _ _ _ _ _ hop hne _ _ h => hP.replace h (replaces_branch hop hne)) [] hthread
  exact hP.replace hdrop (Rule.replaces_compact _)

theorem survives_tidy : Survives Tidy :=
  ⟨Tidy.workable, Tidy.replace, tidy_without_goto⟩

theorem bare_ne_nil_of_reaches (h : reaches l code) : bare code ≠ [] := by
  induction code with
  | nil => cases h
  | cons i rest ih =>
    cases hline : i.isLine with
    | false =>
      rw [bare_cons hline]
      exact List.cons_ne_nil _ _
    | true =>
      rw [bare_cons_line hline]
      obtain ⟨op, arg⟩ := i
      obtain rfl : op = .pseudo .lineNum := by simpa [Instr.isLine] using hline
      exact ih h

/-- A jump to the code behind it is not the end of the code. -/
theorem endsInExit_skip (h : EndsInExit (front ++ i :: rest)) (hreaches : reaches l rest) :
    EndsInExit (front ++ rest) := by
  have hbare := bare_ne_nil_of_reaches hreaches
  exact (endsInExit_append hbare).mpr ((endsInExit_append_cons i hbare).mp h)

end Threading

end ScriptBytecode
