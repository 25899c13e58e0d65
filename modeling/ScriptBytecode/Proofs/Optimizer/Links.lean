import Mathlib.Algebra.GroupWithZero.Nat
import ScriptBytecode.Proofs.Optimizer
import ScriptBytecode.Proofs.Recovery

/-!
# Optimized code can be laid out

No pass loses the marker of a label that a jump leads to, and with its jumps in their widest forms code takes no more
room behind a pass than before it (`Lightens`). Long forms take five times the room at most. So finished code whose
jumps lead to instructions is optimized to such code, unless it is very long.
-/

namespace ScriptBytecode

open Layout hiding sizeOf
open DeadCode

/-- The bytes that code takes with its jumps in their widest forms. -/
def weight (code : List Instr) : Nat :=
  (code.map fun i => i.widest.size).sum

theorem sizeOf_widest (code : List Instr) : Layout.sizeOf (code.map Instr.widest) = weight code := by
  induction code with
  | nil => rfl
  | cons i rest ih => rw [List.map_cons, sizeOf_cons, ih, weight, weight, List.map_cons, List.sum_cons]

@[simp] theorem weight_append (front rest : List Instr) : weight (front ++ rest) = weight front + weight rest := by
  simp [weight]

/-- Jumps of the second code lead to labels that jumps of the first lead to, whose markers it keeps. It takes no more
room. -/
structure Lightens (code code' : List Instr) : Prop where
  marks : (marks code').Sublist (marks code)
  used : referenced code' ⊆ referenced code
  kept : ∀ l ∈ referenced code', l ∈ Layout.marks code → l ∈ Layout.marks code'
  weight : weight code' ≤ weight code

variable {code code' front old new rest : List Instr}

namespace Lightens

theorem refl (code : List Instr) : Lightens code code :=
  ⟨.refl _, List.Subset.refl _, fun _ _ h => h, le_rfl⟩

theorem trans {code''} (h : Lightens code code') (h' : Lightens code' code'') : Lightens code code'' where
  marks := h'.marks.trans h.marks
  used := List.Subset.trans h'.used h.used
  kept := fun l hl hmem => h'.kept l hl (h.kept l (h'.used hl) hmem)
  weight := h'.weight.trans h.weight

theorem of_marks_eq (hmarks : Layout.marks code' = Layout.marks code)
    (hused : referenced code' ⊆ referenced code)
    (hweight : ScriptBytecode.weight code' ≤ ScriptBytecode.weight code) : Lightens code code' :=
  ⟨hmarks ▸ .refl _, hused, fun _ _ h => hmarks ▸ h, hweight⟩

/-- Instructions are left out. -/
theorem of_sublist (h : code'.Sublist code)
    (hmarks : ∀ l ∈ referenced code, l ∈ Layout.marks code → l ∈ Layout.marks code') :
    Lightens code code' where
  marks := h.filterMap _
  used := (h.filterMap _).subset
  kept := fun l hl => hmarks l ((h.filterMap _).subset hl)
  weight := by
    clear hmarks
    induction h with
    | slnil => exact le_rfl
    | cons i _ ih | cons_cons i _ ih =>
      simp only [ScriptBytecode.weight, List.map_cons, List.sum_cons] at *
      omega

end Lightens

/-! ## Rules -/

theorem DeadCode.referenced_eq (code : List Instr) : referenced code = (finals code).filterMap Instr.target? := by
  rw [finals, List.filterMap_filter]
  refine List.filterMap_congr fun i _ => ?_
  obtain ⟨op, arg⟩ := i
  cases op <;> rfl

theorem weight_eq (code : List Instr) : weight code = weight (finals code) + weight (markers code) := by
  induction code with
  | nil => rfl
  | cons i rest ih =>
    obtain ⟨op, arg⟩ := i
    simp only [weight, finals, markers, List.map_cons, List.sum_cons] at ih ⊢
    cases op <;> simp [Instr.opcode?, ih] <;> omega

/-- What is put in the place of instructions takes no more room and jumps nowhere else. -/
structure Lighter (old new : List Instr) : Prop where
  used : new.filterMap Instr.target? ⊆ old.filterMap Instr.target?
  weight : weight new ≤ weight old

theorem lightens_of_replacedAt (h : ReplacedAt Lighter code code') (front : List Instr) :
    Lightens (front ++ code) (front ++ code') := by
  obtain ⟨old, new, rest, rfl, rfl, -, hmarkers, hused, hweight⟩ := h
  refine .of_marks_eq ?_ (referenced_replace _ _ fun i hi hjump l hl => ?_) ?_
  · simp only [marks_append, marks_eq_of_markers hmarkers]
  · have hmem : l ∈ referenced new := DeadCode.mem_referenced.mpr ⟨i, hi, hjump, hl⟩
    rw [referenced_eq] at hmem ⊢
    simp [hused hmem]
  · have hold := weight_eq old
    have hnew := weight_eq new
    rw [hmarkers] at hnew
    simp only [weight_append]
    omega

theorem Folding.Folds.lighter (h : Folds old new) : Lighter old new := by
  cases h with
  | neg | plus => exact ⟨List.nil_subset _, Nat.le_of_ble_eq_true rfl⟩
  | binary value =>
    rcases fold?_eq_of value with ⟨k, heq⟩ | ⟨b, heq⟩
    · cases heq
      exact ⟨List.nil_subset _, Nat.le_add_right 5 _⟩
    · cases b <;> cases heq <;> exact ⟨List.nil_subset _, Nat.le_trans (by decide) (Nat.le_add_right 5 _)⟩

theorem Peephole.Fires.lighter (h : Fires old new) : Lighter old new := by
  cases h with
  | pushDrop => exact ⟨List.nil_subset _, Nat.zero_le _⟩
  | storeLoad family | storeDrop family | dupStore family =>
    unfold slotOps? at family
    split at family <;> cases family <;> exact ⟨List.nil_subset _, Nat.le_of_ble_eq_true rfl⟩
  | count up => cases up <;> exact ⟨List.nil_subset _, Nat.le_of_ble_eq_true rfl⟩
  | invertBranch taken => cases taken <;> exact ⟨List.Subset.refl _, Nat.le_of_ble_eq_true rfl⟩
  | constantBranch value taken =>
    cases value <;> cases taken <;>
      first | exact ⟨List.Subset.refl _, Nat.le_of_ble_eq_true rfl⟩ | exact ⟨List.nil_subset _, Nat.zero_le _⟩
  | bareStore store =>
    obtain ⟨pair⟩ := store
    simp only [storePairs, List.mem_cons, Prod.mk.injEq, List.not_mem_nil, or_false] at pair
    rcases pair with ⟨rfl, rfl⟩ | ⟨rfl, rfl⟩ | ⟨rfl, rfl⟩ | ⟨rfl, rfl⟩ | ⟨rfl, rfl⟩ <;>
      exact ⟨List.nil_subset _, Nat.le_of_ble_eq_true rfl⟩
  | returnUndefined => exact ⟨List.nil_subset _, Nat.le_of_ble_eq_true rfl⟩
  | typeTest isUndefined strict =>
    cases isUndefined <;> cases strict <;> exact ⟨List.nil_subset _, Nat.le_of_ble_eq_true rfl⟩
  | nullTest isNull => cases isNull <;> exact ⟨List.nil_subset _, Nat.le_of_ble_eq_true rfl⟩

theorem lightens_compact (code : List Instr) : Lightens code (Rule.compact code) := by
  refine .of_sublist List.filter_sublist fun l _ hmem => ?_
  obtain ⟨i, hi, hmark⟩ := List.mem_filterMap.mp hmem
  refine List.mem_filterMap.mpr ⟨i, List.mem_filter.mpr ⟨hi, ?_⟩, hmark⟩
  obtain ⟨op, arg⟩ := i
  cases op with
  | pseudo op => rfl
  | final op => cases hmark

theorem lightens_apply {rule : Rule} (hrule : ∀ code code', rule code = some code' → ReplacedAt Lighter code code')
    (code : List Instr) : Lightens code (rule.apply code) :=
  Rule.repeatedly_preserves (P := Lightens code)
    (fun front code code' hfires h => h.trans (lightens_of_replacedAt (hrule code code' hfires) front)) _ [] _
    (lightens_compact code)

/-! ## Jumps and dead code -/

theorem Threading.lightens_threadFrom (code : List Instr) : Lightens code (threadFrom [] code) := by
  refine threadFrom_preserves (P := Lightens code) (fun front i rest hi h => h.trans ?_) [] (.refl code)
  refine .of_marks_eq (marks_retarget hi) (referenced_retarget hi) ?_
  have hsize : (retarget (front ++ i :: rest) i).widest.size ≤ i.widest.size := by
    obtain ⟨op, arg⟩ := i
    cases op with
    | pseudo op => cases hi
    | final op =>
      rcases retarget_cases hi with heq | ⟨_, _, heq | ⟨rfl, _, o, _, _, hreturn, heq⟩⟩
      · exact Nat.le_of_eq (by rw [heq])
      · rw [heq]
        exact le_rfl
      · rw [heq]
        rcases hreturn with rfl | rfl <;> exact Nat.le_of_ble_eq_true rfl
  simpa [weight] using hsize

theorem Threading.lightens_dropFrom (code : List Instr) : Lightens code (dropFrom [] code) := by
  refine dropFrom_preserves (P := Lightens code) (fun front arg l rest _ _ h => h.trans ?_)
    (fun front op arg l rest hop _ _ _ h => h.trans ?_) [] (.refl code)
  · refine .of_sublist ((List.Sublist.refl front).append (List.sublist_cons_self _ rest)) fun l _ hmem => ?_
    simpa using hmem
  · refine .of_marks_eq (by simp [Instr.plain]) ?_ ?_
    · refine referenced_replace [_] [.plain .drop] (List.forall_mem_singleton.mpr fun h => ?_)
      exact absurd h Bool.false_ne_true
    · unfold isThreaded at hop
      split at hop <;> first | cases hop; done | simp [weight, Instr.plain]; exact Nat.le_of_ble_eq_true rfl

namespace DeadCode

theorem kept_sublist (used : List Nat) (live : Bool) (code : List Instr) : (kept used live code).Sublist code := by
  induction code generalizing live with
  | nil => exact .slnil
  | cons i rest ih =>
    cases hstays : stays used live i with
    | true =>
      rw [kept_cons_of_stays hstays]
      exact (ih _).cons_cons i
    | false =>
      rw [kept_cons_of_not_stays hstays]
      exact (ih _).cons i

/-- Markers of labels that are used stay. -/
theorem mem_kept {used i l} (hi : marked? i = some l) (hl : l ∈ used) (live : Bool) (hmem : i ∈ code) :
    i ∈ kept used live code := by
  induction code generalizing live with
  | nil => cases hmem
  | cons j rest ih =>
    rcases List.mem_cons.mp hmem with rfl | hmem
    · rw [kept_cons_of_stays (stays_of_marked? hi hl live).1]
      exact List.mem_cons_self
    · have hrest := ih (after used live j) hmem
      unfold kept
      split
      · exact List.mem_cons_of_mem j hrest
      · exact hrest

theorem lightens_run (code : List Instr) : Lightens code (run code) := by
  rw [show run code = kept (referenced code) true code from keep_eq _ true [] code]
  refine .of_sublist (kept_sublist _ true code) fun l hl hmem => ?_
  obtain ⟨i, hi, hmark⟩ := List.mem_filterMap.mp hmem
  exact List.mem_filterMap.mpr ⟨i, mem_kept hmark hl true hi, hmark⟩

end DeadCode

/-! ## Long and short forms -/

namespace Opcode

theorem size_le_longForm (o : Opcode) : o.widest.size ≤ o.longForm.1.widest.size := by
  cases o <;> decide

theorem size_longForm_le (o : Opcode) : o.longForm.1.widest.size ≤ 5 * o.size := by
  cases o <;> decide

end Opcode

theorem Instr.size_shorten_le (i : Instr) : i.shorten.widest.size ≤ i.widest.size := by
  obtain ⟨op, arg⟩ := i
  cases op with
  | pseudo op => exact le_rfl
  | final o =>
    rcases shorten_cases o arg with heq | hshort
    · exact Nat.le_of_eq (by rw [heq])
    · generalize shorten ⟨.final o, arg⟩ = j at hshort ⊢
      cases hshort with
      | @narrow short _ long | @implied short _ long =>
        have hsize := short.size_le_longForm
        rw [long] at hsize
        exact hsize
      | emptyString isPush =>
        subst isPush
        decide
      | length isGet =>
        subst isGet
        decide

theorem Instr.size_lengthen_le (i : Instr) : i.lengthen.widest.size ≤ 5 * i.size := by
  obtain ⟨op, arg⟩ := i
  cases op with
  | pseudo op => exact Nat.le_mul_of_pos_left _ (Nat.succ_pos 4)
  | final o =>
    rcases lengthen_cases o arg with ⟨rfl, heq⟩ | ⟨rfl, heq⟩ | ⟨-, -, heq⟩
    · exact heq ▸ le_rfl
    · exact heq ▸ le_rfl
    · exact heq ▸ o.size_longForm_le

/-- Long and short forms lead to the same labels. -/
theorem referenced_map {f} (hf : ∀ i : Instr, i.Restates (f i)) (code : List Instr) :
    referenced (code.map f) = referenced code := by
  have hfinals : finals (code.map f) = (finals code).map f := by
    rw [finals, List.filter_map]
    exact congrArg (List.map f) (List.filter_congr fun i _ => (hf i).isFinal.symm)
  rw [referenced_eq, referenced_eq, hfinals, List.filterMap_map]
  exact List.filterMap_congr fun i _ => (hf i).target.symm

theorem lightens_shorten (code : List Instr) : Lightens code (code.map Instr.shorten) := by
  refine .of_marks_eq (marks_map Instr.restates_shorten code) ?_ ?_
  · rw [referenced_map Instr.restates_shorten]
    exact List.Subset.refl _
  · induction code with
    | nil => exact le_rfl
    | cons i rest ih =>
      have := i.size_shorten_le
      simp only [weight, List.map_cons, List.sum_cons] at ih ⊢
      omega

theorem weight_lengthen (code : List Instr) : weight (code.map Instr.lengthen) ≤ 5 * Layout.sizeOf code := by
  induction code with
  | nil => exact le_rfl
  | cons i rest ih =>
    have := i.size_lengthen_le
    simp only [weight, List.map_cons, List.sum_cons, sizeOf_cons] at ih ⊢
    omega

namespace Optimizer

theorem lightens_optimizeInstrs (c : OptimizerConfig) (code : List Instr) :
    Lightens (code.map Instr.lengthen) (optimizeInstrs c code) := by
  have hrounds : Lightens (code.map Instr.lengthen) (rounds c 10 (code.map Instr.lengthen)) :=
    rounds_preserves (fun h => h.trans (lightens_apply (fun _ _ h => (Folding.foldsAt_of_rule h).imp (·.lighter)) _))
      (fun h => h.trans (lightens_apply (fun _ _ h => (Peephole.firesAt_of_rule h).imp (·.lighter)) _))
      (fun h => ((h.trans (Threading.lightens_threadFrom _)).trans (Threading.lightens_dropFrom _)).trans
        (lightens_compact _))
      (fun h => h.trans (DeadCode.lightens_run _)) c 10 (.refl _)
  unfold optimizeInstrs
  dsimp only
  split
  · exact hrounds.trans (lightens_shorten _)
  · exact hrounds

end Optimizer

/-! ## Layout of optimized code -/

theorem Layout.instrsOf_eq_finals (h : ∀ i ∈ code, Placeable i) : instrsOf code = finals code := by
  refine List.filter_congr fun i hi => ?_
  obtain ⟨op, arg⟩ := i
  cases op with
  | final op => rfl
  | pseudo op => rcases (h _ hi).marker with rfl | rfl <;> rfl

theorem Layout.Linked.lighten (h : Linked code) (hcode : Workable code) (hcode' : Workable code')
    (hlight : Lightens (code.map Instr.lengthen) code') : Linked code' where
  nodup := hlight.marks.nodup (marks_map Instr.restates_lengthen code ▸ h.nodup)
  marked := by
    intro i hi l hl
    rw [instrsOf_eq_finals fun i hi => (hcode' i hi).2] at hi
    have hused : l ∈ referenced code' := by
      rw [referenced_eq]
      exact List.mem_filterMap.mpr ⟨i, hi, hl⟩
    refine hlight.kept l hused ?_
    have hused' := hlight.used hused
    rw [referenced_map Instr.restates_lengthen, referenced_eq,
      ← instrsOf_eq_finals fun i hi => (hcode i hi).2] at hused'
    obtain ⟨j, hj, hjl⟩ := List.mem_filterMap.mp hused'
    rw [marks_map Instr.restates_lengthen]
    exact h.marked j hj l hjl

theorem Threading.survives_workable : Survives Workable where
  workable := fun h => h
  replace := fun h h' => h'.workable h
  skip := fun _ _ h i hi => h i (((List.Sublist.refl _).append (List.sublist_cons_self _ _)).subset hi)

/-- Code of less than 2^28 bytes whose jumps lead to instructions or to its end is optimized, whatever passes are on,
and the jumps of the optimized code again lead to instructions or to its end. -/
theorem jumpsLand_optimize (c : OptimizerConfig) {bytes : Bytes} {read : List Located} (lines : LineTable)
    (hread : decodeFinal bytes = .ok read) (hland : JumpsLand read bytes.length) (hsize : bytes.length < 0x10000000) :
    ∃ a read', optimize c bytes lines = .ok a ∧ decodeFinal a.code = .ok read' ∧ JumpsLand read' a.code.length := by
  have hcode := finished_of_decode hread
  obtain ⟨hinstrs, hend⟩ := isRead_of_decode hread
  generalize hL : (labelize read lines).map (·.instr) = L
  have hworkable : Workable L := hL ▸ Labels.encodable_labelize lines hread fun here hhere =>
    (hinstrs here hhere).encodable (hcode.opcode? here hhere)
  obtain ⟨bound, hsettled, -⟩ := settled_labelize lines hread hland
  rw [hL] at hsettled
  have hlinked := linked_of_settled hsettled fun i hi => (hworkable i hi).2
  have hlight := Optimizer.lightens_optimizeInstrs c L
  have hworkable' : Workable (optimizeInstrs c L) :=
    Optimizer.survives_optimizeInstrs Threading.survives_workable c hworkable
  have hlabel : ∀ i ∈ optimizeInstrs c L, Labelled i := fun i hi => (hworkable' i hi).1.labelled
  have htotal : Layout.sizeOf L = bytes.length := by
    rw [← hL, Labels.labelize_eq lines hcode, ← hend, ← Labels.sizeOf_labelled _ lines hcode, Nat.zero_add]
  obtain ⟨a, ha⟩ := assemble_ok (fun i hi => (hworkable' i hi).2) hlabel
    (hlinked.lighten hworkable hworkable' hlight) (by
      have := hlight.weight
      have := weight_lengthen L
      rw [sizeOf_widest]
      omega)
  obtain ⟨settled, bound', hwides, hsettled', hplaced, hlen, hread'⟩ := assemble_eq_ok ha hlabel
  subst hL
  refine ⟨a, _, bind_eq_ok.mpr ⟨read, hread, ha⟩, hread', hlen ▸ ?_⟩
  exact jumpsLand_of_settled hsettled' hplaced (forall₂_mem hwides (fun _ _ => Labelled.widens) hlabel)

/-- A branch that is always taken, over code that is never reached. -/
def takenBranch : Bytes :=
  [Opcode.pushTrue.byte.toUInt8, Opcode.ifTrue8.byte.toUInt8, 2, Opcode.undefined.byte.toUInt8,
    Opcode.returnUndef.byte.toUInt8]

theorem jumpsLand_takenBranch :
    decodeFinal takenBranch = .ok [⟨0, .plain .pushTrue⟩, ⟨1, .of .ifTrue8 (.label 4)⟩, ⟨3, .plain .undefined⟩,
      ⟨4, .plain .returnUndef⟩] ∧
    ∃ a read', optimize .all takenBranch [] = .ok a ∧ decodeFinal a.code = .ok read' ∧
      JumpsLand read' a.code.length := by
  have hread : decodeFinal takenBranch = .ok [⟨0, .plain .pushTrue⟩, ⟨1, .of .ifTrue8 (.label 4)⟩,
      ⟨3, .plain .undefined⟩, ⟨4, .plain .returnUndef⟩] := by decide +kernel
  exact ⟨hread, jumpsLand_optimize .all [] hread (by decide) (by decide)⟩

end ScriptBytecode
