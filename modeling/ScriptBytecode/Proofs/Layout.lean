import ScriptBytecode.Instr.Layout
import ScriptBytecode.Proofs.Codec

/-!
# Layout settles

Widening rounds end with every distance in reach: each round that changes something uses up one of the
widening steps left, of which a jump has two at most. The code that is then written is read back as the
instructions of the list, each with its own opcode or a wider form of it, and every jump leads to the
marker of its label.
-/

namespace ScriptBytecode

variable {pc : Nat} {bound : List (Nat × Nat)}

/-! ## Wider forms -/

/-- The second opcode is the first one or a wider form of the same jump. -/
inductive Opcode.Widens : Opcode → Opcode → Prop
  | refl (op : Opcode) : Widens op op
  | step {a b c : Opcode} (head : a.wider? = some b) (tail : Widens b c) : Widens a c

/-- The widest form of a jump; other opcodes stay as they are. -/
def Opcode.widest : Opcode → Opcode
  | goto8 | goto16 => goto
  | ifFalse8 => ifFalse
  | ifTrue8 => ifTrue
  | op => op

/-- How often a jump can be widened. -/
def Opcode.wideningsLeft : Opcode → Nat
  | goto8 => 2
  | goto16 | ifFalse8 | ifTrue8 => 1
  | _ => 0

/-- The second instruction is the first one, with a wider form of the same jump or not. -/
inductive Instr.Widens : Instr → Instr → Prop
  | refl (i : Instr) : Widens i i
  | wider {op op' : Opcode} (h : op.Widens op') (arg : Operand) :
      Widens ⟨.final op, arg⟩ ⟨.final op', arg⟩

def Instr.widest (i : Instr) : Instr :=
  match i.op with
  | .final op => { i with op := .final op.widest }
  | .pseudo _ => i

def Instr.wideningsLeft (i : Instr) : Nat :=
  match i.op with
  | .final op => op.wideningsLeft
  | .pseudo _ => 0

variable {a b op : Opcode}

namespace Opcode

theorem widest_of_wider? (h : a.wider? = some b) : a.widest = b.widest := by
  unfold wider? at h
  split at h <;> cases h <;> rfl

theorem wideningsLeft_of_wider? (h : a.wider? = some b) : a.wideningsLeft = b.wideningsLeft + 1 := by
  unfold wider? at h
  split at h <;> cases h <;> rfl

theorem shape_of_wider? (h : a.wider? = some b) :
    ∃ w w', a.format.shape = .label w ∧ b.format.shape = .label w' ∧ w < w' := by
  unfold wider? at h
  split at h <;> cases h <;> exact ⟨_, _, rfl, rfl, by decide⟩

theorem size_le_widest (op : Opcode) : op.size ≤ op.widest.size := by
  unfold widest
  split
  · decide
  · decide
  · decide
  · decide
  · exact le_rfl

/-- A jump that cannot be widened has a label field of four bytes. -/
theorem labelWidth_of_wider?_none (h : op.wider? = none) : op.format.shape.labelWidth = 4 := by
  cases op <;> first | rfl | exact nomatch h

theorem Widens.trans {c} (h : a.Widens b) (h' : b.Widens c) : a.Widens c := by
  induction h with
  | refl => exact h'
  | step head _ ih => exact .step head (ih h')

theorem Widens.widest_eq (h : a.Widens b) : a.widest = b.widest := by
  induction h with
  | refl => rfl
  | step head _ ih => rw [widest_of_wider? head, ih]

theorem Widens.isJump_eq (h : a.Widens b) : a.isJump = b.isJump := by
  induction h with
  | refl => rfl
  | step head _ ih =>
    obtain ⟨w, w', ha, hb, -⟩ := shape_of_wider? head
    rw [← ih]
    simp [isJump, Format.hasLabel, ha, hb, Shape.hasLabel]

/-- A wider form reads its operand as the jump itself does. -/
theorem Widens.readBack_eq (h : a.Widens b) (arg : Operand) (target : Nat) :
    a.format.shape.readBack arg target = b.format.shape.readBack arg target := by
  induction h with
  | refl => rfl
  | step head _ ih =>
    obtain ⟨w, w', ha, hb, -⟩ := shape_of_wider? head
    rw [← ih, ha, hb]
    rfl

end Opcode

variable {i j : Instr}

namespace Instr

theorem Widens.trans {k} (h : i.Widens j) (h' : j.Widens k) : i.Widens k := by
  cases h with
  | refl => exact h'
  | wider hop arg =>
    cases h' with
    | refl => exact .wider hop arg
    | wider hop' => exact .wider (hop.trans hop') arg

theorem Widens.arg_eq (h : i.Widens j) : i.arg = j.arg := by
  cases h <;> rfl

theorem Widens.final {arg} (h : i.Widens ⟨.final op, arg⟩) : ∃ op', i.op = .final op' ∧ op'.Widens op := by
  cases h with
  | refl => exact ⟨op, rfl, .refl op⟩
  | wider hop arg => exact ⟨_, rfl, hop⟩

theorem Widens.isMarker_eq (h : i.Widens j) : i.isMarker = j.isMarker := by
  cases h <;> rfl

theorem Widens.widest_eq (h : i.Widens j) : i.widest = j.widest := by
  cases h with
  | refl => rfl
  | wider hop arg => simp [widest, hop.widest_eq]

theorem Widens.marked?_eq (h : i.Widens j) : Layout.marked? i = Layout.marked? j := by
  cases h <;> rfl

theorem target?_final (op : Opcode) (arg : Operand) :
    target? ⟨.final op, arg⟩ = if op.isJump then arg.label? else none := rfl

theorem Widens.target?_eq (h : i.Widens j) : i.target? = j.target? := by
  cases h with
  | refl => rfl
  | wider hop arg =>
    rw [target?_final, target?_final, hop.isJump_eq]

theorem size_le_widest (i : Instr) : i.size ≤ i.widest.size := by
  obtain ⟨op, arg⟩ := i
  cases op with
  | pseudo op => exact le_rfl
  | final op => exact op.size_le_widest

theorem wideningsLeft_le (i : Instr) : i.wideningsLeft ≤ 2 := by
  unfold wideningsLeft Opcode.wideningsLeft
  repeat' split
  all_goals decide

end Instr

variable {code : List Instr}

namespace Layout

/-! ## Offsets -/

/-- The bytes that code takes. -/
def sizeOf : List Instr → Nat
  | [] => 0
  | i :: rest => i.size + sizeOf rest

/-- The labels that are marked, in order. -/
def marks (code : List Instr) : List Nat :=
  code.filterMap marked?

@[simp] theorem marks_nil : marks [] = [] := rfl

@[simp] theorem marks_append (front rest : List Instr) : marks (front ++ rest) = marks front ++ marks rest :=
  List.filterMap_append

@[simp] theorem marks_of (op : Opcode) (arg : Operand) (rest : List Instr) : marks (.of op arg :: rest) = marks rest :=
  rfl

theorem marks_cons_none (h : marked? i = none) (rest : List Instr) : marks (i :: rest) = marks rest :=
  List.filterMap_cons_none h

/-- Every instruction with its offset, in code that starts at `pc`. -/
def placeFrom (pc : Nat) : List Instr → List Located
  | [] => []
  | i :: rest => ⟨pc, i⟩ :: placeFrom (pc + i.size) rest

/-- The offset of the marker of a label, in code that starts at `pc`. -/
def offset? (l pc : Nat) : List Instr → Option Nat
  | [] => none
  | i :: rest => if marked? i = some l then some pc else offset? l (pc + i.size) rest

/-- A fold that keeps the offset and the instructions before it. -/
theorem foldl_place {step} (hstep : ∀ pc done i, step (pc, done) i = (pc + i.size, done.push ⟨pc, i⟩))
    (code : List Instr) (pc : Nat) (done : Array Located) :
    (code.foldl step (pc, done)).2.toList = done.toList ++ placeFrom pc code := by
  induction code generalizing pc done with
  | nil => simp [placeFrom]
  | cons i rest ih =>
    rw [List.foldl_cons, hstep, ih]
    simp [placeFrom]

theorem place_eq (code : List Instr) : place code = placeFrom 0 code := by
  unfold place
  exact (foldl_place (fun _ _ _ => rfl) code 0 #[]).trans (List.nil_append _)

theorem placeFrom_instr (code : List Instr) (pc : Nat) : (placeFrom pc code).map (·.instr) = code := by
  induction code generalizing pc with
  | nil => rfl
  | cons i rest ih => simp [placeFrom, ih]

theorem offset?_eq_none_iff {l} : offset? l pc code = none ↔ l ∉ marks code := by
  induction code generalizing pc with
  | nil => simp [offset?, marks]
  | cons i rest ih =>
    unfold offset?
    cases hm : marked? i with
    | none => simpa [marks, hm] using ih
    | some m =>
      by_cases hml : m = l
      · simp [marks, hm, hml]
      · have hlm : ¬l = m := fun h => hml h.symm
        simpa [marks, hm, hml, hlm] using ih

theorem offset?_append (l pc : Nat) (front rest : List Instr) :
    offset? l pc (front ++ rest) = (offset? l pc front).or (offset? l (pc + sizeOf front) rest) := by
  induction front generalizing pc with
  | nil => rfl
  | cons i front ih =>
    rw [List.cons_append, offset?, offset?, ih, sizeOf, Nat.add_assoc]
    split <;> rfl

theorem sizeOf_cons (i : Instr) (rest : List Instr) : sizeOf (i :: rest) = i.size + sizeOf rest :=
  rfl

theorem sizeOf_append (front behind : List Instr) : sizeOf (front ++ behind) = sizeOf front + sizeOf behind := by
  induction front with
  | nil => simp [sizeOf]
  | cons i front ih => rw [List.cons_append, sizeOf_cons, sizeOf_cons, ih, Nat.add_assoc]

theorem offset?_le {l target} (h : offset? l pc code = some target) : pc ≤ target ∧ target ≤ pc + sizeOf code := by
  induction code generalizing pc with
  | nil => simp [offset?] at h
  | cons i rest ih =>
    rw [sizeOf_cons]
    unfold offset? at h
    split at h
    · cases h
      omega
    · have := ih h
      omega

/-- The labels of code are bound to the offsets of their markers, unless one is marked twice. -/
theorem bind_eq_ok_iff :
    (∃ bound', bind pc bound code = .ok bound') ↔
      (marks code).Nodup ∧ ∀ l ∈ marks code, bound.lookup l = none := by
  induction code generalizing pc bound with
  | nil => simp [bind, marks]
  | cons i rest ih =>
    unfold bind
    cases hm : marked? i with
    | none => simpa [marks, hm] using ih
    | some m =>
      simp only
      have hmarks : marks (i :: rest) = m :: marks rest := by simp [marks, hm]
      rw [hmarks, List.nodup_cons]
      split
      · rename_i hsome
        constructor
        · rintro ⟨bound', h⟩
          cases h
        · rintro ⟨-, h⟩
          rw [h m (by simp)] at hsome
          simp at hsome
      · rename_i hsome
        have hnone : bound.lookup m = none := Option.not_isSome_iff_eq_none.mp hsome
        rw [ih]
        constructor
        · rintro ⟨hnodup, h⟩
          have hm' : m ∉ marks rest := by
            intro hmem
            have := h m hmem
            simp at this
          refine ⟨⟨hm', hnodup⟩, ?_⟩
          intro l hl
          rcases List.mem_cons.mp hl with rfl | hrest
          · exact hnone
          · have hne : (l == m) = false := by
              simp only [beq_eq_false_iff_ne]
              rintro rfl
              exact hm' hrest
            simpa [List.lookup_cons, hne] using h l hrest
        · rintro ⟨⟨hm', hnodup⟩, h⟩
          refine ⟨hnodup, ?_⟩
          intro l hl
          have hne : (l == m) = false := by
            simp only [beq_eq_false_iff_ne]
            rintro rfl
            exact hm' hl
          simpa [List.lookup_cons, hne] using h l (by simp [hl])

theorem lookup_of_bind {bound'} (h : bind pc bound code = .ok bound') (l : Nat) :
    bound'.lookup l = (offset? l pc code).or (bound.lookup l) := by
  induction code generalizing pc bound with
  | nil =>
    cases h
    simp [offset?]
  | cons i rest ih =>
    unfold bind at h
    unfold offset?
    cases hm : marked? i with
    | none =>
      rw [hm] at h
      simpa using ih h
    | some m =>
      rw [hm] at h
      simp only at h
      split at h
      · cases h
      · rename_i hsome
        have hnone : bound.lookup m = none := Option.not_isSome_iff_eq_none.mp hsome
        rw [ih h, List.lookup_cons]
        by_cases hml : m = l
        · -- the label is bound here, and nowhere behind
          subst hml
          have hrest := (bind_eq_ok_iff.mp ⟨_, h⟩).2
          have hout : offset? m (pc + i.size) rest = none := by
            rw [offset?_eq_none_iff]
            intro hmem
            simpa using hrest m hmem
          simp [hout]
        · have hne : (l == m) = false := by
            simp only [beq_eq_false_iff_ne]
            exact fun h => hml h.symm
          simp [hml, hne]

/-! ## Rounds -/

/-- Offsets of a code's labels with which no jump has to be widened. -/
structure Settled (bound : List (Nat × Nat)) (code : List Instr) : Prop where
  binds : bind 0 [] code = .ok bound
  stays : ∀ here ∈ placeFrom 0 code, widen bound here = .ok here.instr

theorem widen_eq_ok {here} (h : widen bound here = .ok j) :
    here.instr.Widens j ∧ (j = here.instr ∨ j.wideningsLeft < here.instr.wideningsLeft) := by
  obtain ⟨pos, op, arg⟩ := here
  unfold widen at h
  cases op with
  | pseudo op =>
    cases h
    exact ⟨.refl _, .inl rfl⟩
  | final op =>
    simp only at h
    split at h
    · cases h
      exact ⟨.refl _, .inl rfl⟩
    · split at h
      · cases h
      · split at h
        · cases h
          exact ⟨.refl _, .inl rfl⟩
        · split at h
          · rename_i op' hop
            cases h
            have hless := Opcode.wideningsLeft_of_wider? hop
            refine ⟨.wider (.step hop (.refl _)) arg, .inr ?_⟩
            simp only [Instr.wideningsLeft]
            omega
          · cases h

/-- The widening steps that code has left. -/
def stepsLeft : List Instr → Nat
  | [] => 0
  | i :: rest => i.wideningsLeft + stepsLeft rest

theorem stepsLeft_le (code : List Instr) : stepsLeft code ≤ 2 * code.length := by
  induction code with
  | nil => simp [stepsLeft]
  | cons i rest ih =>
    have := i.wideningsLeft_le
    simp only [stepsLeft, List.length_cons]
    omega

/-- What one round does: every instruction stays or is widened, and if any is, a step is used up. -/
theorem round_spec {wider} (h : (placeFrom pc code).mapM (widen bound) = .ok wider) :
    List.Forall₂ Instr.Widens code wider ∧
      (wider = code ∨ stepsLeft wider < stepsLeft code) := by
  rw [mapM_eq_ok] at h
  induction code generalizing pc wider with
  | nil =>
    cases h
    exact ⟨.nil, .inl rfl⟩
  | cons i rest ih =>
    obtain _ | ⟨hi, hrest⟩ := h
    obtain ⟨hwide, hsame⟩ := widen_eq_ok hi
    obtain ⟨hwides, hsames⟩ := ih hrest
    simp only at hsame
    refine ⟨.cons hwide hwides, ?_⟩
    simp only [stepsLeft]
    rcases hsame with rfl | hsame
    · rcases hsames with rfl | hsames
      · exact .inl rfl
      · exact .inr (by omega)
    · rcases hsames with rfl | hsames
      · exact .inr (by omega)
      · exact .inr (by omega)

theorem stays_of_round (h : (placeFrom pc code).mapM (widen bound) = .ok code) :
    ∀ here ∈ placeFrom pc code, widen bound here = .ok here.instr := by
  rw [mapM_eq_ok] at h
  induction code generalizing pc with
  | nil => simp [placeFrom]
  | cons i rest ih =>
    obtain _ | ⟨hi, hrest⟩ := h
    intro here hmem
    rcases List.mem_cons.mp hmem with rfl | hmem
    · exact hi
    · exact ih hrest here hmem

theorem forall₂_widens_trans {a b c} (h : List.Forall₂ Instr.Widens a b) (h' : List.Forall₂ Instr.Widens b c) :
    List.Forall₂ Instr.Widens a c := by
  induction h generalizing c with
  | nil => exact h'
  | cons hi _ ih =>
    obtain _ | ⟨hj, hrest⟩ := h'
    exact .cons (hi.trans hj) (ih hrest)

/-- One round of widening. -/
def round (code : List Instr) : Result (List Instr) := do
  let bound ← bind 0 [] code
  (place code).mapM (widen bound)

/-- The codes that rounds of widening lead through, each another than the one before it, until a round changes
nothing. -/
inductive Rounds : List Instr → List (List Instr) → List Instr → Prop
  | done {code : List Instr} (same : round code = .ok code) : Rounds code [] code
  | more {code wider settled : List Instr} {codes : List (List Instr)} (next : round code = .ok wider)
      (differs : wider ≠ code) (rest : Rounds wider codes settled) : Rounds code (wider :: codes) settled

theorem rounds_of_settle {rounds settled} (h : settle rounds code = .ok settled) (hrounds : stepsLeft code < rounds) :
    ∃ codes, Rounds code codes settled := by
  induction rounds generalizing code with
  | zero => omega
  | succ rounds ih =>
    obtain ⟨bound, hbound, h⟩ := bind_eq_ok.mp h
    obtain ⟨wider, hwider, h⟩ := bind_eq_ok.mp h
    have hround : round code = .ok wider := bind_eq_ok.mpr ⟨bound, hbound, hwider⟩
    rw [place_eq] at hwider
    split at h
    · rename_i hsame
      cases h
      exact ⟨[], .done (eq_of_beq hsame ▸ hround)⟩
    · rename_i hdiff
      have hdiff : wider ≠ code := by simpa using hdiff
      have hless := (round_spec hwider).2.resolve_left hdiff
      obtain ⟨codes, hcodes⟩ := ih h (by omega)
      exact ⟨wider :: codes, .more hround hdiff hcodes⟩

/-- With more rounds than steps, the rounds end with settled code. -/
theorem settle_spec {rounds settled} (h : settle rounds code = .ok settled) (hrounds : stepsLeft code < rounds) :
    List.Forall₂ Instr.Widens code settled ∧ ∃ bound, Settled bound settled := by
  obtain ⟨codes, hcodes⟩ := rounds_of_settle h hrounds
  clear h hrounds
  induction hcodes with
  | done same =>
    obtain ⟨bound, hbound, hsame⟩ := bind_eq_ok.mp same
    exact ⟨List.forall₂_same.mpr fun i _ => .refl i, bound, hbound, stays_of_round (place_eq _ ▸ hsame)⟩
  | more next _ _ ih =>
    obtain ⟨bound, -, hwider⟩ := bind_eq_ok.mp next
    exact ⟨forall₂_widens_trans (round_spec (place_eq _ ▸ hwider)).1 ih.1, ih.2⟩

/-! ## Reading settled code back -/

/-- Finished opcodes and markers can be laid out. -/
def Placeable (i : Instr) : Prop :=
  i.isMarker = true ∨ ∃ op, i.op = .final op

/-- The operand of a jump names a label. -/
def Labelled (i : Instr) : Prop :=
  i.op.format.hasLabel = true → i.arg.label?.isSome = true

theorem checkOpcodes_eq_ok_iff : checkOpcodes code = .ok () ↔ ∀ i ∈ code, Placeable i := by
  induction code with
  | nil => simp [checkOpcodes]
  | cons i rest ih =>
    obtain ⟨op, arg⟩ := i
    rw [List.forall_mem_cons]
    unfold checkOpcodes
    split
    · rw [ih]
      simp_all [Placeable, Instr.isMarker]
    · rw [ih]
      simp_all [Placeable, Instr.isMarker]
    · rw [ih]
      simp_all [Placeable]
    · rename_i op' hlabel hline hop
      simp only at hop hlabel hline
      subst hop
      constructor
      · intro h
        cases h
      · rintro ⟨h | ⟨_, h⟩, -⟩
        · unfold Instr.isMarker at h
          split at h
          · rename_i hop
            cases hop
            exact absurd rfl hlabel
          · rename_i hop
            cases hop
            exact absurd rfl hline
          · cases h
        · cases h

/-- Where the jump of an instruction leads to. -/
def destination (bound : List (Nat × Nat)) (i : Instr) : Nat :=
  (i.target?.bind (bound.lookup ·)).getD 0

/-- What is read back where an instruction was placed; markers leave nothing. -/
def readBack? (bound : List (Nat × Nat)) (here : Located) : Option Located :=
  match here.instr.op with
  | .pseudo _ => none
  | .final op =>
    some ⟨here.pos, ⟨.final op,
      op.format.shape.readBack here.instr.arg (destination bound here.instr)⟩⟩

theorem readBack?_pseudo (bound : List (Nat × Nat)) (pos : Nat) (op : Pseudo) (arg : Operand) :
    readBack? bound ⟨pos, ⟨.pseudo op, arg⟩⟩ = none := rfl

theorem readBack?_final (bound : List (Nat × Nat)) (pos : Nat) (op : Opcode) (arg : Operand) :
    readBack? bound ⟨pos, ⟨.final op, arg⟩⟩ = some ⟨pos, ⟨.final op,
      op.format.shape.readBack arg (destination bound ⟨.final op, arg⟩)⟩⟩ := rfl

/-- The distance of a jump that stays as it is fits its field. -/
theorem fits_of_widen {pos arg} (h : widen bound ⟨pos, ⟨.final op, arg⟩⟩ = .ok ⟨.final op, arg⟩) (hjump : op.isJump) :
    ∃ target, bound.lookup (arg.label?.getD 0) = some target ∧
      fitsSigned (8 * op.format.shape.labelWidth)
        (distance ⟨pos, ⟨.final op, arg⟩⟩ target) := by
  simp only [widen, hjump, Bool.not_true, Bool.false_eq_true, if_false] at h
  split at h
  · cases h
  · rename_i target htarget
    split at h
    · rename_i hfits
      exact ⟨target, htarget, hfits⟩
    · split at h
      · rename_i op' hop
        have hop' : op' = op := by
          have := congrArg Instr.op (Except.ok.inj h)
          simpa using this
        have := Opcode.wideningsLeft_of_wider? hop
        rw [hop'] at this
        omega
      · cases h

theorem labelWidth_bounds (op : Opcode) : 0 < op.format.shape.labelWidth ∧ op.format.shape.labelWidth ≤ 4 := by
  cases op.format <;> decide

/-- The field of a jump that stays as it is leads to the marker of its label. -/
theorem leadsTo_of_fits {total target here w} (hw : 0 < w ∧ w ≤ 4) (hfits : fitsSigned (8 * w) (distance here target))
    (htotal : target ≤ total) :
    Decode.LeadsTo total (here.pos + here.instr.op.format.shape.labelOffset) w
      (unsignedWord 32 (distance here target)) target where
  distance := by
    rw [pow_256, unsignedWord_mod (by omega), signedWord_unsignedWord (by omega) hfits, distance]
    omega
  inside := htotal

theorem reads_settled {total} (hstays : ∀ here ∈ placeFrom pc code, widen bound here = .ok here.instr)
    (hplace : ∀ i ∈ code, Placeable i) (hlabel : ∀ i ∈ code, Labelled i)
    (htotal : ∀ l target, bound.lookup l = some target → target ≤ total) :
    Decode.Reads .final total pc ((placeFrom pc code).flatMap (bytes bound))
      ((placeFrom pc code).filterMap (readBack? bound)) := by
  induction code generalizing pc with
  | nil => exact .nil pc
  | cons i rest ih =>
    have ih := ih (fun here h => hstays here (List.mem_cons_of_mem _ h))
      (fun i h => hplace i (List.mem_cons_of_mem _ h))
      (fun i h => hlabel i (List.mem_cons_of_mem _ h))
    have hi := hstays ⟨pc, i⟩ (by simp [placeFrom])
    obtain ⟨op, arg⟩ := i
    cases op with
    | pseudo op =>
      have hmarker : Instr.isMarker ⟨.pseudo op, arg⟩ := by
        rcases hplace _ List.mem_cons_self with h | ⟨_, h⟩
        · exact h
        · cases h
      have hsize : Instr.size ⟨.pseudo op, arg⟩ = 0 := by simp [Instr.size, hmarker]
      simpa [placeFrom, hsize, bytes, List.filterMap_cons, readBack?_pseudo] using ih
    | final op =>
      have hsize : Instr.size ⟨.final op, arg⟩ = 1 + op.format.operandSize := rfl
      rw [hsize, ← Nat.add_assoc] at ih
      simp only [placeFrom, List.flatMap_cons, hsize, ← Nat.add_assoc, List.filterMap_cons,
        readBack?_final]
      refine .cons (Decode.instr_encode arg _ ?_) ih
      intro hjump
      obtain ⟨l, hl⟩ := Option.isSome_iff_exists.mp (hlabel _ List.mem_cons_self hjump)
      simp only at hl
      obtain ⟨target, htarget, hfits⟩ := fits_of_widen hi hjump
      rw [hl, Option.getD_some] at htarget
      have hdest : (Instr.target? ⟨.final op, arg⟩).bind (bound.lookup ·) = some target := by
        rw [Instr.target?_final, if_pos hjump, hl, Option.bind_some, htarget]
      rw [destination, hdest]
      exact leadsTo_of_fits (labelWidth_bounds op) hfits (htotal l target htarget)

theorem length_bytes (bound : List (Nat × Nat)) (pc : Nat) (hplace : ∀ i ∈ code, Placeable i) :
    ((placeFrom pc code).flatMap (bytes bound)).length = sizeOf code := by
  induction code generalizing pc with
  | nil => rfl
  | cons i rest ih =>
    have hi : (bytes bound ⟨pc, i⟩).length = i.size := by
      obtain ⟨op, arg⟩ := i
      rcases hplace _ List.mem_cons_self with h | ⟨op', h⟩
      · cases op with
        | pseudo op => simp [bytes, Instr.size, h]
        | final op => cases h
      · simp only at h
        subst h
        exact Instr.length_encode _ _
    rw [placeFrom, List.flatMap_cons, List.length_append, hi, sizeOf_cons,
      ih _ fun i h => hplace i (List.mem_cons_of_mem _ h)]

theorem forall₂_mem {P : Instr → Prop} {settled} (h : List.Forall₂ Instr.Widens code settled)
    (hP : ∀ i j, i.Widens j → P i → P j) (hcode : ∀ i ∈ code, P i) : ∀ j ∈ settled, P j := by
  induction h with
  | nil => simp
  | cons hi _ ih =>
    rw [List.forall_mem_cons] at hcode ⊢
    exact ⟨hP _ _ hi hcode.1, ih hcode.2⟩

theorem Placeable.widens (h : i.Widens j) (hi : Placeable i) : Placeable j := by
  cases h with
  | refl => exact hi
  | wider hop arg => exact .inr ⟨_, rfl⟩

theorem Labelled.widens (h : i.Widens j) (hi : Labelled i) : Labelled j := by
  cases h with
  | refl => exact hi
  | wider hop arg => exact fun hjump => hi (hop.isJump_eq.trans hjump)

end Layout

/-- What layout makes of a list: the bytes and the lines of settled code. -/
theorem assemble_settles {code a} (h : assemble code = .ok a) :
    ∃ settled bound, Layout.settle (2 * code.length + 1) code = .ok settled ∧ Layout.Settled bound settled ∧
      List.Forall₂ Instr.Widens code settled ∧ (∀ i ∈ settled, Layout.Placeable i) ∧
      a = ⟨(Layout.placeFrom 0 settled).flatMap (Layout.bytes bound), Layout.lines (Layout.placeFrom 0 settled)⟩ := by
  obtain ⟨⟨⟩, hcheck, h⟩ := bind_eq_ok.mp h
  obtain ⟨settled, hsettle, h⟩ := bind_eq_ok.mp h
  obtain ⟨bound, hbound, h⟩ := bind_eq_ok.mp h
  have hsteps := Layout.stepsLeft_le code
  obtain ⟨hwides, bound', hsettled⟩ := Layout.settle_spec hsettle (by omega)
  obtain rfl : bound = bound' := Except.ok.inj (hbound.symm.trans hsettled.binds)
  refine ⟨settled, bound, hsettle, hsettled, hwides, ?_, ?_⟩
  · exact Layout.forall₂_mem hwides (fun _ _ => Layout.Placeable.widens) (Layout.checkOpcodes_eq_ok_iff.mp hcheck)
  · cases h
    rw [Layout.place_eq]

/-- Settled code is read back by the decoder. -/
theorem Layout.Settled.decode {bound settled} (h : Settled bound settled) (hplace : ∀ i ∈ settled, Placeable i)
    (hlabel : ∀ i ∈ settled, Labelled i) :
    decodeFinal ((placeFrom 0 settled).flatMap (bytes bound)) =
      .ok ((placeFrom 0 settled).filterMap (readBack? bound)) := by
  rw [decodeFinal, Decode.decode_eq_ok_iff, length_bytes bound 0 hplace]
  refine reads_settled h.stays hplace hlabel fun l target htarget => ?_
  rw [lookup_of_bind h.binds] at htarget
  have hoff : offset? l 0 settled = some target := by simpa using htarget
  have := offset?_le hoff
  omega

/-- What layout makes of a list: settled code, which the decoder reads back. -/
theorem assemble_eq_ok {code a} (h : assemble code = .ok a) (hlabel : ∀ i ∈ code, Layout.Labelled i) :
    ∃ settled bound, List.Forall₂ Instr.Widens code settled ∧ Layout.Settled bound settled ∧
      (∀ i ∈ settled, Layout.Placeable i) ∧ a.code.length = Layout.sizeOf settled ∧
      decodeFinal a.code = .ok ((Layout.placeFrom 0 settled).filterMap (Layout.readBack? bound)) := by
  obtain ⟨settled, bound, -, hsettled, hwides, hplace, rfl⟩ := assemble_settles h
  exact ⟨settled, bound, hwides, hsettled, hplace, Layout.length_bytes bound 0 hplace,
    hsettled.decode hplace (Layout.forall₂_mem hwides (fun _ _ => Layout.Labelled.widens) hlabel)⟩

end ScriptBytecode
