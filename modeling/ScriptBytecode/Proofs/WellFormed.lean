import ScriptBytecode.Proofs.Optimizer

/-!
# Finished code is well formed

Code that ends with an exit is laid out so that jumps lead to instructions and control does not run off the end.
Optimized or not, it refers to nothing that it did not refer to before.
-/

namespace ScriptBytecode

variable {R : Referents}

variable {code : List Instr}

/-- Finished code whose jumps lead to instructions, whose last instruction does not pass control on, and which refers
to nothing else. -/
structure WellFormed (R : Referents) (code : List Located) : Prop where
  targets : ∀ here ∈ code, ∀ pos, here.instr.target? = some pos → ∃ there ∈ code, there.pos = pos
  exit : ∃ last, code.getLast? = some last ∧ last.instr.isExit = true
  refers : ∀ here ∈ code, here.instr.Refers R

/-! ## Layout -/

/-- Wider forms are exits as well. -/
theorem EndsInExit.widens {wider} (hwides : List.Forall₂ Instr.Widens code wider) (h : EndsInExit code) :
    EndsInExit wider := by
  have hnil : ∀ {code wider : List Instr}, List.Forall₂ Instr.Widens code wider → bare code = [] → bare wider = [] := by
    intro code wider hwides hbare
    rw [bare, List.filter_eq_nil_iff] at *
    refine Layout.forall₂_mem hwides (fun i j hwiden hi => ?_) hbare
    cases hwiden with
    | refl => exact hi
    | wider => exact hi
  induction hwides with
  | nil => exact h
  | cons hi hrest ih =>
    rw [endsInExit_cons] at h ⊢
    rcases h with ⟨hexit, hbare⟩ | h
    · exact .inl ⟨hi.alike.isExit ▸ hexit, hnil hrest hbare⟩
    · exact .inr (ih h)

namespace Layout

variable {bound : List (Nat × Nat)}

/-- There is an instruction at the start of code that ends with one. -/
theorem exists_at_start (pc : Nat) (hplace : ∀ i ∈ code, Placeable i) (h : EndsInExit code) :
    ∃ here ∈ (placeFrom pc code).filterMap (readBack? bound), here.pos = pc := by
  induction code with
  | nil =>
    obtain ⟨i, hi, -⟩ := h
    cases hi
  | cons i rest ih =>
    rw [List.forall_mem_cons] at hplace
    obtain ⟨op, arg⟩ := i
    cases op with
    | final op => exact ⟨_, List.mem_cons_self, rfl⟩
    | pseudo op =>
      have hmarker : Instr.isMarker ⟨.pseudo op, arg⟩ := by
        rcases hplace.1 with hmarker | ⟨o, ho⟩
        · exact hmarker
        · cases ho
      have hsize : Instr.size ⟨.pseudo op, arg⟩ = 0 := if_pos hmarker
      have hrest : EndsInExit rest := by
        rcases endsInExit_cons.mp h with ⟨hexit, -⟩ | hrest
        · cases hexit
        · exact hrest
      simpa only [placeFrom, List.filterMap_cons, readBack?_pseudo, hsize, Nat.add_zero] using ih hplace.2 hrest

/-- There is an instruction behind the marker of every label. -/
theorem exists_at_offset {l pc target} (hplace : ∀ i ∈ code, Placeable i) (h : EndsInExit code)
    (hoffset : offset? l pc code = some target) :
    ∃ here ∈ (placeFrom pc code).filterMap (readBack? bound), here.pos = target := by
  induction code generalizing pc with
  | nil => cases hoffset
  | cons i rest ih =>
    have hplace' := hplace
    rw [List.forall_mem_cons] at hplace'
    unfold offset? at hoffset
    split at hoffset
    · rw [← Option.some.inj hoffset]
      exact exists_at_start pc hplace h
    · have hrest : EndsInExit rest := by
        rcases endsInExit_cons.mp h with ⟨-, hbare⟩ | hrest
        · -- with the label, there is more behind than line markers
          have hmark : l ∉ marks rest := by
            rw [← marks_bare, hbare]
            exact List.not_mem_nil
          rw [offset?_eq_none_iff.mpr hmark] at hoffset
          cases hoffset
        · exact hrest
      obtain ⟨here, hhere, hpos⟩ := ih hplace'.2 hrest hoffset
      exact ⟨here, ((List.sublist_cons_self _ _).filterMap _).subset hhere, hpos⟩

/-- Line markers leave nothing. -/
theorem read_of_bare (pc : Nat) (h : bare code = []) : (placeFrom pc code).filterMap (readBack? bound) = [] := by
  rw [List.filterMap_eq_nil_iff]
  intro here hhere
  have hline := List.filter_eq_nil_iff.mp h _ (mem_of_mem_placeFrom hhere)
  obtain ⟨pos, ⟨op, arg⟩⟩ := here
  obtain rfl : op = .pseudo .lineNum := by simpa [Instr.isLine] using hline
  rfl

theorem exists_last (pc : Nat) (h : EndsInExit code) :
    ∃ last, ((placeFrom pc code).filterMap (readBack? bound)).getLast? = some last ∧ last.instr.isExit := by
  induction code generalizing pc with
  | nil =>
    obtain ⟨i, hi, -⟩ := h
    cases hi
  | cons i rest ih =>
    rcases endsInExit_cons.mp h with ⟨hexit, hbare⟩ | hrest
    · obtain ⟨op, arg⟩ := i
      cases op with
      | pseudo op => cases hexit
      | final op =>
        rw [placeFrom, List.filterMap_cons, readBack?_final, read_of_bare _ hbare]
        exact ⟨_, rfl, hexit⟩
    · obtain ⟨last, hlast, hexit⟩ := ih (pc + i.size) hrest
      refine ⟨last, ?_, hexit⟩
      rw [placeFrom, List.filterMap_cons]
      split
      · exact hlast
      · rw [List.getLast?_cons, hlast, Option.getD_some]

end Layout

/-- Laid out code. -/
theorem wellFormed_of_assemble {a} (ha : assemble code = .ok a) (hlabel : ∀ i ∈ code, Layout.Labelled i)
    (hexit : EndsInExit code) (hrefers : ∀ i ∈ code, i.Refers R) :
    ∃ read, decodeFinal a.code = .ok read ∧ WellFormed R read ∧ ∀ here ∈ read, here.instr.Encodable := by
  obtain ⟨settled, bound, hwides, hsettled, hplace, -, hread⟩ := assemble_eq_ok ha hlabel
  have hlabel' : ∀ i ∈ settled, Layout.Labelled i :=
    Layout.forall₂_mem hwides (fun _ _ => Layout.Labelled.widens) hlabel
  have hrefers' : ∀ i ∈ settled, i.Refers R :=
    Layout.forall₂_mem hwides (fun _ _ hwiden hi => hi.widens hwiden) hrefers
  have hexit' : EndsInExit settled := hexit.widens hwides
  refine ⟨_, hread, ⟨?_, Layout.exists_last 0 hexit', ?_⟩,
    Layout.forall_of_read (fun _ op arg _ => Layout.encodable_readBack op arg _) fun _ _ => trivial⟩
  · refine Layout.forall_of_read (P := (· ∈ Layout.placeFrom 0 settled)) (fun pos op arg hmem target htarget => ?_)
      fun _ h => h
    obtain ⟨l, -, hlookup⟩ := Layout.target?_readBack (hsettled.stays _ hmem)
      (hlabel' _ (Layout.mem_of_mem_placeFrom hmem)) htarget
    rw [Layout.lookup_of_bind hsettled.binds] at hlookup
    exact Layout.exists_at_offset hplace hexit' (by simpa using hlookup)
  · exact Layout.forall_of_read (fun _ op arg hi => hi.readBack _)
      fun here hhere => hrefers' _ (Layout.mem_of_mem_placeFrom hhere)

/-! ## Labels -/

namespace Labels

theorem handle_withLabel (arg : Operand) (l : Nat) : (arg.withLabel l).handle = arg.handle := by
  cases arg <;> rfl

theorem refers_relabel {i : Instr} (found : List Nat) (h : i.Refers R) : (relabel found i).Refers R := by
  unfold relabel
  split
  · refine ⟨fun ho ht hviews => ?_, fun ho ha => ?_⟩
    · obtain ⟨n, hn, hlt, hentry⟩ := h.entry ho ht hviews
      refine ⟨n, ?_, hlt, hentry⟩
      rw [← hn]
      exact congrArg (i.opcode?.bind (·.longForm.2)).or (int?_withLabel i.arg _)
    · exact handle_withLabel i.arg _ ▸ h.atom ho ha
  · exact h

theorem refers_labelize {code} (lines : LineTable) (h : ∀ here ∈ code, here.instr.Refers R) :
    ∀ i ∈ (labelize code lines).map (·.instr), i.Refers R := by
  intro i hi
  rcases mem_labelize hi with ⟨l, rfl⟩ | ⟨n, rfl⟩ | ⟨here, hhere, rfl⟩
  · exact Instr.refers_of_pseudo rfl
  · exact Instr.refers_of_pseudo rfl
  · exact refers_relabel _ (h here hhere)

/-- No jump leads behind the last instruction, so no label stands there. -/
theorem endsInExit_labelize {code} (lines : LineTable) (hcode : Finished 0 code) (h : WellFormed R code) :
    EndsInExit ((labelize code lines).map (·.instr)) := by
  have hstop : stop code ∉ targets code := by
    rw [stop_eq hcode fun _ => rfl, mem_targets]
    rintro ⟨here, hhere, htarget⟩
    obtain ⟨there, hthere, hpos⟩ := h.targets here hhere _ htarget
    have hnodup := (List.nodup_append.mp (nodup_positions hcode)).2.2
    exact hnodup _ (List.mem_map_of_mem hthere) _ (List.mem_singleton_self _) hpos
  have hmark : markAt (targets code) (stop code) = [] := by
    rw [markAt, List.idxOf?_eq_none_iff.mpr hstop]
    rfl
  obtain ⟨last, hlast, hexit⟩ := h.exit
  obtain ⟨before, rfl⟩ := List.getLast?_eq_some_iff.mp hlast
  rw [map_labelize, hmark, List.map_nil, List.append_nil, List.flatMap_append, List.flatMap_singleton, withMarkers,
    ← List.append_assoc]
  have hexit' : (relabel (targets (before ++ [last])) last.instr).isExit :=
    (sameEffect_relabel _ last.instr).isExit ▸ hexit
  exact EndsInExit.append (endsInExit_cons.mpr (.inl ⟨hexit', rfl⟩)) _

end Labels

/-! ## Optimized code -/

/-- What optimizing keeps: code can be laid out, ends with an exit, and refers to nothing else. -/
structure Arranged (R : Referents) (code : List Instr) : Prop where
  workable : Workable code
  exit : EndsInExit code
  refers : ∀ i ∈ code, i.Refers R

theorem survives_arranged (R : Referents) : Threading.Survives (Arranged R) where
  workable := Arranged.workable
  replace := fun h hreplaces =>
    ⟨hreplaces.workable h.workable, @Replaces.exits _ _ hreplaces [] h.exit, hreplaces.refers h.refers⟩
  skip := by
    intro front rest arg l _ hreaches h
    have hsub : (front ++ rest).Sublist (front ++ ⟨.final .goto, arg⟩ :: rest) :=
      (List.Sublist.refl front).append (List.sublist_cons_self _ rest)
    exact ⟨fun i hi => h.workable i (hsub.subset hi), Threading.endsInExit_skip h.exit hreaches,
      fun i hi => h.refers i (hsub.subset hi)⟩

/-- Finished code is well formed, whatever the optimizer did to it. -/
theorem wellFormed_finishCode {config a} (hlabel : ∀ i ∈ code, Layout.Labelled i) (hexit : EndsInExit code)
    (hrefers : ∀ i ∈ code, i.Refers R) (ha : finishCode config code = .ok a) :
    ∃ read, decodeFinal a.code = .ok read ∧ WellFormed R read := by
  obtain ⟨first, hfirst, ha⟩ := bind_eq_ok.mp ha
  obtain ⟨read, hread, hformed, hinstrs⟩ := wellFormed_of_assemble hfirst hlabel hexit hrefers
  split at ha
  · cases ha
    exact ⟨read, hread, hformed⟩
  · obtain ⟨read', hread', ha⟩ := bind_eq_ok.mp ha
    cases hread.symm.trans hread'
    have harranged : Arranged R ((labelize read first.lines).map (·.instr)) :=
      ⟨Labels.encodable_labelize first.lines hread hinstrs,
        Labels.endsInExit_labelize first.lines (finished_of_decode hread) hformed,
        Labels.refers_labelize first.lines hformed.refers⟩
    have harranged := Optimizer.survives_optimizeInstrs (survives_arranged R) config harranged
    obtain ⟨read', hread', hformed', -⟩ := wellFormed_of_assemble ha
      (fun i hi => (harranged.workable i hi).1.labelled) harranged.exit harranged.refers
    exact ⟨read', hread', hformed'⟩

end ScriptBytecode
