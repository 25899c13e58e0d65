import ScriptBytecode.Proofs.Drafting.Rules
import ScriptBytecode.Proofs.Regular

/-!
# Drafts of assignment targets and patterns

The emitters for the parts of a node are taken to keep to the rules: an expression leaves one value on the stack, a
statement leaves it as it was, a pattern takes one value. Then so do the emitters for nodes made of them.
-/

namespace ScriptBytecode

variable {e : Expr} {name : Option Atom}

/-- The emitters for the parts of a node keep to the rules. Nothing below what the constructs around them hold is
touched. -/
class Parts.Drafting (r : Parts) : Prop where
  expr : ∀ {C : Supply} {d : Nat} {name : Option Atom} {e : Expr}, C.base ≤ d → C.Allows (e.isRegular false) →
    (∀ a ∈ name, C.Knows a) → Drafts C d (r.expr name e) (fun _ => d + 1)
  spine : ∀ {C : Supply} {d : Nat} {e : Expr}, C.base ≤ d → C.ChainAt (d + 1) → C.Allows (e.isRegular false) →
    Drafts C d (r.spine e) (fun _ => d + 1)
  stmt : ∀ {C : Supply} (names : List Atom) {s : Stmt}, C.Allows (s.isRegular false) →
    Drafts C C.base (r.stmt names s) (fun _ => C.base) [] noNames s.exports
  bind : ∀ {C : Supply} {d : Nat} (kind : BindKind) {p : Pattern}, C.base ≤ d → C.Allows (p.isRegular false) →
    Drafts C (d + 1) (r.bind kind p) (fun _ => d)
  function : ∀ {C : Supply} {name : Atom} {role : Role} {f : FunctionNode}, C.Allows (f.isRegular false) →
    C.Knows name → role.isTopLevel = false → Drafts.Nests C (r.function name role f)
  classDef : ∀ {C : Supply} {d : Nat} {name : Atom} {c : ClassNode}, C.base ≤ d → C.Allows (c.isRegular false) →
    C.Knows name → Drafts C d (r.classDef name c) (fun _ => d + 1)

theorem Parts.Drafting.value {r : Parts} (hr : r.Drafting) {C : Supply} {d} (hd : C.base ≤ d)
    (he : C.Allows (e.isRegular false)) : Drafts C d (r.value e) (fun _ => d + 1) :=
  hr.expr hd he C.knows_none

/-- The atoms that are stored through a target. -/
def Target.names : Target → List Atom
  | .var name | .field name | .privateField name => [name]
  | _ => []

namespace Drafts

open Supply (knows_of_mem allows_and)

variable {C : Supply} {d : Nat} {r : Parts} [hr : r.Drafting]

theorem privateAtom (name : String) : Drafts C d (Emit.privateAtom name) (fun _ => d) [] (fun a => [a]) :=
  interns _

theorem keyAtom (key : PropertyKey) : Drafts C d (Emit.keyAtom key) (fun _ => d) [] (fun a => [a]) := by
  unfold Emit.keyAtom
  split
  · exact privateAtom _
  · exact interns _

theorem pushThis : Drafts C d Emit.pushThis (fun _ => d + 1) :=
  .read (.of_state _) fun _ => .ite (fun _ => access 0 1 rfl (.inl rfl)) fun _ => .op 0 1 rfl

theorem superBase (span : Span) : Drafts C d (Emit.superBase span) (fun _ => d + 2) :=
  .read (.of_state _) fun _ => guarded <|
    .seq pushThis fun _ => .seq (access 0 1 rfl (.inl rfl)) fun _ => .op 1 1 rfl

theorem orDefault (hd : C.base ≤ d) (he : C.Allows (e.isRegular false)) (hname : ∀ a ∈ name, C.Knows a) :
    Drafts C (d + 1) (Emit.orDefault r e name) (fun _ => d + 1) :=
  newLabel (d + 1) fun _ =>
  .seq (ops 1 2 rfl) fun _ =>
  .seq (branch 1 0 rfl List.mem_cons_self) fun _ =>
  .seq (.op 1 0 rfl) fun _ =>
  .seq (hr.expr hd he hname) fun _ =>
  mark List.mem_cons_self

/-! ## Targets -/

theorem superKey (hd : C.base ≤ d) {key : MemberKey} (hkey : C.Allows (key.isRegular false)) (span : Span) :
    Drafts C d (Emit.superKey r key span) (fun _ => d + 1) := by
  cases key with
  | name s => exact pushText s
  | computed e => exact .seq (hr.value hd hkey) fun _ => .op 1 1 rfl
  | privateName s => exact misuse _ _

/-- A reference is made at a label of its own, which it marks. -/
theorem makeRef {name l} (hname : C.Knows name) (hl : (l, d + 2) ∈ C.labels) (scope : Nat) :
    Drafts C d (Emit.put ⟨.pseudo .makeRef, .atomLabel name l scope⟩) (fun _ => d + 2) [l] :=
  emits rfl (fun _ hs => .makeRef (hs.covers hname) l scope) nofun fun _ _ hknown =>
    adds_makeRef (hknown l _ hl)

/-- The parts of a target are put on the stack, and its value above them if it is read. -/
theorem nameTarget {name} (hname : C.Knows name) (read : Bool) :
    Drafts C d (Emit.nameTarget name read) (fun t => d + t.depth + read.toNat) [] Target.names := by
  refine .read (.of_state _) fun _ =>
    .ite (fun _ => newLabel (d + 2) fun l => .read (.of_state _) fun _ => ?_) fun _ => ?_
  · refine .bind_last (makeRef (C := C.withLabel l (d + 2)) hname List.mem_cons_self _) fun _ => ?_
    cases read with
    | true => exact .seq (.op 2 3 rfl) fun _ => result _ rfl nofun
    | false => exact result _ rfl nofun
  · have hnames : ∀ a ∈ (Target.var name).names, C.Knows a := fun a ha => List.mem_singleton.mp ha ▸ hname
    cases read with
    | true => exact .seq (access 0 1 rfl hname) fun _ => result _ rfl hnames
    | false => exact result _ rfl hnames

theorem identTarget (id : Ident) (read : Bool) :
    Drafts C d (Emit.identTarget id read) (fun t => d + t.depth + read.toNat) [] Target.names := by
  refine intern _ fun name => .read (.of_state _) fun _ => ?_
  extract_lets rest
  have hrest : ∀ u, Drafts (C.know [name]) d (rest u) (fun t => d + t.depth + read.toNat) [] Target.names := fun _ =>
    nameTarget (C.knows_self name) read
  exact .ite (fun _ => .read (.of_state _) fun _ => error_seq _) fun _ => hrest ()

theorem memberTarget (hd : C.base ≤ d) {m : Member} (hm : C.Allows (m.isRegular false)) (read : Bool) :
    Drafts C d (Emit.memberTarget r m read) (fun t => d + t.depth + read.toNat) [] Target.names := by
  obtain ⟨object, key, isOptional, span⟩ := m
  simp only [Member.isRegular, allows_and] at hm
  unfold Emit.memberTarget
  refine guarded ?_
  dsimp only
  split
  · refine .seq (superBase _) fun _ => .seq (superKey (Nat.le_add_right_of_le hd) hm.2 _) fun _ => ?_
    cases read with
    | true => exact .seq (ops 3 4 rfl) fun _ => result _ rfl nofun
    | false => exact result _ rfl nofun
  · refine .seq (hr.value hd hm.1) fun _ => ?_
    cases key with
    | name s =>
      refine intern s fun key => ?_
      cases read with
      | true => exact .seq (opAtom 1 2 rfl (C.knows_self key)) fun _ => result _ rfl fun _ ha => knows_of_mem ha
      | false => exact result _ rfl fun _ ha => knows_of_mem ha
    | computed e =>
      refine .seq (hr.value (Nat.le_add_right_of_le hd) hm.2) fun _ => ?_
      cases read with
      | true => exact .seq (ops 2 3 rfl) fun _ => result _ rfl nofun
      | false => exact result _ rfl nofun
    | privateName s =>
      refine .bind (privateAtom s) fun name => ?_
      cases read with
      | true => exact .seq (access 1 2 rfl (C.knows_self name)) fun _ => result _ rfl fun _ ha => knows_of_mem ha
      | false => exact result _ rfl fun _ ha => knows_of_mem ha

theorem exprTarget (hd : C.base ≤ d) (he : C.Allows (e.isRegular false)) (read : Bool) :
    Drafts C d (Emit.exprTarget r e read) (fun t => d + t.depth + read.toNat) [] Target.names := by
  cases e with
  | ident id => exact identTarget id read
  | member m => exact memberTarget hd he read
  | _ => exact misuse _ _

theorem store {t : Target} (ht : ∀ a ∈ t.names, C.Knows a) (keep : Bool) :
    Drafts C (d + t.depth + 1) (Emit.store t keep) (fun _ => d + keep.toNat) := by
  have hstore : ∀ {depth : Nat} {copy : Opcode} {put : Emit Unit}, (∀ k, Drafts C (k + depth + 1) put (fun _ => k)) →
      Drafts C (d + depth + 1) (Emit.op copy) (fun _ => d + 1 + depth + 1) →
      Drafts C (d + depth + 1) (do
        if keep then Emit.op copy
        put) (fun _ => d + keep.toNat) := by
    intro depth copy put hput hcopy
    cases keep with
    | false => exact hput d
    | true => exact .seq hcopy fun _ => hput (d + 1)
  cases t with
  | var name => exact hstore (fun _ => access 1 0 rfl (ht name List.mem_cons_self)) (.op 1 2 rfl)
  | ref => exact hstore (fun _ => .op 3 0 rfl) (.op 3 4 rfl)
  | field key => exact hstore (fun _ => opAtom 2 0 rfl (ht key List.mem_cons_self)) (.op 2 3 rfl)
  | element => exact hstore (fun _ => .op 3 0 rfl) (.op 3 4 rfl)
  | privateField name => exact hstore (fun _ => access 2 0 rfl (ht name List.mem_cons_self)) (.op 2 3 rfl)
  | superField => exact hstore (fun _ => .op 4 0 rfl) (.op 4 5 rfl)

theorem raiseValue (t : Target) : Drafts C (d + 1 + t.depth) (Emit.raiseValue t) (fun _ => d + t.depth + 1) := by
  cases t with
  | var => exact .pure _
  | field | privateField => exact .op 2 2 rfl
  | ref | element => exact .op 3 3 rfl
  | superField => exact .op 4 4 rfl

theorem sinkOldValue (t : Target) :
    Drafts C (d + t.depth + 2) (Emit.sinkOldValue t) (fun _ => d + 1 + t.depth + 1) := by
  cases t with
  | var => exact .pure _
  | field | privateField => exact .op 3 3 rfl
  | ref | element => exact .op 4 4 rfl
  | superField => exact .op 5 5 rfl

theorem dropParts (t : Target) : Drafts C (d + t.depth + 1) (Emit.dropParts t) (fun _ => d + 1) := by
  rw [Nat.add_right_comm]
  exact nips _

/-! ## Patterns -/

theorem bindName (kind : BindKind) {name} (hname : C.Knows name) :
    Drafts C (d + 1) (Emit.bindName kind name) (fun _ => d) := by
  cases kind <;> exact access 1 0 rfl hname

theorem patternName (p : Pattern) : Drafts C d (Emit.patternName? p) (fun _ => d) [] Option.toList := by
  cases p with
  | ident id => exact intern _ fun a => result _ rfl fun x hx => knows_of_mem hx
  | _ => exact result _ rfl nofun

variable (hd : C.base ≤ d) (kind : BindKind)
include hd

/-- The members of an object pattern other than a rest leave the stack as it is. -/
theorem bindProperty (hasRest : Bool) {m : PatternMember}
    (hm : C.Allows (m.isRegular false)) (hrest : m.isRest = false) :
    Drafts C (d + hasRest.toNat + 1) (Emit.bindMember r kind hasRest m) (fun _ => d + hasRest.toNat + 1) := by
  have hd' : ∀ k, C.base ≤ d + hasRest.toNat + k := fun k => by omega
  cases m with
  | rest target span => cases hrest
  | property key value isShorthand span =>
    simp only [PatternMember.isRegular, allows_and] at hm
    unfold Emit.bindMember
    split
    · rename_i e _ _ _ heq
      cases heq
      exact .seq (.op 1 2 rfl) fun _ => .seq (hr.value (hd' 2) hm.1) fun _ => .seq (.op 2 1 rfl) fun _ =>
        hr.bind kind (hd' 1) hm.2
    · rename_i heq
      cases heq
      refine .seq (.op 1 2 rfl) fun _ => .bind (keyAtom _) fun key => .seq (opAtom 1 1 rfl (C.knows_self key)) fun _ =>
        .seq (hr.bind kind (hd' 1) hm.2) fun _ => ?_
      cases hasRest with
      | false => exact .pure _
      | true => exact .seq (ops 2 3 rfl) fun _ => .seq (opAtom 2 1 rfl (C.knows_self key)) fun _ => .op 2 2 rfl
    · rename_i heq
      cases heq

theorem bindRest (hasRest : Bool) {target : Pattern} (htarget : C.Allows (target.isRegular false)) (span : Span) :
    Drafts C (d + 2) (Emit.bindMember r kind hasRest (.rest target span)) (fun _ => d + 1) :=
  .seq (.op 0 1 rfl) fun _ =>
  .seq (opInt 3 3 _ rfl) fun _ =>
  .seq (hr.bind kind (Nat.le_add_right_of_le hd) htarget) fun _ =>
  .op 1 0 rfl

/-- Below the object there is another one, if the last member is a rest. Other rests there are only where depths are not
measured. -/
theorem bindMembers {members : List PatternMember}
    (hrest : C.Allows (members.dropLast.all (!·.isRest))) (hmembers : ∀ m ∈ members, C.Allows (m.isRegular false)) :
    Drafts C (d + (members.getLast?.any (·.isRest)).toNat + 1)
      (members.forM (Emit.bindMember r kind (members.getLast?.any (·.isRest)))) (fun _ => d + 1) := by
  rcases hregular : members.dropLast.all (!·.isRest) with _ | _
  · rw [hregular] at hrest
    have hC := Supply.measured_of_allows hrest
    refine .unmeasured hC (forM (d := d) fun m hm => ?_)
    cases m with
    | property => exact .unmeasured hC (bindProperty hd kind _ (hmembers _ hm) rfl)
    | rest => exact .unmeasured hC (bindRest hd kind _ (hmembers _ hm) _)
  · simp only [List.all_eq_true, Bool.not_eq_true'] at hregular
    rcases List.eq_nil_or_concat' members with rfl | ⟨init, last, rfl⟩
    · exact .pure _
    · rw [List.dropLast_concat] at hregular
      simp only [List.mem_append, List.mem_singleton] at hmembers
      have hlast := hmembers last (.inr rfl)
      have hhas : (init ++ [last]).getLast?.any (·.isRest) = last.isRest := by simp
      rw [hhas]
      refine forM_concat (fun m hm => bindProperty hd kind _ (hmembers m (.inl hm)) (hregular m hm)) ?_
      cases last with
      | property => exact bindProperty hd kind false hlast rfl
      | rest target span => exact bindRest hd kind true hlast span

theorem bindObject {members : List PatternMember}
    (hrest : C.Allows (members.dropLast.all (!·.isRest))) (hmembers : ∀ m ∈ members, C.Allows (m.isRegular false))
    (span : Span) : Drafts C (d + 1) (Emit.bindObject r kind members span) (fun _ => d) := by
  have hbody := bindMembers (r := r) hd kind hrest hmembers
  unfold Emit.bindObject
  extract_lets hasRest rest start
  have hall : ∀ u, Drafts C (d + hasRest.toNat + 1) (rest u) (fun _ => d) := fun _ => .seq hbody fun _ => .op 1 0 rfl
  refine .ite (fun hhas => ?_) fun hhas => ?_
  · rw [hhas] at hall
    have hstart : ∀ u, Drafts C (d + 1) (start u) (fun _ => d) := fun _ => .seq (ops 1 2 rfl) hall
    exact .ite (fun _ => error_seq _) fun _ => hstart ()
  · rw [Bool.not_eq_true] at hhas
    rw [hhas] at hall
    exact hall ()

theorem bindElement {p} (hp : C.Allows (optPatternRegular false p)) :
    Drafts C (d + 3) (Emit.bindElement r kind p) (fun _ => d + 3) := by
  have hd' : ∀ k, C.base ≤ d + k := fun k => Nat.le_add_right_of_le hd
  unfold Emit.bindElement
  split
  · exact .seq (opInt 3 5 _ rfl) fun _ => ops 2 0 rfl
  · exact newLabel (d + 5) fun next => newLabel (d + 6) fun done =>
      .seq (opCount 0 1 0 rfl) fun _ =>
      .seq (pushInt 0) fun _ =>
      mark_seq (by simp) fun _ =>
      .seq (opInt 3 5 2 rfl) fun _ =>
      .seq (branch 1 0 rfl (by simp)) fun _ =>
      .seq (ops 3 2 rfl) fun _ =>
      .seq (goto (by simp) (d + 6)) fun _ =>
      mark_seq (by simp) fun _ =>
      .seq (ops 2 0 rfl) fun _ =>
      hr.bind kind (hd' 3) hp
  · exact .seq (opInt 3 5 _ rfl) fun _ => .seq (.op 1 0 rfl) fun _ => hr.bind kind (hd' 3) hp

theorem bindArray {elements} (helements : ∀ p ∈ elements, C.Allows (optPatternRegular false p)) :
    Drafts C (d + 1) (Emit.bindArray r kind elements) (fun _ => d) :=
  .seq (.op 1 3 rfl) fun _ =>
  .seq (forM fun p hp => bindElement hd kind (helements p hp)) fun _ =>
  .op 3 0 rfl

theorem bindPattern {p : Pattern} (hp : C.Allows (p.isRegular false)) :
    Drafts C (d + 1) (Emit.bind r kind p) (fun _ => d) := by
  cases p with
  | ident id => exact intern _ fun name => bindName kind (C.knows_self name)
  | withDefault target value span =>
    simp only [Pattern.isRegular, allows_and] at hp
    refine .bind (patternName _) fun name => .seq (orDefault hd hp.2 fun a ha => ?_) fun _ => hr.bind kind hd hp.1
    exact knows_of_mem (Option.mem_toList.mpr ha)
  | object members span =>
    simp only [Pattern.isRegular, patternMembersRegular_eq, allows_and] at hp
    exact bindObject hd kind hp.1 ((C.allows_all _ _).mp hp.2) span
  | array elements span =>
    simp only [Pattern.isRegular, optPatternsRegular_eq, Supply.allows_all] at hp
    exact bindArray hd kind hp
  | member m =>
    unfold Emit.bind
    exact guarded <| .bind (memberTarget (Nat.le_add_right_of_le hd) hp false) fun t =>
      .seq (raiseValue t) fun _ => store (fun _ ha => knows_of_mem ha) false
  | rest target span => exact misuse _ _

end Drafts

end ScriptBytecode
