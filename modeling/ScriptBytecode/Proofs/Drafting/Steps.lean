import ScriptBytecode.Emission
import ScriptBytecode.Proofs.AtomTable
import ScriptBytecode.Proofs.Depths

/-!
# Steps of emission

Everything that emitters do to the state is made of the steps below. `Drafted` puts steps together: a label is
made for some piece of emission, which may refer to it and marks it at most once; constructs, chains and
completion values are set for a piece and then restored; a nested function is a piece with a draft of its own.
Where depths are measured, every instruction takes the stack from one depth to another, and the depth of a label
is chosen when it is made. What holds of all drafts is proved by induction on `Drafted`.
-/

namespace ScriptBytecode

/-! ## What instructions and tables may hold -/

/-- Does the operand name a slot or a constant? -/
def Format.isSlot : Format → Bool
  | .impliedLoc | .impliedArg | .impliedVarRef | .loc8 | .loc | .arg | .varRef | .const8 | .const => true
  | _ => false

/-- Opcodes that make a reference to a slot. -/
def Opcode.refersToSlot : Opcode → Bool
  | .makeLocRef | .makeArgRef | .makeVarRefRef => true
  | _ => false

/-- An opcode in long form whose operand is neither a label nor a slot nor a constant. -/
def Opcode.isFree (o : Opcode) : Bool :=
  !o.isShort && !o.isJump && !o.format.isSlot && !o.refersToSlot

/-- An opcode in long form whose operand is a label and nothing else. -/
def Opcode.isPlainJump : Opcode → Bool
  | .goto | .ifFalse | .ifTrue | .catchTo | .gosub => true
  | _ => false

/-- A placeholder for an access to a name. -/
def Pseudo.isVarAccess : Pseudo → Bool
  | .getVarUndef | .getVar | .putVar | .deleteVar | .getRef | .putVarInit | .getThis
  | .getPrivate | .getPrivateKeep | .putPrivate | .hasPrivate => true
  | _ => false

def Value.isText : Value → Bool
  | .undefined | .string _ => true
  | _ => false

/-- A value that literals put into the constants. -/
def Value.isLiteral : Value → Bool
  | .float _ | .bigint _ | .string _ => true
  | .template _ cooked raw => cooked.all isText && raw.all isText
  | _ => false

/-- The attributes of an import: none, or an object of texts whose keys have names. -/
def Value.IsAttributes (t : AtomTable) (v : Value) : Prop :=
  v = .undefined ∨ ∃ id props, v = .object id props ∧ ∀ p ∈ props, t.Covers p.key ∧ p.value.isText = true

def Export.Covered (t : AtomTable) : Export → Prop
  | .ofLocal _ name => t.Covers name
  | .ofModule _ localName name => t.Covers localName ∧ t.Covers name

/-- The atoms of a module's tables have names. -/
structure ModuleTables.Covered (t : AtomTable) (m : ModuleTables) : Prop where
  requires : ∀ r ∈ m.requires, t.Covers r.key ∧ r.value.IsAttributes t
  imports : ∀ i ∈ m.imports, t.Covers i.name
  localExports : ∀ e ∈ m.localExports, t.Covers e.exported
  indirectExports : ∀ e ∈ m.indirectExports, e.Covered t

/-! ## Steps -/

/-- The frame with the variable for the `this` of a derived constructor. -/
def Frame.withThis (f : Frame) : Frame :=
  { f with
    scopes := (f.scopes.addVar .this).modifyVar f.scopes.vars.size ({ · with isLexical := true })
    specials := f.specials.set .this f.scopes.vars.size }

/-- The frame of a module with its top-level variables as closure variables. -/
def Frame.withModuleVars (f : Frame) : Frame :=
  { f with closureVars := f.closureVars ++ f.globals.mapIdx fun i g =>
      (⟨g.name, i % 0x10000, true, false, g.isConst, g.isLexical, .normal⟩ : ClosureVar) }

/-- A constant of a pool that is a nested function. -/
def ConstantPool.HasFunction (pool : ConstantPool) (idx : Nat) : Prop :=
  ∃ child, pool.get? idx = some (.function child)

/-- The nested function is a constant of the pool. -/
def ConstantPool.HoldsChild (pool : ConstantPool) (child : Nat) : Prop :=
  ∃ idx, pool.get? idx = some (.function child)

/-- What may become of the frame of a function while its code is emitted. Labels are left out. -/
inductive FrameStep (t : AtomTable) (pool : ConstantPool) (f : Frame) : Frame → Prop
  | openScope : FrameStep t pool f { f with scopes := f.scopes.push }
  | closeScope : FrameStep t pool f { f with scopes := f.scopes.pop }
  | scopeVar {name : Atom} (known : t.Covers name) (inner : f.scopes.current ≠ 0) (kind : VarKind)
      (isLexical isConst : Bool) :
      FrameStep t pool f { f with scopes := f.scopes.addScopeVar name kind isLexical isConst }
  | functionVar {name : Atom} (known : t.Covers name) (fresh : f.scopes.findVar? name = none) :
      FrameStep t pool f { f with scopes := f.scopes.addVar name }
  | arg {name : Atom} (known : t.Covers name) : FrameStep t pool f { f with scopes := f.scopes.addArg name }
  | this (first : f.scopes.vars = #[]) : FrameStep t pool f f.withThis
  | kind (idx : Nat) :
      FrameStep t pool f { f with scopes := f.scopes.modifyVar idx ({ · with kind := .functionDecl }) }
  | init {constant : Nat} (isFunction : pool.HasFunction constant) (idx : Nat) :
      FrameStep t pool f { f with scopes := f.scopes.setInit idx constant }
  | global {g : GlobalVar} (known : t.Covers g.name) (fresh : f.global? g.name = none)
      (isFunction : ∀ c ∈ g.init, pool.HasFunction c) :
      FrameStep t pool f { f with globals := f.globals.push g }
  | globalLexical (i : Nat) (isConst : Bool) :
      FrameStep t pool f { f with globals := f.globals.modify i ({ · with isLexical := true, isConst }) }
  | globalInit {constant : Nat} (isFunction : pool.HasFunction constant) (i : Nat) :
      FrameStep t pool f { f with globals := f.globals.modify i ({ · with init := some constant }) }
  | header (kind : FunctionKind) (isArrow strict simpleParams : Bool) (definedArgs : Nat) (source : Option String) :
      FrameStep t pool f { f with kind, isArrow, strict, simpleParams, definedArgs, source }
  | imported {name : Atom} (module : f.role = .module) (known : t.Covers name) (idx : Nat) :
      FrameStep t pool f
        { f with closureVars := f.closureVars.push ⟨name, idx % 0x10000, false, false, true, true, .normal⟩ }
  | moduleVars (module : f.role = .module) : FrameStep t pool f f.withModuleVars

namespace EmitState

def put (s : EmitState) (i : Instr) : EmitState :=
  { s with draft := { s.draft with code := s.draft.code.push i } }

def withFrame (s : EmitState) (f : Frame) : EmitState :=
  { s with draft := { s.draft with frame := f } }

def withPool (s : EmitState) (pool : ConstantPool) : EmitState :=
  { s with draft := { s.draft with pool } }

def withTargets (s : EmitState) (targets : List JumpTarget) : EmitState :=
  { s with draft := { s.draft with targets } }

def withChainEnd (s : EmitState) (chainEnd : Option Nat) : EmitState :=
  { s with draft := { s.draft with chainEnd } }

def withCompletion (s : EmitState) (completion : Option Nat) : EmitState :=
  { s with draft := { s.draft with completion } }

def withLine (s : EmitState) (lastLine : Nat) : EmitState :=
  { s with draft := { s.draft with lastLine } }

def nextLabel (s : EmitState) : Nat :=
  s.draft.frame.nextLabel

/-- The state with one more label. -/
def withLabel (s : EmitState) : EmitState :=
  { s with draft := { s.draft with frame := { s.draft.frame with
      nextLabel := s.draft.frame.nextLabel + 1 } } }

/-- The state in which a nested function is emitted. -/
def enter (s : EmitState) (frame : Frame) : EmitState :=
  { s with draft := .initial frame (s.draft.frame :: s.draft.outer) }

/-- The state behind a nested function, which was emitted in `inner`. -/
def adopt (s inner : EmitState) : EmitState :=
  { inner with draft := { s.draft with children := s.draft.children.push inner.draft.tree } }

end EmitState

/-- Instructions without labels that may be added to the code. -/
inductive Permitted (s : EmitState) : Instr → Prop
  | free {o : Opcode} {arg : Operand} (isFree : o.isFree = true)
      (hasAtom : o.format.hasAtom = arg.atom?.isSome) (known : ∀ a, arg.atom? = some a → s.atoms.Covers a) :
      Permitted s (.of o arg)
  | completion {o : Opcode} {idx : Nat} (isLoc : o = .getLoc ∨ o = .putLoc)
      (at_ : s.draft.completion = some idx) : Permitted s (.of o (.int (idx % 0x10000 : Nat)))
  | arg {o : Opcode} {idx : Nat} (isArg : o = .getArg ∨ o = .putArg)
      (lt : idx < s.draft.frame.scopes.args.size) : Permitted s (.of o (.int (idx % 0x10000 : Nat)))
  | constant {idx : Nat} (lt : idx < s.draft.pool.size) : Permitted s (.of .pushConst (.int idx))
  | closure {idx : Nat} (isFunction : s.draft.pool.HasFunction idx) :
      Permitted s (.of .fclosure (.int idx))
  | access {p : Pseudo} {name : Atom} (isAccess : p.isVarAccess = true) (known : s.atoms.Covers name)
      (scope : Nat) : Permitted s ⟨.pseudo p, .atomInt name scope⟩
  | scope {p : Pseudo} (isScope : p = .enterScope ∨ p = .leaveScope) (n : Nat) :
      Permitted s ⟨.pseudo p, .int n⟩
  | chainField {name : Atom} (known : s.atoms.Covers name) : Permitted s ⟨.pseudo .chainField, .atom name⟩
  | chainElement : Permitted s ⟨.pseudo .chainElement, .none⟩
  | line (n : Nat) : Permitted s (.line n)

/-- Instructions of emitted code. -/
inductive Emittable (s : EmitState) : Instr → Prop
  | permitted {i : Instr} (permitted : Permitted s i) : Emittable s i
  | mark (l : Nat) : Emittable s (.mark l)
  | makeRef {name : Atom} (known : s.atoms.Covers name) (l scope : Nat) :
      Emittable s ⟨.pseudo .makeRef, .atomLabel name l scope⟩
  | jump {o : Opcode} (isJump : o.isPlainJump = true) (l : Nat) : Emittable s (.of o (.label l))
  | optionalLink (l : Nat) : Emittable s ⟨.pseudo .optionalLink, .label l⟩

/-- The label that an instruction refers to and does not mark. -/
def Instr.jump? (i : Instr) : Option Nat :=
  if i.endLabel?.isSome then none else i.target?

/-- The instruction takes the stack from depth `d` to depth `e`, if labels have the depths that they are to have. -/
def Instr.Shifts (labels : List (Nat × Nat)) (d : Nat) (i : Instr) (e : Nat) : Prop :=
  ∀ depths : List (Option Nat), (∀ l k, (l, k) ∈ labels → depths[l]? = some (some k)) → Adds depths d [i] e

/-- Steps that add no code and no labels. -/
inductive EmitStep (s : EmitState) : EmitState → Prop
  | intern (name : String) : EmitStep s { s with atoms := (s.atoms.intern name).2 }
  | freshId : EmitStep s { s with nextId := s.nextId + 1 }
  | tables {ts : Option ModuleTables}
      (covered : (∀ m ∈ s.tables, m.Covered s.atoms) → ∀ m ∈ ts, m.Covered s.atoms) :
      EmitStep s { s with tables := ts }
  | frame {f : Frame} (step : FrameStep s.atoms s.draft.pool s.draft.frame f) : EmitStep s (s.withFrame f)
  | lastLine (n : Nat) : EmitStep s (s.withLine n)
  | constant {v : Value} (isLiteral : v.isLiteral = true) : EmitStep s (s.withPool (s.draft.pool.add v).2)
  | function (child : Nat) : EmitStep s (s.withPool (s.draft.pool.addFunction child).2)

/-- The code of a function cannot be left at its end. -/
def Draft.IsClosed (d : Draft) : Prop :=
  ∃ o arg, d.code.back? = some (.of o arg) ∧ o.isTerminator = true

/-- What emission may do: `labels` may be jumped to, and `marks` are those of the labels made before that are
marked. If it is measured, the stack is taken from the one depth to the other. -/
inductive Drafted (measured : Bool) :
    (labels : List (Nat × Nat)) → (marks : List Nat) → (d e : Nat) → EmitState → EmitState → Prop
  | refl (labels : List (Nat × Nat)) (d : Nat) (s : EmitState) : Drafted measured labels [] d d s s
  | step {labels : List (Nat × Nat)} {d : Nat} {s s' : EmitState} (step : EmitStep s s') :
      Drafted measured labels [] d d s s'
  | put {labels : List (Nat × Nat)} {d e : Nat} {s : EmitState} {i : Instr} (emittable : Emittable s i)
      (jump : ∀ l, i.jump? = some l → ∃ k, (l, k) ∈ labels) (shifts : measured = true → i.Shifts labels d e) :
      Drafted measured labels i.endLabel?.toList d e s (s.put i)
  | trans {labels : List (Nat × Nat)} {marks marks' : List Nat} {d e k : Nat} {s s₁ s₂ : EmitState}
      (first : Drafted measured labels marks d e s s₁) (second : Drafted measured labels marks' e k s₁ s₂) :
      Drafted measured labels (marks ++ marks') d k s s₂
  /-- Depths that are not measured do not matter. -/
  | unmeasured {labels : List (Nat × Nat)} {marks : List Nat} {d e : Nat} {s s' : EmitState}
      (inner : Drafted measured labels marks d e s s') (free : measured = false) (d' e' : Nat) :
      Drafted measured labels marks d' e' s s'
  | reorder {labels : List (Nat × Nat)} {marks marks' : List Nat} {d e : Nat} {s s' : EmitState}
      (inner : Drafted measured labels marks d e s s') (perm : marks.Perm marks') :
      Drafted measured labels marks' d e s s'
  /-- A label that is marked once. -/
  | label {labels : List (Nat × Nat)} {marks : List Nat} {d e : Nat} {s s' : EmitState} (k : Nat)
      (inner : Drafted measured ((s.nextLabel, k) :: labels) (marks ++ [s.nextLabel]) d e s.withLabel s') :
      Drafted measured labels marks d e s s'
  /-- A label that is not used. -/
  | spareLabel {labels : List (Nat × Nat)} {marks : List Nat} {d e : Nat} {s s' : EmitState}
      (inner : Drafted measured labels marks d e s.withLabel s') : Drafted measured labels marks d e s s'
  | within {labels : List (Nat × Nat)} {marks : List Nat} {d e : Nat} {s s' : EmitState} (targets : List JumpTarget)
      (inner : Drafted measured labels marks d e (s.withTargets targets) s') :
      Drafted measured labels marks d e s (s'.withTargets s.draft.targets)
  | chained {labels : List (Nat × Nat)} {marks : List Nat} {d e : Nat} {s s' : EmitState} (chainEnd : Option Nat)
      (inner : Drafted measured labels marks d e (s.withChainEnd chainEnd) s') :
      Drafted measured labels marks d e s (s'.withChainEnd s.draft.chainEnd)
  | uncompleted {labels : List (Nat × Nat)} {marks : List Nat} {d e : Nat} {s s' : EmitState}
      (inner : Drafted measured labels marks d e (s.withCompletion none) s') :
      Drafted measured labels marks d e s (s'.withCompletion s.draft.completion)
  /-- A nested function starts with an empty stack. It becomes a constant in what is emitted after it. -/
  | nested {labels : List (Nat × Nat)} {marks : List Nat} {d e k : Nat} {s s' s'' : EmitState} {name : Atom}
      {role : Role} (known : s.atoms.Covers name) (isNested : role.isTopLevel = false) (line scope : Nat)
      (strict : Bool) (inner : Drafted measured [] [] 0 k (s.enter (.initial name role line scope strict)) s')
      (closed : s'.draft.IsClosed) (rest : Drafted measured labels marks d e (s.adopt s') s'')
      (isConstant : s''.draft.pool.HoldsChild s.draft.children.size) : Drafted measured labels marks d e s s''

end ScriptBytecode
