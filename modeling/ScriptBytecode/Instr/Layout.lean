import ScriptBytecode.Instr.Codec
import ScriptBytecode.LineTable

/-!
# Layout

Layout turns an instruction list into finished code: markers vanish, every label becomes a distance,
and a short jump whose distance does not fit is widened. Widening moves code apart only, so it is
repeated until every distance fits.
-/

namespace ScriptBytecode

/-- The next wider form of a short jump. -/
def Opcode.wider? : Opcode → Option Opcode
  | goto8 => some goto16
  | goto16 => some goto
  | ifFalse8 => some ifFalse
  | ifTrue8 => some ifTrue
  | _ => none

namespace Layout

/-- The label that an instruction marks. -/
def marked? (i : Instr) : Option Nat :=
  if i.isMark then i.arg.label? else none

/-- Finished opcodes and markers can be laid out. -/
def checkOpcodes : List Instr → Result Unit
  | [] => .ok ()
  | i :: rest =>
    match i.op with
    | .pseudo .label | .pseudo .lineNum | .final _ => checkOpcodes rest
    | .pseudo op => .error (.internal (.pseudoSurvived op.name))

/-- The offset of every label, in code that starts at `pc` and follows the labels of `bound`. -/
def bind (pc : Nat) (bound : List (Nat × Nat)) : List Instr → Result (List (Nat × Nat))
  | [] => .ok bound
  | i :: rest =>
    match marked? i with
    | some l =>
      if (bound.lookup l).isSome then .error (.internal (.boundTwice l))
      else bind (pc + i.size) ((l, pc) :: bound) rest
    | none => bind (pc + i.size) bound rest

/-- Every instruction with its offset. -/
def place (code : List Instr) : List Located :=
  (code.foldl (fun (pc, done) i => (pc + i.size, done.push ⟨pc, i⟩)) (0, #[])).2.toList

/-- The distance from a label field to its target. -/
def distance (here : Located) (target : Nat) : Int :=
  (target : Int) - (here.pos + here.instr.op.format.shape.labelOffset : Nat)

/-- A jump in the width that its distance needs, widened by one step at most; other instructions stay as
they are. -/
def widen (bound : List (Nat × Nat)) (here : Located) : Result Instr :=
  match here.instr.op with
  | .pseudo _ => .ok here.instr
  | .final op =>
    if !op.isJump then .ok here.instr
    else
      let l := here.instr.arg.label?.getD 0
      match bound.lookup l with
      | none => .error (.unresolvedLabel l)
      | some target =>
        let d := distance here target
        if fitsSigned (8 * op.format.shape.labelWidth) d then .ok here.instr
        else
          match op.wider? with
          | some op => .ok { here.instr with op := .final op }
          | none => .error (.internal (.jumpTooLong d op.name))

/-- Widens jumps until all distances fit, in at most `rounds` rounds. -/
def settle : Nat → List Instr → Result (List Instr)
  | 0, code => .ok code
  | rounds + 1, code => do
    let bound ← bind 0 [] code
    let wider ← (place code).mapM (widen bound)
    if wider == code then return code else settle rounds wider

/-- The bytes of an instruction at its place. -/
def bytes (bound : List (Nat × Nat)) (here : Located) : Bytes :=
  match here.instr.op with
  | .pseudo _ => []
  | .final _ =>
    let target := here.instr.target?.bind (bound.lookup ·)
    here.instr.encode (target.elim 0 fun t => unsignedWord 32 (distance here t))

/-- The lines read so far, the line that the next instruction starts and the line that the last one
was on. -/
structure Lines where
  done : Array LineEntry
  pending : Option Nat
  last : Option Nat

/-- A line counts from the next instruction on, if that was not on it already. -/
def Lines.step (s : Lines) (here : Located) : Lines :=
  match here.instr.op with
  | .pseudo .lineNum => { s with pending := here.instr.arg.int?.map (unsignedWord 32) }
  | .pseudo _ => s
  | .final _ =>
    match s.pending with
    | none => s
    | some line =>
      if s.last = some line then { s with pending := none }
      else ⟨s.done.push ⟨here.pos, line⟩, none, some line⟩

def lines (code : List Located) : LineTable :=
  (code.foldl Lines.step ⟨#[], none, none⟩).done.toList

end Layout

/-- Finished code with its line table. -/
structure Assembled where
  code : Bytes
  lines : LineTable
deriving DecidableEq, Inhabited

/-- Lays out an instruction list. A jump is widened twice at most, which bounds the rounds. -/
def assemble (code : List Instr) : Result Assembled := do
  Layout.checkOpcodes code
  let code ← Layout.settle (2 * code.length + 1) code
  let bound ← Layout.bind 0 [] code
  let placed := Layout.place code
  return ⟨placed.flatMap (Layout.bytes bound), Layout.lines placed⟩

end ScriptBytecode
