import ScriptBytecode.Atom.Table
import ScriptBytecode.Binary64.Shortest
import ScriptBytecode.LineTable
import ScriptBytecode.Text.Blank
import ScriptBytecode.Text.Quoted
import ScriptBytecode.Value

/-!
# Listings

A listing shows a function's code with one instruction a line, then the functions among its constants.
-/

namespace ScriptBytecode.Listing

/-- A number in four places at least. -/
def places4 (n : Nat) : String :=
  let digits := toString n
  String.ofList (List.replicate (4 - digits.length) '0') ++ digits

def padded (width : Nat) (s : String) : String :=
  s ++ String.ofList (List.replicate (width - s.length) ' ')

def constant (atoms : AtomTable) : Value → String
  | .string s => Text.quote s
  | .int n => toString n
  | .float x => x.text
  | .bigint n => toString n ++ "n"
  | .function _ f => "<function " ++ atoms.display f.name ++ ">"
  | other => "<" ++ other.typeName ++ ">"

/-- The item of a list that a signed index means. -/
def item? {α : Type} (xs : List α) (i : Int) : Option α :=
  if i < 0 then none else xs[i.toNat]?

/-- A slot with the name that it has in the function. -/
def slot (atoms : AtomTable) (i : Int) (name : Option Atom) : String :=
  toString i ++ ": " ++ name.elim "" atoms.display

def target (l : Nat) : String :=
  "-> " ++ places4 l

def operand (f : FunctionRecord) (atoms : AtomTable) (i : Instr) : String :=
  match i.op.format, i.arg with
  | .const, .int n | .const8, .int n =>
    toString n ++ ": " ++ (item? f.constants n).elim "?" (constant atoms)
  | .loc, .int n | .loc8, .int n => slot atoms n ((item? f.locals n).map (·.name))
  | .arg, .int n => slot atoms n ((item? f.args n).map (·.name))
  | .varRef, .int n => slot atoms n ((item? f.closureVars n).map (·.name))
  | _, .int n => toString n
  | _, .atom a => atoms.display a
  | _, .atomInt a n => atoms.display a ++ ", " ++ toString n
  | _, .label l => target l
  | _, .atomLabel a l n => atoms.display a ++ ", " ++ target l ++ ", " ++ toString n
  | _, .labelInt l n => target l ++ ", " ++ toString n
  | _, .intPair a b => toString a ++ ", " ++ toString b
  | _, .none => ""

/-- An instruction's line: offset, opcode and operand. -/
def instruction (f : FunctionRecord) (atoms : AtomTable) (here : Located) : String :=
  Text.trimEnd
    (places4 here.pos ++ " " ++ padded 24 here.instr.op.name ++ " " ++ operand f atoms here.instr)

def heading (f : FunctionRecord) (atoms : AtomTable) : String :=
  "== " ++ atoms.display f.name ++ " == args=" ++ toString f.argCount ++ " locals="
    ++ toString f.varCount ++ " closure_vars=" ++ toString f.closureVars.length ++ " stack_size="
    ++ toString f.stackSize

def lineMark (e : LineEntry) : String :=
  "     ; line " ++ toString e.line

/-- Appends the lines of code; those line entries that an instruction has reached come before it. -/
def code (f : FunctionRecord) (atoms : AtomTable) :
    LineTable → List Located → Array String → Array String
  | _, [], done => done
  | lines, here :: rest, done =>
    let reached := lines.takeWhile (·.pc ≤ here.pos)
    code f atoms (lines.dropWhile (·.pc ≤ here.pos)) rest
      ((done ++ (reached.map lineMark).toArray).push (instruction f atoms here))

/-- The lines of one function. -/
def body (f : FunctionRecord) (atoms : AtomTable) : Result (Array String) := do
  let lines ← match f.debug with
    | some d => LineTable.decode d.line d.lines
    | none => pure []
  return code f atoms lines (← decodeFinal f.code) #[heading f atoms]

mutual

def function (atoms : AtomTable) : FunctionRecord → Result (List String)
  | f@⟨_, _, _, _, _, _, _, _, _, _, _, _, constants, _⟩ => do
    let own ← body f atoms
    return own.toList ++ (← functions atoms constants)
termination_by structural f => f

/-- The functions among constants, each behind an empty line. -/
def functions (atoms : AtomTable) : List Value → Result (List String)
  | [] => return []
  | .function _ f :: rest => do
    let lines ← function atoms f
    return "" :: lines ++ (← functions atoms rest)
  | _ :: rest => functions atoms rest
termination_by structural vs => vs

end

/-- The listing as text; every line ends with a newline. -/
def text (f : FunctionRecord) (atoms : AtomTable) : Result String :=
  return (← function atoms f).foldl (fun out line => out ++ line ++ "\n") ""

end ScriptBytecode.Listing
