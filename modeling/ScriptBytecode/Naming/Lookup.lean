import ScriptBytecode.Naming.Frame

/-!
# Looking up names

A name is looked up in the scopes around its use, then among the variables and arguments of the
function, then among the bindings that the function makes for itself, then among those it has
captured already, and then in the enclosing function from the scope that the function stands in.
What is found outside becomes a closure variable of every function on the way. A name that is found
nowhere is global.

Objects of `with` statements do not stop a lookup: it returns those passed on the way, innermost
first.
-/

namespace ScriptBytecode

/-- Where a function finds a binding. -/
inductive Slot where
  | var (idx : Nat)
  | arg (idx : Nat)
  | closure (idx : Nat)
deriving DecidableEq, Inhabited

/-- The innermost variable of that name from `next` on, and the objects of `with` statements before
it. A chain visits every variable once at most, so their number bounds the walk. -/
def ScopeTree.search (t : ScopeTree) (name : Atom) :
    Nat → Option Nat → List Nat → Option Nat × List Nat
  | 0, _, withs => (none, withs.reverse)
  | _ + 1, none, withs => (none, withs.reverse)
  | fuel + 1, some idx, withs =>
    match t.vars[idx]? with
    | none => (none, withs.reverse)
    | some v =>
      if v.name = name then (some idx, withs.reverse)
      else search t name fuel v.scopeNext (if v.name = .withObject then idx :: withs else withs)

namespace Frame

/-- Makes a special binding unless it is there already. -/
def makeSpecial (f : Frame) (name : Atom) (which : Special) : Nat × Frame :=
  match f.specials.get? which with
  | some idx => (idx, f)
  | none =>
    let idx := f.scopes.vars.size
    let isOwnName := f.ownName? = some name && name != .this
    let isLexical := name = .this && f.role.isDerived
    let scopes := (f.scopes.addVar name).modifyVar idx fun v =>
      { v with
        kind := if isOwnName then .functionName else v.kind
        isLexical := isLexical || v.isLexical }
    (idx, { f with scopes, specials := f.specials.set which idx })

/-- Looks a name up in one function. -/
def find (f : Frame) (name : Atom) (scope : Nat) : Option Slot × List Slot × Frame :=
  let (inScope, withs) := f.scopes.search name f.scopes.vars.size (f.scopes.first? scope) []
  let withs := withs.map .var
  match inScope <|> f.scopes.findVar? name with
  | some idx => (some (.var idx), withs, f)
  | none =>
    match f.scopes.findArg? name with
    | some idx => (some (.arg idx), withs, f)
    | none =>
      match f.special? name with
      | some which =>
        let (idx, f) := f.makeSpecial name which
        (some (.var idx), withs, f)
      | none => ((f.closureVar? name).map .closure, withs, f)

/-- The closure variable by which a nested function refers to a slot of this function. -/
def refer (f : Frame) (name : Atom) : Slot → ClosureVar
  | .var idx =>
    let v := (f.scopes.var? idx).getD default
    ⟨name, idx, true, false, v.isConst, v.isLexical, v.kind⟩
  | .arg idx => ⟨name, idx, true, true, false, false, .normal⟩
  | .closure idx =>
    let v := f.closureVars[idx]?.getD default
    ⟨name, idx, false, false, v.isConst, v.isLexical, v.kind⟩

/-- Notes that a nested function refers to a slot. -/
def markCaptured (f : Frame) : Slot → Frame
  | .var idx => { f with scopes := f.scopes.modifyVar idx ({ · with isCaptured := true }) }
  | _ => f

/-- The index of a closure variable, which is added unless there is one for the same slot. -/
def addClosureVar (f : Frame) (v : ClosureVar) : Nat × Frame :=
  let isSame (w : ClosureVar) : Bool :=
    w.isLocal == v.isLocal && w.isArg == v.isArg && w.varIdx == v.varIdx
  match f.closureVars.findIdx? isSame with
  | some k => (k, f)
  | none =>
    (f.closureVars.size,
      { f with closureVars := f.closureVars.push { v with varIdx := v.varIdx % 0x10000 } })

end Frame

/-- Captures a slot of the enclosing function. -/
def capture (name : Atom) (f : Frame) (slot : Slot) : List Frame → Slot × Frame × List Frame
  | [] => (slot, f, [])
  | parent :: outer =>
    let (k, f) := f.addClosureVar (parent.refer name slot)
    (.closure k, f, parent.markCaptured slot :: outer)

def captureAll (name : Atom) : List Slot → Frame → List Frame → List Slot × Frame × List Frame
  | [], f, outer => ([], f, outer)
  | slot :: rest, f, outer =>
    let (slot, f, outer) := capture name f slot outer
    let (slots, f, outer) := captureAll name rest f outer
    (slot :: slots, f, outer)

/-- Looks a name up in nested functions, innermost first. The result is the binding, unless the name
is global, and the objects of `with` statements that may hide it. -/
def lookup (name : Atom) : Nat → List Frame → Option Slot × List Slot × List Frame
  | _, [] => (none, [], [])
  | scope, f :: outer =>
    match f.find name scope with
    | (some slot, withs, f) => (some slot, withs, f :: outer)
    | (none, withs, f) =>
      let (found, outerWiths, outer) := lookup name f.parentScope outer
      let (captured, f, outer) := captureAll .withObject outerWiths f outer
      match found with
      | none => (none, withs ++ captured, f :: outer)
      | some slot =>
        let (slot, f, outer) := capture name f slot outer
        (some slot, withs ++ captured, f :: outer)
termination_by structural _ frames => frames

/-- Is there an object of a `with` statement around a scope, in the function or an enclosing one? -/
def underWith : Nat → List Frame → Bool
  | _, [] => false
  | scope, f :: outer => (f.scopes.lookup? .withObject scope).isSome || underWith f.parentScope outer

end ScriptBytecode
