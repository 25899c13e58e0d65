import ScriptBytecode.Variable

/-!
# Scope trees

The scopes and variables of one function. A scope knows the newest variable that can be seen from it,
and every variable the next older one, so that the chain of a scope lists inner declarations before
outer ones. Function-level variables and arguments are on no chain.
-/

namespace ScriptBytecode

structure Scope where
  parent : Option Nat
  /-- The first variable of the chain. -/
  first : Option Nat
deriving DecidableEq, Inhabited

structure ScopeTree where
  vars : Array Variable
  args : Array Variable
  scopes : Array Scope
  current : Nat
  /-- For each variable the constant index of the function that it starts with. -/
  inits : Array (Option Nat)
deriving Inhabited

namespace ScopeTree

/-- One scope, the function's own. -/
def initial : ScopeTree where
  vars := #[]
  args := #[]
  scopes := #[⟨none, none⟩]
  current := 0
  inits := #[]

def first? (t : ScopeTree) (scope : Nat) : Option Nat :=
  (t.scopes[scope]?).bind (·.first)

def parent? (t : ScopeTree) (scope : Nat) : Option Nat :=
  (t.scopes[scope]?).bind (·.parent)

/-- Opens a scope in the current one. -/
def push (t : ScopeTree) : ScopeTree :=
  let scope : Scope := ⟨some t.current, t.first? t.current⟩
  { t with current := t.scopes.size, scopes := t.scopes.push scope }

/-- Closes the current scope; the function's own stays open. -/
def pop (t : ScopeTree) : ScopeTree :=
  match t.parent? t.current with
  | some parent => { t with current := parent }
  | none => t

/-- Declares a function-level variable; its index is the number of variables before it. -/
def addVar (t : ScopeTree) (name : Atom) : ScopeTree :=
  { t with vars := t.vars.push (.plain name), inits := t.inits.push none }

/-- Declares a variable in the current scope. -/
def addScopeVar (t : ScopeTree) (name : Atom) (kind : VarKind) (isLexical isConst : Bool) :
    ScopeTree :=
  let idx := t.vars.size
  let v : Variable := ⟨name, t.current, t.first? t.current, kind, isConst, isLexical, false⟩
  { t with
    vars := t.vars.push v
    inits := t.inits.push none
    scopes := t.scopes.modify t.current ({ · with first := some idx }) }

def addArg (t : ScopeTree) (name : Atom) : ScopeTree :=
  { t with args := t.args.push (.plain name) }

def var? (t : ScopeTree) (idx : Nat) : Option Variable :=
  t.vars[idx]?

/-- The first variable from `next` on that satisfies `p`, while `go` holds. A chain visits every variable
once at most, so their number bounds the walk. -/
def walk (t : ScopeTree) (go p : Variable → Bool) : Nat → Option Nat → Option Nat
  | 0, _ => none
  | _ + 1, none => none
  | fuel + 1, some idx =>
    match t.vars[idx]? with
    | none => none
    | some v =>
      if !go v then none else if p v then some idx else walk t go p fuel v.scopeNext

/-- The indices from `next` on while `go` holds, behind those of `done`. -/
def collect (t : ScopeTree) (go : Variable → Bool) :
    Nat → Option Nat → Array Nat → Array Nat
  | 0, _, done => done
  | _ + 1, none, done => done
  | fuel + 1, some idx, done =>
    match t.vars[idx]? with
    | none => done
    | some v => if go v then collect t go fuel v.scopeNext (done.push idx) else done

/-- The variables that can be seen from a scope, inner ones first. -/
def chain (t : ScopeTree) (scope : Nat) : List Nat :=
  (t.collect (fun _ => true) t.vars.size (t.first? scope) #[]).toList

/-- The variables declared in a scope itself, newest first. -/
def scopeVars (t : ScopeTree) (scope : Nat) : List Nat :=
  (t.collect (·.scopeLevel == scope) t.vars.size (t.first? scope) #[]).toList

/-- The newest variable of that name declared in the scope itself. -/
def findInScope? (t : ScopeTree) (name : Atom) (scope : Nat) : Option Nat :=
  t.walk (·.scopeLevel == scope) (·.name == name) t.vars.size (t.first? scope)

/-- The innermost variable of that name that can be seen from the scope. -/
def lookup? (t : ScopeTree) (name : Atom) (scope : Nat) : Option Nat :=
  t.walk (fun _ => true) (·.name == name) t.vars.size (t.first? scope)

/-- The last variable of an array that satisfies `p`. -/
def findLast? (p : Variable → Bool) (vars : Array Variable) : Option Nat :=
  (vars.foldl (fun (found, i) v => (if p v then some i else found, i + 1)) (none, 0)).1

/-- The newest variable of that name at function level. -/
def findVar? (t : ScopeTree) (name : Atom) : Option Nat :=
  findLast? (fun v => v.name == name && v.scopeLevel == 0) t.vars

def findArg? (t : ScopeTree) (name : Atom) : Option Nat :=
  findLast? (·.name == name) t.args

/-- Is `scope` equal to `parent` or inside it? Parents have smaller numbers, which bounds the walk. -/
def isInside (t : ScopeTree) (parent : Nat) : Nat → Nat → Bool
  | 0, scope => scope == parent
  | fuel + 1, scope =>
    scope == parent || (t.parent? scope).any (isInside t parent fuel)

def isChild (t : ScopeTree) (scope parent : Nat) : Bool :=
  t.isInside parent t.scopes.size scope

def modifyVar (t : ScopeTree) (idx : Nat) (f : Variable → Variable) : ScopeTree :=
  { t with vars := t.vars.modify idx f }

def setInit (t : ScopeTree) (idx constant : Nat) : ScopeTree :=
  { t with inits := t.inits.setIfInBounds idx (some constant) }

def init? (t : ScopeTree) (idx : Nat) : Option Nat :=
  (t.inits[idx]?).join

end ScopeTree

end ScriptBytecode
