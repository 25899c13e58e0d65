import ScriptBytecode.Ast.Facts
import ScriptBytecode.Emission.Draft

/-!
# Emitting the parts of a node

The code of a node is described in terms of emitters for its parts.
-/

namespace ScriptBytecode

/-- How the names of a pattern are bound. -/
inductive BindKind where
  /-- By assignment, to any target. -/
  | assign
  /-- By a `var` declaration or as a parameter. -/
  | var
  /-- By a `let`, `const` or `catch`, which initializes them. -/
  | lexical
deriving DecidableEq, Inhabited

def DeclKind.bindKind (k : DeclKind) : BindKind :=
  if k.isLexical then .lexical else .var

structure Parts where
  /-- Leaves the value of an expression on the stack. The name is for a function or class without
  one. -/
  expr : Option Atom → Expr → Emit Unit
  /-- An expression that stays in the optional chain at hand. -/
  spine : Expr → Emit Unit
  /-- A statement under some labels. -/
  stmt : List Atom → Stmt → Emit Unit
  /-- Binds the value on top of the stack to a pattern. -/
  bind : BindKind → Pattern → Emit Unit
  /-- Emits a nested function and returns which child it is. -/
  function : Atom → Role → FunctionNode → Emit Nat
  /-- Leaves a class on the stack. -/
  classDef : Atom → ClassNode → Emit Unit

namespace Parts

/-- The value of an expression whose name does not matter. -/
def value (r : Parts) (e : Expr) : Emit Unit :=
  r.expr none e

def stmts (r : Parts) (body : List Stmt) : Emit Unit :=
  body.forM (r.stmt [])

end Parts

namespace Emit

/-- A private name is a variable that starts with a hash mark. -/
def privateAtom (name : String) : Emit Atom :=
  intern (if name.startsWith "#" then name else "#" ++ name)

/-- The atom of a key that is not computed. -/
def keyAtom (key : PropertyKey) : Emit Atom :=
  match key with
  | .privateName name => privateAtom name
  | _ => intern (key.staticName?.getD "")

/-- Leaves `this` on the stack. -/
def pushThis : Emit Unit := do
  let f ← frame
  if f.isArrow || f.role.isDerived then access .getThis .this else op .pushThis

/-- Replaces `undefined` on top of the stack by a default value. -/
def orDefault (r : Parts) (value : Expr) (name : Option Atom) : Emit Unit := do
  let present ← newLabel
  ops [.dup, .undefined, .strictEq]
  jump .ifFalse present
  op .drop
  r.expr name value
  mark present

end Emit

end ScriptBytecode
