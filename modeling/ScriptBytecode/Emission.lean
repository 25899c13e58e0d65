import ScriptBytecode.Emission.Class
import ScriptBytecode.Emission.Expression
import ScriptBytecode.Emission.Statement

/-!
# Emitting programs

Ties the emitters together. Every step into a part of a node uses up one unit of depth, so that the
depth of a tree bounds the recursion.
-/

namespace ScriptBytecode

namespace Parts

/-- Emitters for nodes that are not deeper than `depth`. -/
def ofDepth : Nat → Parts
  | 0 => {
      expr := fun _ _ => Emit.fault .treeTooDeep
      spine := fun _ => Emit.fault .treeTooDeep
      stmt := fun _ _ => Emit.fault .treeTooDeep
      bind := fun _ _ => Emit.fault .treeTooDeep
      function := fun _ _ _ => Emit.fault .treeTooDeep
      classDef := fun _ _ => Emit.fault .treeTooDeep }
  | depth + 1 => {
      expr := Emit.expr (ofDepth depth)
      spine := Emit.spine (ofDepth depth) none
      stmt := Emit.stmt (ofDepth depth)
      bind := Emit.bind (ofDepth depth)
      function := Emit.function (ofDepth depth)
      classDef := Emit.classDef (ofDepth depth) }

end Parts

/-- How deep the constructor of a class that has none may be. -/
def defaultConstructorDepth : Nat := 8

namespace Emit

/-! ## Imports -/

/-- The attributes of an import as an object. -/
def attributesValue (attributes : List ImportAttribute) : Emit Value := do
  if attributes.isEmpty then return .undefined
  let props ← attributes.mapM fun a => return ⟨← intern a.key, .string a.value⟩
  return .object (← freshId) props

/-- Declares an import as a closure variable of the module. -/
def declareImport (reqModule : Nat) (s : ImportSpecifier) : Emit Unit := do
  let binding ← intern s.binding.name
  let (name, isStar) ← match s with
    | .named imported _ => pure (← intern imported, false)
    | .byDefault _ => pure (.defaultName, false)
    | .whole _ => pure (.star, true)
  let f ← frame
  if (f.closureVar? binding).isSome then
    misuse (.duplicateImport s.binding.name) s.binding.span
  let idx := ((← get).tables.elim 0 (·.imports.size)) % 0x10000
  modifyFrame fun f =>
    { f with closureVars := f.closureVars.push ⟨binding, idx, false, false, true, true, .normal⟩ }
  modifyTables fun t =>
    { t with imports := t.imports.push ⟨f.closureVars.size, isStar, name, reqModule⟩ }

def require (source : Atom) (attributes : Value) : Emit Nat :=
  modifyGet fun s =>
    match s.tables with
    | some t =>
      let (idx, t) := t.require source attributes
      (idx, { s with tables := some t })
    | none => (0, s)

def declareImports (d : ImportDecl) : Emit Unit := do
  let source ← intern d.source
  let attributes ← attributesValue d.attributes
  let reqModule ← require source attributes
  d.specifiers.forM (declareImport reqModule)

/-- The top-level variables of a module are closure variables too. -/
def addModuleVars : Emit Unit :=
  modifyFrame fun f =>
    let vars := f.globals.mapIdx fun i g =>
      (⟨g.name, i % 0x10000, true, false, g.isConst, g.isLexical, .normal⟩ : ClosureVar)
    { f with closureVars := f.closureVars ++ vars }

/-! ## Programs -/

def script (r : Parts) (stmts : List Stmt) : Emit Unit := do
  modifyScopes (·.addVar .completion)
  modifyDraft ({ · with completion := some 0 })
  body r stmts (pure ())
  opCount .getLoc 0
  op .returnValue

def moduleBody (r : Parts) (stmts : List Stmt) : Emit Unit := do
  modify ({ · with tables := some .empty })
  stmts.forM fun
    | .importDecl d => declareImports d
    | _ => pure ()
  body r stmts (pure ())
  op .returnUndef
  addModuleVars

end Emit

end ScriptBytecode
