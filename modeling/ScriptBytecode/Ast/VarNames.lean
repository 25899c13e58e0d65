import ScriptBytecode.Ast.Facts

/-!
# Names declared by `var`

A `var` declaration belongs to the whole function around it, however deep in statements it stands.
-/

namespace ScriptBytecode

/-- All identifiers that a declaration binds. -/
def VarDecl.bound (d : VarDecl) : List Ident :=
  d.declarators.flatMap (·.target.bound)

def VarDecl.varNames (d : VarDecl) : List Ident :=
  if d.kind = .var then d.bound else []

mutual

/-- The identifiers that `var` declarations in a statement bind, in order. -/
def Stmt.varNames : Stmt → List Ident
  | .varDecl d => d.varNames
  | .block b => b.varNames
  | .ifElse _ yes no _ => yes.varNames ++ optStmtVarNames no
  | .whileLoop _ body _ => body.varNames
  | .doWhile body _ _ => body.varNames
  | .forLoop (some (.decl d)) _ _ body _ => d.varNames ++ body.varNames
  | .forLoop _ _ _ body _ => body.varNames
  | .forIn (.decl d) _ body _ => d.varNames ++ body.varNames
  | .forIn _ _ body _ => body.varNames
  | .forOf (.decl d) _ body _ _ => d.varNames ++ body.varNames
  | .forOf _ _ body _ _ => body.varNames
  | .switch _ cases _ => switchCasesVarNames cases
  | .tryCatch body handler finalizer _ =>
    body.varNames ++ optCatchVarNames handler ++ optBlockVarNames finalizer
  | .labeled _ body _ => body.varNames
  | .withObject _ body _ => body.varNames
  | .exportDecl (.decl s) _ => s.varNames
  | _ => []

def optStmtVarNames : Option Stmt → List Ident
  | none => []
  | some s => s.varNames

def stmtsVarNames : List Stmt → List Ident
  | [] => []
  | s :: rest => s.varNames ++ stmtsVarNames rest

def Block.varNames : Block → List Ident
  | ⟨body, _⟩ => stmtsVarNames body

def optBlockVarNames : Option Block → List Ident
  | none => []
  | some b => b.varNames

def SwitchCase.varNames : SwitchCase → List Ident
  | ⟨_, body, _⟩ => stmtsVarNames body

def switchCasesVarNames : List SwitchCase → List Ident
  | [] => []
  | c :: rest => c.varNames ++ switchCasesVarNames rest

def CatchClause.varNames : CatchClause → List Ident
  | ⟨_, body, _⟩ => body.varNames

def optCatchVarNames : Option CatchClause → List Ident
  | none => []
  | some c => c.varNames

end

end ScriptBytecode
