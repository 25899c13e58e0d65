import ScriptBytecode.Ast
import ScriptBytecode.Binary64.Shortest

/-!
# Facts about syntax trees
-/

namespace ScriptBytecode

def Expr.span : Expr → Span
  | .ident id => id.span
  | .template t => t.span
  | .function f | .arrow f => f.span
  | .classExpr c => c.span
  | .member m => m.span
  | .literal _ s | .tagged _ _ s | .array _ s | .object _ s | .thisValue s | .superValue s
  | .call _ _ _ s | .chain _ s | .new _ _ s | .unary _ _ s | .update _ _ _ s | .binary _ _ _ s
  | .logical _ _ _ s | .assign _ _ _ s | .conditional _ _ _ s | .sequence _ s | .spread _ s
  | .yield _ _ s | .await _ s | .metaProperty _ _ s | .dynamicImport _ _ s | .privateIn _ _ s => s

/-- A function or class without a name takes the name of what it is assigned to. -/
def Expr.isAnonymousFunction : Expr → Bool
  | .function f => f.id.isNone
  | .arrow _ => true
  | .classExpr c => c.id.isNone
  | _ => false

def Pattern.span : Pattern → Span
  | .ident id => id.span
  | .member m => m.span
  | .array _ s | .object _ s | .withDefault _ _ s | .rest _ s => s

def Stmt.span : Stmt → Span
  | .block b => b.span
  | .varDecl d => d.span
  | .functionDecl f => f.span
  | .classDecl c => c.span
  | .importDecl d => d.span
  | .empty s | .expr _ s | .ifElse _ _ _ s | .whileLoop _ _ s | .doWhile _ _ s
  | .forLoop _ _ _ _ s | .forIn _ _ _ s | .forOf _ _ _ _ s | .switch _ _ s | .breakTo _ s
  | .continueTo _ s | .returnValue _ s | .throwValue _ s | .tryCatch _ _ _ s | .labeled _ _ s
  | .withObject _ _ s | .debugger s | .exportDecl _ s => s

mutual

/-- The identifiers that a pattern binds, in order. -/
def Pattern.bound : Pattern → List Ident
  | .ident id => [id]
  | .array elements _ => elementsBound elements
  | .object members _ => patternMembersBound members
  | .withDefault target _ _ => target.bound
  | .rest target _ => target.bound
  | .member _ => []

def elementBound : Option Pattern → List Ident
  | none => []
  | some p => p.bound

def elementsBound : List (Option Pattern) → List Ident
  | [] => []
  | p :: rest => elementBound p ++ elementsBound rest

def PatternMember.bound : PatternMember → List Ident
  | .property _ value _ _ => value.bound
  | .rest target _ => target.bound

def patternMembersBound : List PatternMember → List Ident
  | [] => []
  | m :: rest => m.bound ++ patternMembersBound rest

end

def Pattern.isIdent : Pattern → Bool
  | .ident _ => true
  | _ => false

/-- Are all parameters plain names? -/
def FunctionNode.hasSimpleParams (f : FunctionNode) : Bool :=
  f.params.all (·.isIdent)

/-- The number of parameters before the first that has a default or takes the rest. -/
def FunctionNode.definedArgs (f : FunctionNode) : Nat :=
  (f.params.takeWhile fun
    | .withDefault _ _ _ | .rest _ _ => false
    | _ => true).length

/-- The name that a key stands for, unless it is computed or private. -/
def PropertyKey.staticName? : PropertyKey → Option String
  | .ident s | .string s => some s
  | .number x => some x.keyText
  | .computed _ | .privateName _ => none

/-- Is there a strict mode directive among the strings that a body starts with? -/
def hasUseStrict : List Stmt → Bool
  | .expr (.literal (.string s) _) _ :: rest => s == "use strict" || hasUseStrict rest
  | _ => false

end ScriptBytecode
