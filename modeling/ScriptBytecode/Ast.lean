import ScriptBytecode.Binary64
import ScriptBytecode.Location

/-!
# Syntax trees

The syntax tree of a script or module. Every node knows the span of source text that it was read from.
-/

namespace ScriptBytecode

structure Ident where
  name : String
  span : Span
deriving DecidableEq, Inhabited

inductive Literal where
  | null
  | undefined
  | bool (b : Bool)
  | number (x : Binary64)
  /-- The digits of a big integer, decimal or with a base mark. -/
  | bigint (text : String)
  | string (s : String)
  | regex (pattern flags : String)
deriving DecidableEq, Inhabited

/-- A stretch of text in a template; one with an invalid escape has no cooked form. -/
structure TemplateElement where
  raw : String
  cooked : Option String
  tail : Bool
  span : Span
deriving DecidableEq, Inhabited

inductive UnaryOp where
  | minus | plus | not | bitNot | typeof | void | delete
deriving DecidableEq, Inhabited

inductive UpdateOp where
  | increment | decrement
deriving DecidableEq, Inhabited

inductive BinaryOp where
  | add | sub | mul | div | mod | exp | eq | ne | strictEq | strictNe | lt | le | gt | ge | shl | shr
  | ushr | bitAnd | bitOr | bitXor | inObject | instanceof
deriving DecidableEq, Inhabited

inductive LogicalOp where
  | and | or | nullish
deriving DecidableEq, Inhabited

inductive AssignOp where
  | assign | add | sub | mul | div | mod | exp | shl | shr | ushr | bitAnd | bitOr | bitXor | and | or
  | nullish
deriving DecidableEq, Inhabited

/-- The operation that a compound assignment applies. -/
def AssignOp.binary? : AssignOp → Option BinaryOp
  | add => some .add
  | sub => some .sub
  | mul => some .mul
  | div => some .div
  | mod => some .mod
  | exp => some .exp
  | shl => some .shl
  | shr => some .shr
  | ushr => some .ushr
  | bitAnd => some .bitAnd
  | bitOr => some .bitOr
  | bitXor => some .bitXor
  | assign | and | or | nullish => none

/-- The test that decides whether an assignment happens. -/
def AssignOp.logical? : AssignOp → Option LogicalOp
  | and => some .and
  | or => some .or
  | nullish => some .nullish
  | _ => none

inductive DeclKind where
  | var | let_ | const
deriving DecidableEq, Inhabited

def DeclKind.isLexical : DeclKind → Bool
  | var => false
  | _ => true

inductive MethodKind where
  | method | get | set | constructor
deriving DecidableEq, Inhabited

inductive PropertyKind where
  | init | get | set
deriving DecidableEq, Inhabited

inductive SourceType where
  | script | module
deriving DecidableEq, Inhabited

inductive ImportSpecifier where
  | named (imported : String) (binding : Ident)
  /-- The module's namespace object. -/
  | whole (binding : Ident)
  | byDefault (binding : Ident)
deriving DecidableEq, Inhabited

def ImportSpecifier.binding : ImportSpecifier → Ident
  | named _ b | whole b | byDefault b => b

structure ImportAttribute where
  key : String
  value : String
deriving DecidableEq, Inhabited

structure ImportDecl where
  specifiers : List ImportSpecifier
  source : String
  attributes : List ImportAttribute
  span : Span
deriving DecidableEq, Inhabited

structure ExportSpecifier where
  binding : String
  exported : String
  span : Span
deriving DecidableEq, Inhabited

mutual

inductive Expr where
  | ident (id : Ident)
  | literal (value : Literal) (span : Span)
  | template (t : Template)
  | tagged (tag : Expr) (t : Template) (span : Span)
  /-- An element that is missing is a hole. -/
  | array (elements : List (Option Expr)) (span : Span)
  | object (members : List ObjectMember) (span : Span)
  | function (f : FunctionNode)
  | arrow (f : FunctionNode)
  | classExpr (c : ClassNode)
  | thisValue (span : Span)
  | superValue (span : Span)
  | member (m : Member)
  | call (callee : Expr) (args : List Expr) (isOptional : Bool) (span : Span)
  /-- The extent of an optional chain. -/
  | chain (e : Expr) (span : Span)
  | new (callee : Expr) (args : List Expr) (span : Span)
  | unary (op : UnaryOp) (arg : Expr) (span : Span)
  | update (op : UpdateOp) (isPrefix : Bool) (arg : Expr) (span : Span)
  | binary (op : BinaryOp) (left right : Expr) (span : Span)
  | logical (op : LogicalOp) (left right : Expr) (span : Span)
  | assign (op : AssignOp) (target : Pattern) (value : Expr) (span : Span)
  | conditional (test yes no : Expr) (span : Span)
  | sequence (es : List Expr) (span : Span)
  | spread (arg : Expr) (span : Span)
  | yield (arg : Option Expr) (delegate : Bool) (span : Span)
  | await (arg : Expr) (span : Span)
  | metaProperty (object property : String) (span : Span)
  | dynamicImport (source : Expr) (options : Option Expr) (span : Span)
  | privateIn (name : String) (right : Expr) (span : Span)

structure Template where
  /-- One more than the expressions. -/
  quasis : List TemplateElement
  expressions : List Expr
  span : Span

structure Member where
  object : Expr
  key : MemberKey
  isOptional : Bool
  span : Span

inductive MemberKey where
  | name (s : String)
  | computed (e : Expr)
  | privateName (s : String)

/-- The key of a member of an object literal, class or pattern. -/
inductive PropertyKey where
  | ident (s : String)
  | string (s : String)
  | number (x : Binary64)
  | computed (e : Expr)
  | privateName (s : String)

inductive ObjectMember where
  | property (key : PropertyKey) (value : Expr) (kind : PropertyKind) (isMethod isShorthand : Bool)
      (span : Span)
  | spread (arg : Expr) (span : Span)

/-- A function, method, accessor or arrow function. -/
structure FunctionNode where
  id : Option Ident
  /-- The last may be a rest pattern. -/
  params : List Pattern
  body : FunctionBody
  isAsync : Bool
  isGenerator : Bool
  isArrow : Bool
  source : Option String
  span : Span

inductive FunctionBody where
  | block (body : List Stmt)
  | expr (e : Expr)

structure ClassNode where
  id : Option Ident
  heritage : Option Expr
  body : List ClassElement
  span : Span

inductive ClassElement where
  | method (key : PropertyKey) (value : FunctionNode) (kind : MethodKind) (isStatic : Bool)
      (span : Span)
  | field (key : PropertyKey) (value : Option Expr) (isStatic : Bool) (span : Span)
  | staticBlock (body : List Stmt) (span : Span)

/-- What a declaration binds or an assignment assigns to. -/
inductive Pattern where
  | ident (id : Ident)
  | array (elements : List (Option Pattern)) (span : Span)
  | object (members : List PatternMember) (span : Span)
  | withDefault (target : Pattern) (value : Expr) (span : Span)
  | rest (target : Pattern) (span : Span)
  /-- Only in assignments. -/
  | member (m : Member)

inductive PatternMember where
  | property (key : PropertyKey) (value : Pattern) (isShorthand : Bool) (span : Span)
  | rest (target : Pattern) (span : Span)

inductive Stmt where
  | block (b : Block)
  | empty (span : Span)
  | expr (e : Expr) (span : Span)
  | ifElse (test : Expr) (yes : Stmt) (no : Option Stmt) (span : Span)
  | whileLoop (test : Expr) (body : Stmt) (span : Span)
  | doWhile (body : Stmt) (test : Expr) (span : Span)
  | forLoop (init : Option ForInit) (test update : Option Expr) (body : Stmt) (span : Span)
  | forIn (left : ForHead) (right : Expr) (body : Stmt) (span : Span)
  | forOf (left : ForHead) (right : Expr) (body : Stmt) (isAwait : Bool) (span : Span)
  | switch (discriminant : Expr) (cases : List SwitchCase) (span : Span)
  | breakTo (label : Option Ident) (span : Span)
  | continueTo (label : Option Ident) (span : Span)
  | returnValue (value : Option Expr) (span : Span)
  | throwValue (value : Expr) (span : Span)
  | tryCatch (body : Block) (handler : Option CatchClause) (finalizer : Option Block) (span : Span)
  | labeled (label : Ident) (body : Stmt) (span : Span)
  | withObject (object : Expr) (body : Stmt) (span : Span)
  | debugger (span : Span)
  | varDecl (d : VarDecl)
  | functionDecl (f : FunctionNode)
  | classDecl (c : ClassNode)
  | importDecl (d : ImportDecl)
  | exportDecl (kind : ExportKind) (span : Span)

structure Block where
  body : List Stmt
  span : Span

structure VarDecl where
  kind : DeclKind
  declarators : List Declarator
  span : Span

structure Declarator where
  target : Pattern
  init : Option Expr
  span : Span

inductive ForInit where
  | decl (d : VarDecl)
  | expr (e : Expr)

/-- What a for-in or for-of loop binds or assigns. -/
inductive ForHead where
  | decl (d : VarDecl)
  | pattern (p : Pattern)

structure SwitchCase where
  /-- Missing in the default case. -/
  test : Option Expr
  body : List Stmt
  span : Span

structure CatchClause where
  param : Option Pattern
  body : Block
  span : Span

inductive ExportKind where
  | named (specifiers : List ExportSpecifier) (source : Option String)
  | byDefault (e : Expr)
  | defaultDecl (s : Stmt)
  | decl (s : Stmt)
  | all (source : String)
  | allAs (exported source : String)

end

structure Program where
  body : List Stmt
  sourceType : SourceType
  strict : Bool
  source : Option String
  span : Span

end ScriptBytecode
