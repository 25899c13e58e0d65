import ScriptBytecode.Ast
import ScriptBytecode.Json.Fields

/-!
# Reading syntax trees from JSON

The recursion is bounded by a number of steps: one for a node, and one more for what shares the
object of a node.
-/

namespace ScriptBytecode

open Json (Origin tagged? keyed? content? contentFrom? bare? case? list? nullable? object?
  string? bool? binary64? nat?)
open Json.Fields (Reader need getD get? flag)

def Location.ofFields : Reader Location := do
  let line ← need "line" (nat? 0x100000000)
  let column ← need "column" (nat? 0x100000000)
  let offset ← getD "offset" 0 (nat? 0x10000000000000000)
  return ⟨line, column, offset⟩

def Span.ofFields : Reader Span := do
  let start ← getD "start" .unknown (object? Location.ofFields)
  let stop ← getD "end" .unknown (object? Location.ofFields)
  return ⟨start, stop⟩

def Span.ofJson? : Json → Option Span :=
  object? Span.ofFields

def nodeSpan : Reader Span :=
  getD "span" .unknown Span.ofJson?

def Ident.ofFields : Reader Ident :=
  return ⟨← need "name" string?, ← nodeSpan⟩

def Ident.ofJson? : Json → Option Ident :=
  object? Ident.ofFields

def UnaryOp.names : List (String × UnaryOp) :=
  [("Minus", .minus), ("Plus", .plus), ("Not", .not), ("BitwiseNot", .bitNot), ("Typeof", .typeof),
    ("Void", .void), ("Delete", .delete)]

def UpdateOp.names : List (String × UpdateOp) :=
  [("Increment", .increment), ("Decrement", .decrement)]

def BinaryOp.names : List (String × BinaryOp) :=
  [("Add", .add), ("Sub", .sub), ("Mul", .mul), ("Div", .div), ("Mod", .mod), ("Exp", .exp),
    ("Eq", .eq), ("Ne", .ne), ("StrictEq", .strictEq), ("StrictNe", .strictNe), ("Lt", .lt),
    ("Le", .le), ("Gt", .gt), ("Ge", .ge), ("Shl", .shl), ("Shr", .shr), ("UShr", .ushr),
    ("BitwiseAnd", .bitAnd), ("BitwiseOr", .bitOr), ("BitwiseXor", .bitXor), ("In", .inObject),
    ("Instanceof", .instanceof)]

def LogicalOp.names : List (String × LogicalOp) :=
  [("And", .and), ("Or", .or), ("NullishCoalescing", .nullish)]

def AssignOp.names : List (String × AssignOp) :=
  [("Assign", .assign), ("AddAssign", .add), ("SubAssign", .sub), ("MulAssign", .mul),
    ("DivAssign", .div), ("ModAssign", .mod), ("ExpAssign", .exp), ("ShlAssign", .shl),
    ("ShrAssign", .shr), ("UShrAssign", .ushr), ("BitAndAssign", .bitAnd), ("BitOrAssign", .bitOr),
    ("BitXorAssign", .bitXor), ("AndAssign", .and), ("OrAssign", .or), ("NullishAssign", .nullish)]

def DeclKind.names : List (String × DeclKind) :=
  [("var", .var), ("let", .let_), ("const", .const)]

def MethodKind.names : List (String × MethodKind) :=
  [("method", .method), ("get", .get), ("set", .set), ("constructor", .constructor)]

def PropertyKind.names : List (String × PropertyKind) :=
  [("init", .init), ("get", .get), ("set", .set)]

def SourceType.names : List (String × SourceType) :=
  [("Script", .script), ("Module", .module)]

def Literal.ofJson? : Json → Option Literal :=
  keyed? .held [
    ("Null", bare? .null),
    ("Undefined", bare? .undefined),
    ("Boolean", content? .bool bool?),
    ("Number", content? .number binary64?),
    ("BigInt", content? .bigint string?),
    ("String", content? .string string?),
    ("Regex", content? id (object?
      (return .regex (← need "pattern" string?) (← need "flags" string?))))]

def TemplateElement.ofFields : Reader TemplateElement :=
  return {
    raw := ← need "raw" string?
    cooked := ← get? "cooked" string?
    tail := ← flag "tail"
    span := ← nodeSpan }

def ImportSpecifier.ofJson? (o : Origin) : Json → Option ImportSpecifier :=
  tagged? o [
    ("Named", return .named (← need "imported" string?) (← need "local" Ident.ofJson?)),
    ("Namespace", return .whole (← need "local" Ident.ofJson?)),
    ("Default", return .byDefault (← need "local" Ident.ofJson?))]

def ImportAttribute.ofFields : Reader ImportAttribute :=
  return ⟨← need "key" string?, ← need "value" string?⟩

def ImportDecl.ofFields : Reader ImportDecl :=
  return {
    specifiers := ← getD "specifiers" [] (list? (ImportSpecifier.ofJson? .held))
    source := ← need "source" string?
    attributes := ← getD "attributes" [] (list? (object? ImportAttribute.ofFields))
    span := ← nodeSpan }

def ExportSpecifier.ofFields : Reader ExportSpecifier :=
  return {
    binding := ← need "local" string?
    exported := ← need "exported" string?
    span := ← nodeSpan }

mutual

def Expr.ofJson (o : Origin) : Nat → Json → Option Expr
  | 0, _ => none
  | n + 1, v =>
    let expr := Expr.ofJson .held n
    v |> tagged? o [
      ("Identifier", return .ident (← Ident.ofFields)),
      ("Literal", return .literal (← need "value" Literal.ofJson?) (← nodeSpan)),
      ("TemplateLiteral", return .template (← Template.ofFields n)),
      ("TaggedTemplate",
        return .tagged (← need "tag" expr) (← need "quasi" (object? (Template.ofFields n)))
          (← nodeSpan)),
      ("Array", return .array (← need "elements" (list? (nullable? expr))) (← nodeSpan)),
      ("Object", return .object (← need "properties" (list? (ObjectMember.ofJson n))) (← nodeSpan)),
      ("Function", return .function (← FunctionNode.ofFields .held n)),
      ("Arrow", return .arrow (← FunctionNode.ofFields .held n)),
      ("Class", return .classExpr (← ClassNode.ofFields n)),
      ("This", return .thisValue (← Span.ofFields)),
      ("Super", return .superValue (← Span.ofFields)),
      ("Member", return .member (← Member.ofFields n)),
      ("Call",
        return .call (← need "callee" expr) (← getD "arguments" [] (list? expr)) (← flag "optional")
          (← nodeSpan)),
      ("Chain", return .chain (← need "expression" expr) (← nodeSpan)),
      ("New", return .new (← need "callee" expr) (← getD "arguments" [] (list? expr)) (← nodeSpan)),
      ("Unary",
        return .unary (← need "operator" (case? .held UnaryOp.names)) (← need "argument" expr)
          (← nodeSpan)),
      ("Update",
        return .update (← need "operator" (case? .held UpdateOp.names)) (← need "prefix" bool?)
          (← need "argument" expr) (← nodeSpan)),
      ("Binary",
        return .binary (← need "operator" (case? .held BinaryOp.names)) (← need "left" expr)
          (← need "right" expr) (← nodeSpan)),
      ("Logical",
        return .logical (← need "operator" (case? .held LogicalOp.names)) (← need "left" expr)
          (← need "right" expr) (← nodeSpan)),
      ("Assignment",
        return .assign (← need "operator" (case? .held AssignOp.names))
          (← need "left" (Pattern.ofJson .held n)) (← need "right" expr) (← nodeSpan)),
      ("Conditional",
        return .conditional (← need "test" expr) (← need "consequent" expr)
          (← need "alternate" expr) (← nodeSpan)),
      ("Sequence", return .sequence (← need "expressions" (list? expr)) (← nodeSpan)),
      ("Spread", return .spread (← need "argument" expr) (← nodeSpan)),
      ("Yield", return .yield (← get? "argument" expr) (← flag "delegate") (← nodeSpan)),
      ("Await", return .await (← need "argument" expr) (← nodeSpan)),
      ("MetaProperty",
        return .metaProperty (← need "meta" string?) (← need "property" string?) (← nodeSpan)),
      ("Import", return .dynamicImport (← need "source" expr) (← get? "options" expr) (← nodeSpan)),
      ("PrivateIn", return .privateIn (← need "name" string?) (← need "right" expr) (← nodeSpan))]

def Template.ofFields : Nat → Reader Template
  | 0 => failure
  | n + 1 =>
    return {
      quasis := ← need "quasis" (list? (object? TemplateElement.ofFields))
      expressions := ← getD "expressions" [] (list? (Expr.ofJson .held n))
      span := ← nodeSpan }

def Member.ofFields : Nat → Reader Member
  | 0 => failure
  | n + 1 =>
    return {
      object := ← need "object" (Expr.ofJson .held n)
      key := ← need "property" (keyed? .held [
        ("Identifier", content? .name string?),
        ("Computed", content? .computed (Expr.ofJson .held n)),
        ("PrivateName", content? .privateName string?)])
      isOptional := ← flag "optional"
      span := ← nodeSpan }

def PropertyKey.ofJson (o : Origin) : Nat → Json → Option PropertyKey
  | 0, _ => none
  | n + 1, v =>
    v |> keyed? o [
      ("Identifier", content? .ident string?),
      ("String", content? .string string?),
      ("Number", content? .number binary64?),
      ("Computed", contentFrom? fun o v => return .computed (← Expr.ofJson o n v)),
      ("PrivateName", content? .privateName string?)]

def ObjectMember.ofJson : Nat → Json → Option ObjectMember
  | 0, _ => none
  | n + 1, v =>
    v |> tagged? .held [
      ("Property",
        return .property (← need "key" (PropertyKey.ofJson .held n))
          (← need "value" (Expr.ofJson .held n))
          (← getD "kind" .init (case? .held PropertyKind.names)) (← flag "method")
          (← flag "shorthand") (← nodeSpan)),
      ("Spread", return .spread (← need "argument" (Expr.ofJson .held n)) (← nodeSpan))]

def FunctionNode.ofFields (o : Origin) : Nat → Reader FunctionNode
  | 0 => failure
  | n + 1 =>
    return {
      id := ← get? "id" Ident.ofJson?
      params := ← getD "params" [] (list? (Pattern.ofJson o n))
      body := ← need "body" (keyed? o [
        ("Block", contentFrom? fun o v => return .block (← list? (Stmt.ofJson o n) v)),
        ("Expression", contentFrom? fun o v => return .expr (← Expr.ofJson o n v))])
      isAsync := ← flag "is_async"
      isGenerator := ← flag "is_generator"
      isArrow := ← flag "is_arrow"
      source := ← get? "source" string?
      span := ← nodeSpan }

def ClassNode.ofFields : Nat → Reader ClassNode
  | 0 => failure
  | n + 1 =>
    return {
      id := ← get? "id" Ident.ofJson?
      heritage := ← get? "super_class" (Expr.ofJson .held n)
      body := ← need "body" (list? (ClassElement.ofJson n))
      span := ← nodeSpan }

def ClassElement.ofJson : Nat → Json → Option ClassElement
  | 0, _ => none
  | n + 1, v =>
    v |> tagged? .held [
      ("Method",
        return .method (← need "key" (PropertyKey.ofJson .held n))
          (← need "value" (object? (FunctionNode.ofFields .held n)))
          (← need "kind" (case? .held MethodKind.names)) (← flag "is_static") (← nodeSpan)),
      ("Property",
        return .field (← need "key" (PropertyKey.ofJson .held n))
          (← get? "value" (Expr.ofJson .held n)) (← flag "is_static") (← nodeSpan)),
      ("StaticBlock",
        return .staticBlock (← need "body" (list? (Stmt.ofJson .held n))) (← nodeSpan))]

def Pattern.ofJson (o : Origin) : Nat → Json → Option Pattern
  | 0, _ => none
  | n + 1, v =>
    let pattern := Pattern.ofJson .held n
    v |> tagged? o [
      ("Identifier", return .ident (← Ident.ofFields)),
      ("Array", return .array (← need "elements" (list? (nullable? pattern))) (← nodeSpan)),
      ("Object",
        return .object (← need "properties" (list? (PatternMember.ofJson n))) (← nodeSpan)),
      ("Assignment",
        return .withDefault (← need "left" pattern) (← need "right" (Expr.ofJson .held n))
          (← nodeSpan)),
      ("Rest", return .rest (← need "argument" pattern) (← nodeSpan)),
      ("Member", return .member (← Member.ofFields n))]

def PatternMember.ofJson : Nat → Json → Option PatternMember
  | 0, _ => none
  | n + 1, v =>
    v |> tagged? .held [
      ("Property",
        return .property (← need "key" (PropertyKey.ofJson .held n))
          (← need "value" (Pattern.ofJson .held n)) (← flag "shorthand") (← nodeSpan)),
      ("Rest", return .rest (← need "argument" (Pattern.ofJson .held n)) (← nodeSpan))]

def Stmt.ofJson (o : Origin) : Nat → Json → Option Stmt
  | 0, _ => none
  | n + 1, v =>
    let expr := Expr.ofJson .held n
    let stmt := Stmt.ofJson .held n
    let block := object? (Block.ofFields n)
    v |> tagged? o [
      ("Block", return .block (← Block.ofFields n)),
      ("Empty", return .empty (← Span.ofFields)),
      ("Expression", return .expr (← need "expression" expr) (← nodeSpan)),
      ("If",
        return .ifElse (← need "test" expr) (← need "consequent" stmt) (← get? "alternate" stmt)
          (← nodeSpan)),
      ("While", return .whileLoop (← need "test" expr) (← need "body" stmt) (← nodeSpan)),
      ("DoWhile", return .doWhile (← need "body" stmt) (← need "test" expr) (← nodeSpan)),
      ("For",
        return .forLoop
          (← get? "init" (keyed? .held [
            ("Declaration", content? .decl (object? (VarDecl.ofFields n))),
            ("Expression", content? .expr (Expr.ofJson .held n))]))
          (← get? "test" expr) (← get? "update" expr) (← need "body" stmt)
          (← nodeSpan)),
      ("ForIn",
        return .forIn (← need "left" (ForHead.ofJson n)) (← need "right" expr) (← need "body" stmt)
          (← nodeSpan)),
      ("ForOf",
        return .forOf (← need "left" (ForHead.ofJson n)) (← need "right" expr) (← need "body" stmt)
          (← flag "is_await") (← nodeSpan)),
      ("Switch",
        return .switch (← need "discriminant" expr)
          (← need "cases" (list? (object? (SwitchCase.ofFields n)))) (← nodeSpan)),
      ("Break", return .breakTo (← get? "label" Ident.ofJson?) (← nodeSpan)),
      ("Continue", return .continueTo (← get? "label" Ident.ofJson?) (← nodeSpan)),
      ("Return", return .returnValue (← get? "argument" expr) (← nodeSpan)),
      ("Throw", return .throwValue (← need "argument" expr) (← nodeSpan)),
      ("Try",
        return .tryCatch (← need "block" block)
          (← get? "handler" (object? (CatchClause.ofFields n))) (← get? "finalizer" block)
          (← nodeSpan)),
      ("Labeled", return .labeled (← need "label" Ident.ofJson?) (← need "body" stmt) (← nodeSpan)),
      ("With", return .withObject (← need "object" expr) (← need "body" stmt) (← nodeSpan)),
      ("Debugger", return .debugger (← Span.ofFields)),
      ("VariableDeclaration", return .varDecl (← VarDecl.ofFields n)),
      ("FunctionDeclaration", return .functionDecl (← FunctionNode.ofFields .held n)),
      ("ClassDeclaration", return .classDecl (← ClassNode.ofFields n)),
      ("Import", return .importDecl (← ImportDecl.ofFields)),
      ("Export", return .exportDecl (← need "kind" (ExportKind.ofJson n)) (← nodeSpan))]

def Block.ofFields : Nat → Reader Block
  | 0 => failure
  | n + 1 =>
    return ⟨← need "body" (list? (Stmt.ofJson .held n)), ← nodeSpan⟩

def VarDecl.ofFields : Nat → Reader VarDecl
  | 0 => failure
  | n + 1 =>
    return {
      kind := ← need "kind" (case? .held DeclKind.names)
      declarators := ← need "declarations" (list? (object? (Declarator.ofFields n)))
      span := ← nodeSpan }

def Declarator.ofFields : Nat → Reader Declarator
  | 0 => failure
  | n + 1 =>
    return {
      target := ← need "id" (Pattern.ofJson .held n)
      init := ← get? "init" (Expr.ofJson .held n)
      span := ← nodeSpan }

def ForHead.ofJson : Nat → Json → Option ForHead
  | 0, _ => none
  | n + 1, v =>
    v |> keyed? .held [
      ("Declaration", content? .decl (object? (VarDecl.ofFields n))),
      ("Pattern", content? .pattern (Pattern.ofJson .held n))]

def SwitchCase.ofFields : Nat → Reader SwitchCase
  | 0 => failure
  | n + 1 =>
    return {
      test := ← get? "test" (Expr.ofJson .held n)
      body := ← need "consequent" (list? (Stmt.ofJson .held n))
      span := ← nodeSpan }

def CatchClause.ofFields : Nat → Reader CatchClause
  | 0 => failure
  | n + 1 =>
    return {
      param := ← get? "param" (Pattern.ofJson .held n)
      body := ← need "body" (object? (Block.ofFields n))
      span := ← nodeSpan }

def ExportKind.ofJson : Nat → Json → Option ExportKind
  | 0, _ => none
  | n + 1, v =>
    v |> keyed? .held [
      ("Named", content? id (object?
        (return .named (← need "specifiers" (list? (object? ExportSpecifier.ofFields)))
          (← get? "source" string?)))),
      ("Default", content? .byDefault (Expr.ofJson .held n)),
      ("DefaultDeclaration", content? .defaultDecl (Stmt.ofJson .held n)),
      ("Declaration", content? .decl (Stmt.ofJson .held n)),
      ("All", content? .all (object? (need "source" string?))),
      ("AllAs", content? id (object?
        (return .allAs (← need "exported" string?) (← need "source" string?))))]

end

/-- Steps enough for all nodes of a value, two of which may share an object. -/
def Json.steps (v : Json) : Nat :=
  2 * v.depth + 2

/-- Reads a value that is not too deep. -/
def Json.bounded? {α : Type} (read : Nat → Json → Option α) (v : Json) : Option α :=
  if v.depth ≤ Json.maxDepth then read v.steps v else none

def Expr.ofJson? : Json → Option Expr :=
  Json.bounded? (Expr.ofJson .text)

def Stmt.ofJson? : Json → Option Stmt :=
  Json.bounded? (Stmt.ofJson .text)

def Pattern.ofJson? : Json → Option Pattern :=
  Json.bounded? (Pattern.ofJson .text)

def PropertyKey.ofJson? : Json → Option PropertyKey :=
  Json.bounded? (PropertyKey.ofJson .text)

def FunctionNode.ofJson? : Json → Option FunctionNode :=
  Json.bounded? fun steps => object? (FunctionNode.ofFields .text steps)

def AssignOp.ofJson? : Json → Option AssignOp :=
  case? .text AssignOp.names

def Program.ofFields (steps : Nat) : Reader Program :=
  return {
    body := ← need "body" (list? (Stmt.ofJson .text steps))
    sourceType := ← getD "source_type" .script (case? .text SourceType.names)
    strict := ← flag "strict"
    source := ← get? "source" string?
    span := ← nodeSpan }

def Program.ofJson? : Json → Option Program :=
  Json.bounded? fun steps => object? (Program.ofFields steps)

end ScriptBytecode
