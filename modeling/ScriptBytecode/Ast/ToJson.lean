import ScriptBytecode.Ast.FromJson

/-!
# Writing syntax trees as JSON

Every field is written, also one whose value is what a missing field stands for.
-/

namespace ScriptBytecode

namespace Json

def ofOption {α : Type} (write : α → Json) : Option α → Json
  | some a => write a
  | none => .null

def ofList {α : Type} (write : α → Json) (items : List α) : Json :=
  .array (items.map write)

/-- The name of a case. -/
def ofCase {α : Type} [DecidableEq α] (cases : List (String × α)) (a : α) : Json :=
  ofOption (.string ·.1) (cases.find? (·.2 = a))

def tagged (type : String) (fs : List (String × Json)) : Json :=
  .object (("type", .string type) :: fs)

def keyed (kind : String) (content : Json) : Json :=
  .object [("kind", .string kind), ("value", content)]

end Json

def Location.toJson (l : Location) : Json :=
  .object [("line", .int l.line), ("column", .int l.column), ("offset", .int l.offset)]

def Span.fields (s : Span) : List (String × Json) :=
  [("start", s.start.toJson), ("end", s.stop.toJson)]

def Span.toJson (s : Span) : Json :=
  .object s.fields

def node (type : String) (span : Span) (fs : List (String × Json)) : Json :=
  .tagged type (fs ++ [("span", span.toJson)])

def Ident.fields (id : Ident) : List (String × Json) :=
  [("name", .string id.name), ("span", id.span.toJson)]

def Ident.toJson (id : Ident) : Json :=
  .object id.fields

def Literal.toJson : Literal → Json
  | .null => .object [("kind", .string "Null")]
  | .undefined => .object [("kind", .string "Undefined")]
  | .bool b => .keyed "Boolean" (.bool b)
  | .number x => .keyed "Number" (.float x)
  | .bigint text => .keyed "BigInt" (.string text)
  | .string s => .keyed "String" (.string s)
  | .regex pattern flags =>
    .keyed "Regex" (.object [("pattern", .string pattern), ("flags", .string flags)])

def TemplateElement.toJson (e : TemplateElement) : Json :=
  .object [("raw", .string e.raw), ("cooked", .ofOption .string e.cooked), ("tail", .bool e.tail),
    ("span", e.span.toJson)]

def ImportSpecifier.toJson : ImportSpecifier → Json
  | .named imported binding =>
    .tagged "Named" [("imported", .string imported), ("local", binding.toJson)]
  | .whole binding => .tagged "Namespace" [("local", binding.toJson)]
  | .byDefault binding => .tagged "Default" [("local", binding.toJson)]

def ImportAttribute.toJson (a : ImportAttribute) : Json :=
  .object [("key", .string a.key), ("value", .string a.value)]

def ImportDecl.fields (d : ImportDecl) : List (String × Json) :=
  [("specifiers", .ofList ImportSpecifier.toJson d.specifiers), ("source", .string d.source),
    ("attributes", .ofList ImportAttribute.toJson d.attributes), ("span", d.span.toJson)]

def ExportSpecifier.toJson (s : ExportSpecifier) : Json :=
  .object [("local", .string s.binding), ("exported", .string s.exported), ("span", s.span.toJson)]

mutual

def Expr.toJson : Expr → Json
  | .ident id => .tagged "Identifier" id.fields
  | .literal value span => node "Literal" span [("value", value.toJson)]
  | .template t => .tagged "TemplateLiteral" t.fields
  | .tagged tag t span =>
    node "TaggedTemplate" span [("tag", tag.toJson), ("quasi", .object t.fields)]
  | .array elements span => node "Array" span [("elements", .array (optExprsJson elements))]
  | .object members span => node "Object" span [("properties", .array (objectMembersJson members))]
  | .function f => .tagged "Function" f.fields
  | .arrow f => .tagged "Arrow" f.fields
  | .classExpr c => .tagged "Class" c.fields
  | .thisValue span => .tagged "This" span.fields
  | .superValue span => .tagged "Super" span.fields
  | .member m => .tagged "Member" m.fields
  | .call callee args isOptional span =>
    node "Call" span [("callee", callee.toJson), ("arguments", .array (exprsJson args)),
      ("optional", .bool isOptional)]
  | .chain e span => node "Chain" span [("expression", e.toJson)]
  | .new callee args span =>
    node "New" span [("callee", callee.toJson), ("arguments", .array (exprsJson args))]
  | .unary op arg span =>
    node "Unary" span [("operator", .ofCase UnaryOp.names op), ("argument", arg.toJson)]
  | .update op isPrefix arg span =>
    node "Update" span [("operator", .ofCase UpdateOp.names op), ("prefix", .bool isPrefix),
      ("argument", arg.toJson)]
  | .binary op left right span =>
    node "Binary" span [("operator", .ofCase BinaryOp.names op), ("left", left.toJson),
      ("right", right.toJson)]
  | .logical op left right span =>
    node "Logical" span [("operator", .ofCase LogicalOp.names op), ("left", left.toJson),
      ("right", right.toJson)]
  | .assign op target value span =>
    node "Assignment" span [("operator", .ofCase AssignOp.names op), ("left", target.toJson),
      ("right", value.toJson)]
  | .conditional test yes no span =>
    node "Conditional" span [("test", test.toJson), ("consequent", yes.toJson),
      ("alternate", no.toJson)]
  | .sequence es span => node "Sequence" span [("expressions", .array (exprsJson es))]
  | .spread arg span => node "Spread" span [("argument", arg.toJson)]
  | .yield arg delegate span =>
    node "Yield" span [("argument", optExprJson arg), ("delegate", .bool delegate)]
  | .await arg span => node "Await" span [("argument", arg.toJson)]
  | .metaProperty object property span =>
    node "MetaProperty" span [("meta", .string object), ("property", .string property)]
  | .dynamicImport source options span =>
    node "Import" span [("source", source.toJson), ("options", optExprJson options)]
  | .privateIn name right span =>
    node "PrivateIn" span [("name", .string name), ("right", right.toJson)]

def optExprJson : Option Expr → Json
  | none => .null
  | some e => e.toJson

def exprsJson : List Expr → List Json
  | [] => []
  | e :: rest => e.toJson :: exprsJson rest

def optExprsJson : List (Option Expr) → List Json
  | [] => []
  | e :: rest => optExprJson e :: optExprsJson rest

def Template.fields : Template → List (String × Json)
  | ⟨quasis, expressions, span⟩ =>
    [("quasis", .ofList TemplateElement.toJson quasis), ("expressions", .array (exprsJson expressions)),
      ("span", span.toJson)]

def Member.fields : Member → List (String × Json)
  | ⟨object, key, isOptional, span⟩ =>
    [("object", object.toJson), ("property", key.toJson), ("optional", .bool isOptional),
      ("span", span.toJson)]

def MemberKey.toJson : MemberKey → Json
  | .name s => .keyed "Identifier" (.string s)
  | .computed e => .keyed "Computed" e.toJson
  | .privateName s => .keyed "PrivateName" (.string s)

def PropertyKey.toJson : PropertyKey → Json
  | .ident s => .keyed "Identifier" (.string s)
  | .string s => .keyed "String" (.string s)
  | .number x => .keyed "Number" (.float x)
  | .computed e => .keyed "Computed" e.toJson
  | .privateName s => .keyed "PrivateName" (.string s)

def ObjectMember.toJson : ObjectMember → Json
  | .property key value kind isMethod isShorthand span =>
    node "Property" span [("key", key.toJson), ("value", value.toJson),
      ("kind", .ofCase PropertyKind.names kind), ("method", .bool isMethod),
      ("shorthand", .bool isShorthand)]
  | .spread arg span => node "Spread" span [("argument", arg.toJson)]

def objectMembersJson : List ObjectMember → List Json
  | [] => []
  | m :: rest => m.toJson :: objectMembersJson rest

def FunctionNode.fields : FunctionNode → List (String × Json)
  | ⟨id, params, body, isAsync, isGenerator, isArrow, source, span⟩ =>
    [("id", .ofOption Ident.toJson id), ("params", .array (patternsJson params)), ("body", body.toJson),
      ("is_async", .bool isAsync), ("is_generator", .bool isGenerator), ("is_arrow", .bool isArrow),
      ("source", .ofOption .string source), ("span", span.toJson)]

def FunctionBody.toJson : FunctionBody → Json
  | .block body => .keyed "Block" (.array (stmtsJson body))
  | .expr e => .keyed "Expression" e.toJson

def ClassNode.fields : ClassNode → List (String × Json)
  | ⟨id, heritage, body, span⟩ =>
    [("id", .ofOption Ident.toJson id), ("super_class", optExprJson heritage),
      ("body", .array (classElementsJson body)), ("span", span.toJson)]

def ClassElement.toJson : ClassElement → Json
  | .method key value kind isStatic span =>
    node "Method" span [("key", key.toJson), ("value", .object value.fields),
      ("kind", .ofCase MethodKind.names kind), ("is_static", .bool isStatic)]
  | .field key value isStatic span =>
    node "Property" span [("key", key.toJson), ("value", optExprJson value),
      ("is_static", .bool isStatic)]
  | .staticBlock body span => node "StaticBlock" span [("body", .array (stmtsJson body))]

def classElementsJson : List ClassElement → List Json
  | [] => []
  | e :: rest => e.toJson :: classElementsJson rest

def Pattern.toJson : Pattern → Json
  | .ident id => .tagged "Identifier" id.fields
  | .array elements span => node "Array" span [("elements", .array (optPatternsJson elements))]
  | .object members span => node "Object" span [("properties", .array (patternMembersJson members))]
  | .withDefault target value span =>
    node "Assignment" span [("left", target.toJson), ("right", value.toJson)]
  | .rest target span => node "Rest" span [("argument", target.toJson)]
  | .member m => .tagged "Member" m.fields

def optPatternJson : Option Pattern → Json
  | none => .null
  | some p => p.toJson

def patternsJson : List Pattern → List Json
  | [] => []
  | p :: rest => p.toJson :: patternsJson rest

def optPatternsJson : List (Option Pattern) → List Json
  | [] => []
  | p :: rest => optPatternJson p :: optPatternsJson rest

def PatternMember.toJson : PatternMember → Json
  | .property key value isShorthand span =>
    node "Property" span [("key", key.toJson), ("value", value.toJson),
      ("shorthand", .bool isShorthand)]
  | .rest target span => node "Rest" span [("argument", target.toJson)]

def patternMembersJson : List PatternMember → List Json
  | [] => []
  | m :: rest => m.toJson :: patternMembersJson rest

def Stmt.toJson : Stmt → Json
  | .block b => .tagged "Block" b.fields
  | .empty span => .tagged "Empty" span.fields
  | .expr e span => node "Expression" span [("expression", e.toJson)]
  | .ifElse test yes no span =>
    node "If" span [("test", test.toJson), ("consequent", yes.toJson),
      ("alternate", optStmtJson no)]
  | .whileLoop test body span => node "While" span [("test", test.toJson), ("body", body.toJson)]
  | .doWhile body test span => node "DoWhile" span [("body", body.toJson), ("test", test.toJson)]
  | .forLoop init test update body span =>
    node "For" span [("init", optForInitJson init), ("test", optExprJson test),
      ("update", optExprJson update), ("body", body.toJson)]
  | .forIn left right body span =>
    node "ForIn" span [("left", left.toJson), ("right", right.toJson), ("body", body.toJson)]
  | .forOf left right body isAwait span =>
    node "ForOf" span [("left", left.toJson), ("right", right.toJson), ("body", body.toJson),
      ("is_await", .bool isAwait)]
  | .switch discriminant cases span =>
    node "Switch" span [("discriminant", discriminant.toJson),
      ("cases", .array (switchCasesJson cases))]
  | .breakTo label span => node "Break" span [("label", .ofOption Ident.toJson label)]
  | .continueTo label span => node "Continue" span [("label", .ofOption Ident.toJson label)]
  | .returnValue value span => node "Return" span [("argument", optExprJson value)]
  | .throwValue value span => node "Throw" span [("argument", value.toJson)]
  | .tryCatch body handler finalizer span =>
    node "Try" span [("block", .object body.fields), ("handler", optCatchJson handler),
      ("finalizer", optBlockJson finalizer)]
  | .labeled label body span => node "Labeled" span [("label", label.toJson), ("body", body.toJson)]
  | .withObject object body span =>
    node "With" span [("object", object.toJson), ("body", body.toJson)]
  | .debugger span => .tagged "Debugger" span.fields
  | .varDecl d => .tagged "VariableDeclaration" d.fields
  | .functionDecl f => .tagged "FunctionDeclaration" f.fields
  | .classDecl c => .tagged "ClassDeclaration" c.fields
  | .importDecl d => .tagged "Import" d.fields
  | .exportDecl kind span => node "Export" span [("kind", kind.toJson)]

def optStmtJson : Option Stmt → Json
  | none => .null
  | some s => s.toJson

def stmtsJson : List Stmt → List Json
  | [] => []
  | s :: rest => s.toJson :: stmtsJson rest

def Block.fields : Block → List (String × Json)
  | ⟨body, span⟩ => [("body", .array (stmtsJson body)), ("span", span.toJson)]

def optBlockJson : Option Block → Json
  | none => .null
  | some b => .object b.fields

def VarDecl.fields : VarDecl → List (String × Json)
  | ⟨kind, declarators, span⟩ =>
    [("kind", .ofCase DeclKind.names kind), ("declarations", .array (declaratorsJson declarators)),
      ("span", span.toJson)]

def Declarator.toJson : Declarator → Json
  | ⟨target, init, span⟩ =>
    .object [("id", target.toJson), ("init", optExprJson init), ("span", span.toJson)]

def declaratorsJson : List Declarator → List Json
  | [] => []
  | d :: rest => d.toJson :: declaratorsJson rest

def ForInit.toJson : ForInit → Json
  | .decl d => .keyed "Declaration" (.object d.fields)
  | .expr e => .keyed "Expression" e.toJson

def optForInitJson : Option ForInit → Json
  | none => .null
  | some i => i.toJson

def ForHead.toJson : ForHead → Json
  | .decl d => .keyed "Declaration" (.object d.fields)
  | .pattern p => .keyed "Pattern" p.toJson

def SwitchCase.toJson : SwitchCase → Json
  | ⟨test, body, span⟩ =>
    .object [("test", optExprJson test), ("consequent", .array (stmtsJson body)),
      ("span", span.toJson)]

def switchCasesJson : List SwitchCase → List Json
  | [] => []
  | c :: rest => c.toJson :: switchCasesJson rest

def CatchClause.toJson : CatchClause → Json
  | ⟨param, body, span⟩ =>
    .object [("param", optPatternJson param), ("body", .object body.fields), ("span", span.toJson)]

def optCatchJson : Option CatchClause → Json
  | none => .null
  | some c => c.toJson

def ExportKind.toJson : ExportKind → Json
  | .named specifiers source =>
    .keyed "Named" (.object [("specifiers", .ofList ExportSpecifier.toJson specifiers),
      ("source", .ofOption .string source)])
  | .byDefault e => .keyed "Default" e.toJson
  | .defaultDecl s => .keyed "DefaultDeclaration" s.toJson
  | .decl s => .keyed "Declaration" s.toJson
  | .all source => .keyed "All" (.object [("source", .string source)])
  | .allAs exported source =>
    .keyed "AllAs" (.object [("exported", .string exported), ("source", .string source)])

end

def AssignOp.toJson (op : AssignOp) : Json :=
  .ofCase AssignOp.names op

def FunctionNode.toJson (f : FunctionNode) : Json :=
  .object f.fields

def Program.toJson (p : Program) : Json :=
  .object [("body", .array (stmtsJson p.body)), ("source_type", .ofCase SourceType.names p.sourceType),
    ("strict", .bool p.strict), ("source", .ofOption .string p.source), ("span", p.span.toJson)]

/-- Steps enough to walk over a program. -/
def Program.steps (p : Program) : Nat :=
  p.toJson.steps

end ScriptBytecode
