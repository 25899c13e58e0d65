import ScriptBytecode.Emission.Class
import ScriptBytecode.Emission.Binding

/-!
# Regular trees

Three kinds of nodes make code whose paths meet at different stack depths: a `try` statement with a
finalizer, a sequence of no expressions, and an object pattern with a rest that is not its last member. A
tree without them is regular; `finalizers` allows the first kind.
-/

namespace ScriptBytecode

variable (finalizers : Bool)

mutual

def Expr.isRegular : Expr → Bool
  | .ident _ | .literal _ _ | .thisValue _ | .superValue _ | .metaProperty _ _ _ => true
  | .template t => t.isRegular
  | .tagged tag t _ => tag.isRegular && t.isRegular
  | .array elements _ => optExprsRegular elements
  | .object members _ => objectMembersRegular members
  | .function f => f.isRegular
  | .arrow f => f.isRegular
  | .classExpr c => c.isRegular
  | .member m => m.isRegular
  | .call callee args _ _ => callee.isRegular && exprsRegular args
  | .chain e _ => e.isRegular
  | .new callee args _ => callee.isRegular && exprsRegular args
  | .unary _ arg _ => arg.isRegular
  | .update _ _ arg _ => arg.isRegular
  | .binary _ left right _ => left.isRegular && right.isRegular
  | .logical _ left right _ => left.isRegular && right.isRegular
  | .assign _ target value _ => target.isRegular && value.isRegular
  | .conditional test yes no _ =>
    test.isRegular && yes.isRegular && no.isRegular
  | .sequence es _ => !es.isEmpty && exprsRegular es
  | .spread arg _ => arg.isRegular
  | .yield arg _ _ => optExprRegular arg
  | .await arg _ => arg.isRegular
  | .dynamicImport source options _ => source.isRegular && optExprRegular options
  | .privateIn _ right _ => right.isRegular

def optExprRegular : Option Expr → Bool
  | none => true
  | some e => e.isRegular

def exprsRegular : List Expr → Bool
  | [] => true
  | e :: rest => e.isRegular && exprsRegular rest

def optExprsRegular : List (Option Expr) → Bool
  | [] => true
  | e :: rest => optExprRegular e && optExprsRegular rest

def Template.isRegular : Template → Bool
  | ⟨_, expressions, _⟩ => exprsRegular expressions

def Member.isRegular : Member → Bool
  | ⟨object, key, _, _⟩ => object.isRegular && key.isRegular

def MemberKey.isRegular : MemberKey → Bool
  | .computed e => e.isRegular
  | .name _ | .privateName _ => true

def PropertyKey.isRegular : PropertyKey → Bool
  | .computed e => e.isRegular
  | .ident _ | .string _ | .number _ | .privateName _ => true

def ObjectMember.isRegular : ObjectMember → Bool
  | .property key value _ _ _ _ => key.isRegular && value.isRegular
  | .spread arg _ => arg.isRegular

def objectMembersRegular : List ObjectMember → Bool
  | [] => true
  | m :: rest => m.isRegular && objectMembersRegular rest

def FunctionNode.isRegular : FunctionNode → Bool
  | ⟨_, params, body, _, _, _, _, _⟩ => patternsRegular params && body.isRegular

def FunctionBody.isRegular : FunctionBody → Bool
  | .block body => stmtsRegular body
  | .expr e => e.isRegular

def ClassNode.isRegular : ClassNode → Bool
  | ⟨_, heritage, body, _⟩ => optExprRegular heritage && classElementsRegular body

def ClassElement.isRegular : ClassElement → Bool
  | .method key value _ _ _ => key.isRegular && value.isRegular
  | .field key value _ _ => key.isRegular && optExprRegular value
  | .staticBlock body _ => stmtsRegular body

def classElementsRegular : List ClassElement → Bool
  | [] => true
  | e :: rest => e.isRegular && classElementsRegular rest

def Pattern.isRegular : Pattern → Bool
  | .ident _ => true
  | .array elements _ => optPatternsRegular elements
  | .object members _ =>
    members.dropLast.all (!·.isRest) && patternMembersRegular members
  | .withDefault target value _ => target.isRegular && value.isRegular
  | .rest target _ => target.isRegular
  | .member m => m.isRegular

def optPatternRegular : Option Pattern → Bool
  | none => true
  | some p => p.isRegular

def patternsRegular : List Pattern → Bool
  | [] => true
  | p :: rest => p.isRegular && patternsRegular rest

def optPatternsRegular : List (Option Pattern) → Bool
  | [] => true
  | p :: rest => optPatternRegular p && optPatternsRegular rest

def PatternMember.isRegular : PatternMember → Bool
  | .property key value _ _ => key.isRegular && value.isRegular
  | .rest target _ => target.isRegular

def patternMembersRegular : List PatternMember → Bool
  | [] => true
  | m :: rest => m.isRegular && patternMembersRegular rest

def Stmt.isRegular : Stmt → Bool
  | .empty _ | .breakTo _ _ | .continueTo _ _ | .debugger _ | .importDecl _ => true
  | .block b => b.isRegular
  | .expr e _ => e.isRegular
  | .ifElse test yes no _ => test.isRegular && yes.isRegular && optStmtRegular no
  | .whileLoop test body _ => test.isRegular && body.isRegular
  | .doWhile body test _ => body.isRegular && test.isRegular
  | .forLoop init test update body _ =>
    optForInitRegular init && optExprRegular test &&
      optExprRegular update && body.isRegular
  | .forIn left right body _ => left.isRegular && right.isRegular && body.isRegular
  | .forOf left right body _ _ => left.isRegular && right.isRegular && body.isRegular
  | .switch discriminant cases _ => discriminant.isRegular && switchCasesRegular cases
  | .returnValue value _ => optExprRegular value
  | .throwValue value _ => value.isRegular
  | .tryCatch body handler finalizer _ =>
    (finalizers || finalizer.isNone) && body.isRegular && optCatchRegular handler &&
      optBlockRegular finalizer
  | .labeled _ body _ => body.isRegular
  | .withObject object body _ => object.isRegular && body.isRegular
  | .varDecl d => d.isRegular
  | .functionDecl f => f.isRegular
  | .classDecl c => c.isRegular
  | .exportDecl kind _ => kind.isRegular

def optStmtRegular : Option Stmt → Bool
  | none => true
  | some s => s.isRegular

def stmtsRegular : List Stmt → Bool
  | [] => true
  | s :: rest => s.isRegular && stmtsRegular rest

def Block.isRegular : Block → Bool
  | ⟨body, _⟩ => stmtsRegular body

def optBlockRegular : Option Block → Bool
  | none => true
  | some b => b.isRegular

def VarDecl.isRegular : VarDecl → Bool
  | ⟨_, declarators, _⟩ => declaratorsRegular declarators

def Declarator.isRegular : Declarator → Bool
  | ⟨target, init, _⟩ => target.isRegular && optExprRegular init

def declaratorsRegular : List Declarator → Bool
  | [] => true
  | d :: rest => d.isRegular && declaratorsRegular rest

def ForInit.isRegular : ForInit → Bool
  | .decl d => d.isRegular
  | .expr e => e.isRegular

def optForInitRegular : Option ForInit → Bool
  | none => true
  | some i => i.isRegular

def ForHead.isRegular : ForHead → Bool
  | .decl d => d.isRegular
  | .pattern p => p.isRegular

def SwitchCase.isRegular : SwitchCase → Bool
  | ⟨test, body, _⟩ => optExprRegular test && stmtsRegular body

def switchCasesRegular : List SwitchCase → Bool
  | [] => true
  | c :: rest => c.isRegular && switchCasesRegular rest

def CatchClause.isRegular : CatchClause → Bool
  | ⟨param, body, _⟩ => optPatternRegular param && body.isRegular

def optCatchRegular : Option CatchClause → Bool
  | none => true
  | some c => c.isRegular

def ExportKind.isRegular : ExportKind → Bool
  | .named _ _ | .all _ | .allAs _ _ => true
  | .byDefault e => e.isRegular
  | .defaultDecl s => s.isRegular
  | .decl s => s.isRegular

end

def Program.isRegular (p : Program) : Bool :=
  stmtsRegular finalizers p.body

/-! ## Lists -/

theorem eq_all_of_cons {α : Type} {f : List α → Bool} {g : α → Bool} (hnil : f [])
    (hcons : ∀ x xs, f (x :: xs) = (g x && f xs)) (xs : List α) : f xs = xs.all g := by
  induction xs with
  | nil => exact hnil
  | cons x xs ih => rw [hcons, ih, List.all_cons]

variable {finalizers}

@[simp] theorem exprsRegular_eq (es : List Expr) : exprsRegular finalizers es = es.all (·.isRegular finalizers) :=
  eq_all_of_cons rfl (fun _ _ => rfl) es

@[simp] theorem optExprsRegular_eq (es : List (Option Expr)) :
    optExprsRegular finalizers es = es.all (optExprRegular finalizers) :=
  eq_all_of_cons rfl (fun _ _ => rfl) es

@[simp] theorem objectMembersRegular_eq (ms : List ObjectMember) :
    objectMembersRegular finalizers ms = ms.all (·.isRegular finalizers) :=
  eq_all_of_cons rfl (fun _ _ => rfl) ms

@[simp] theorem classElementsRegular_eq (es : List ClassElement) :
    classElementsRegular finalizers es = es.all (·.isRegular finalizers) :=
  eq_all_of_cons rfl (fun _ _ => rfl) es

@[simp] theorem patternsRegular_eq (ps : List Pattern) :
    patternsRegular finalizers ps = ps.all (·.isRegular finalizers) :=
  eq_all_of_cons rfl (fun _ _ => rfl) ps

@[simp] theorem optPatternsRegular_eq (ps : List (Option Pattern)) :
    optPatternsRegular finalizers ps = ps.all (optPatternRegular finalizers) :=
  eq_all_of_cons rfl (fun _ _ => rfl) ps

@[simp] theorem patternMembersRegular_eq (ms : List PatternMember) :
    patternMembersRegular finalizers ms = ms.all (·.isRegular finalizers) :=
  eq_all_of_cons rfl (fun _ _ => rfl) ms

@[simp] theorem stmtsRegular_eq (ss : List Stmt) : stmtsRegular finalizers ss = ss.all (·.isRegular finalizers) :=
  eq_all_of_cons rfl (fun _ _ => rfl) ss

@[simp] theorem declaratorsRegular_eq (ds : List Declarator) :
    declaratorsRegular finalizers ds = ds.all (·.isRegular finalizers) :=
  eq_all_of_cons rfl (fun _ _ => rfl) ds

@[simp] theorem switchCasesRegular_eq (cs : List SwitchCase) :
    switchCasesRegular finalizers cs = cs.all (·.isRegular finalizers) :=
  eq_all_of_cons rfl (fun _ _ => rfl) cs

end ScriptBytecode
