import NestLang.Compile.Error
import NestLang.Scope
import NestLang.Tree.Basic

/-!
# Checking the use of names

The rules for names, apart from any code. A checker walks through a program with the kinds of the
names in scope and stops at the first name that is used in a way its kind does not allow.

A variable is declared before its value is checked, and a function before its parameters and its
body. The target of an assignment is checked before its value, the function of a call and the
number of its arguments before the arguments, and the body of a loop before the statement that
follows each pass.

* `Expr.check`, `Stmt.check`: the first violation in an expression and in a statement.
* `check`: the first violation in a program.
-/

namespace NestLang

/-- What kind of thing a name stands for. -/
inductive Kind
  | var
  | param
  | func (params : Nat)
  deriving DecidableEq

mutual

/-- Check an expression. -/
def Expr.check (scopes : Scopes Kind) : Expr → Except CompileError Unit
  | .int _ | .bool _ => .ok ()
  | .var name =>
    match scopes.resolve? name with
    | some .var | some .param => .ok ()
    | some (.func _) => .error (.functionAsValue name)
    | none => .error (.unresolved name)
  | .call name args =>
    match scopes.resolve? name with
    | some (.func params) =>
      if args.length = params then Expr.checkAll scopes args
      else .error (.argumentCount name params args.length)
    | some .var | some .param => .error (.notCallable name)
    | none => .error (.unresolved name)
  | .unary _ operand => operand.check scopes
  | .binary _ left right => do
    left.check scopes
    right.check scopes
  | .post op (.var name) =>
    match scopes.resolve? name with
    | some .var => .ok ()
    | some .param | some (.func _) => .error (.invalidOperand op)
    | none => .error (.unresolved name)
  | .post op _ => .error (.invalidOperand op)

/-- Check some expressions from left to right. -/
def Expr.checkAll (scopes : Scopes Kind) : List Expr → Except CompileError Unit
  | [] => .ok ()
  | e :: es => do
    e.check scopes
    Expr.checkAll scopes es

end

/-- Declare the parameters of a function. -/
def checkParams (scopes : Scopes Kind) (names : List String) : Scopes Kind :=
  names.foldl (fun scopes name => scopes.declare name .param) scopes

mutual

/-- Check a statement. Returns the scopes for the statements after it. -/
def Stmt.check (scopes : Scopes Kind) : Stmt → Except CompileError (Scopes Kind)
  | .declare name value => do
    let scopes := scopes.declare name .var
    value.check scopes
    return scopes
  | .assign name value => do
    match scopes.resolve? name with
    | some .var | some .param => value.check scopes
    | some (.func _) => throw (.notAssignable name)
    | none => throw (.undeclaredAssignment name)
    return scopes
  | .function name params body => do
    let scopes := scopes.declare name (.func params.length)
    Stmt.checkAll (checkParams (scopes.enter []) params) body
    return scopes
  | .ret none => return scopes
  | .ret (some value) => do
    value.check scopes
    return scopes
  | .cond test body alternative => do
    test.check scopes
    Stmt.checkAll (scopes.enter []) body
    alternative.check scopes
    return scopes
  | .loop first test after body => do
    let inner ← first.check (scopes.enter [])
    test.check inner
    Stmt.checkAll (inner.enter []) body
    let _ ← after.check inner
    return scopes
  | .block body => do
    Stmt.checkAll (scopes.enter []) body
    return scopes
  | .expr value => do
    value.check scopes
    return scopes
  | .empty => return scopes

/-- Check some statements in order, each with the declarations of those before it. -/
def Stmt.checkAll (scopes : Scopes Kind) : List Stmt → Except CompileError Unit
  | [] => return
  | s :: rest => do
    let scopes ← s.check scopes
    Stmt.checkAll scopes rest

/-- Check an alternative. -/
def Else.check (scopes : Scopes Kind) : Else → Except CompileError Unit
  | .none => return
  | .block body => Stmt.checkAll (scopes.enter []) body
  | .cond test body alternative => do
    test.check scopes
    Stmt.checkAll (scopes.enter []) body
    alternative.check scopes

end

/-- Check a program. At the start only `print` is declared. -/
def check (program : Program) : Except CompileError Unit :=
  Stmt.checkAll (.root [("print", .func 1)]) program

end NestLang
