import NestLang.Compile.Error
import NestLang.Tree.Basic

/-!
# Names in trees

* `Expr.names`, `Stmt.names`: all names that occur in a tree, declared or used.
* `Expr.rename`, `Stmt.rename`: a tree with every name replaced.
-/

namespace NestLang

mutual

/-- The names that occur in an expression. -/
def Expr.names : Expr → List String
  | .int _ | .bool _ => []
  | .var name => [name]
  | .call name args => name :: Expr.namesAll args
  | .unary _ operand | .post _ operand => operand.names
  | .binary _ left right => left.names ++ right.names

/-- The names that occur in some expressions. -/
def Expr.namesAll : List Expr → List String
  | [] => []
  | e :: es => e.names ++ Expr.namesAll es

end

mutual

/-- The names that occur in a statement. -/
def Stmt.names : Stmt → List String
  | .declare name value | .assign name value => name :: value.names
  | .function name params body => name :: params ++ Stmt.namesAll body
  | .ret none => []
  | .ret (some value) => value.names
  | .cond test body alternative => test.names ++ Stmt.namesAll body ++ alternative.names
  | .loop first test after body =>
    first.names ++ test.names ++ after.names ++ Stmt.namesAll body
  | .block body => Stmt.namesAll body
  | .expr value => value.names
  | .empty => []

/-- The names that occur in some statements. -/
def Stmt.namesAll : List Stmt → List String
  | [] => []
  | s :: rest => s.names ++ Stmt.namesAll rest

/-- The names that occur in an alternative. -/
def Else.names : Else → List String
  | .none => []
  | .block body => Stmt.namesAll body
  | .cond test body alternative => test.names ++ Stmt.namesAll body ++ alternative.names

end

mutual

/-- An expression with every name replaced. -/
def Expr.rename (r : String → String) : Expr → Expr
  | .int value => .int value
  | .bool value => .bool value
  | .var name => .var (r name)
  | .call name args => .call (r name) (Expr.renameAll r args)
  | .unary op operand => .unary op (operand.rename r)
  | .binary op left right => .binary op (left.rename r) (right.rename r)
  | .post op operand => .post op (operand.rename r)

/-- Some expressions with every name replaced. -/
def Expr.renameAll (r : String → String) : List Expr → List Expr
  | [] => []
  | e :: es => e.rename r :: Expr.renameAll r es

end

mutual

/-- A statement with every name replaced. -/
def Stmt.rename (r : String → String) : Stmt → Stmt
  | .declare name value => .declare (r name) (value.rename r)
  | .assign name value => .assign (r name) (value.rename r)
  | .function name params body => .function (r name) (params.map r) (Stmt.renameAll r body)
  | .ret value => .ret (value.map (·.rename r))
  | .cond test body alternative =>
    .cond (test.rename r) (Stmt.renameAll r body) (alternative.rename r)
  | .loop first test after body =>
    .loop (first.rename r) (test.rename r) (after.rename r) (Stmt.renameAll r body)
  | .block body => .block (Stmt.renameAll r body)
  | .expr value => .expr (value.rename r)
  | .empty => .empty

/-- Some statements with every name replaced. -/
def Stmt.renameAll (r : String → String) : List Stmt → List Stmt
  | [] => []
  | s :: rest => s.rename r :: Stmt.renameAll r rest

/-- An alternative with every name replaced. -/
def Else.rename (r : String → String) : Else → Else
  | .none => .none
  | .block body => .block (Stmt.renameAll r body)
  | .cond test body alternative =>
    .cond (test.rename r) (Stmt.renameAll r body) (alternative.rename r)

end

/-- A compile error with the name it reports replaced. -/
def CompileError.rename (r : String → String) : CompileError → CompileError
  | unresolved name => unresolved (r name)
  | undeclaredAssignment name => undeclaredAssignment (r name)
  | functionAsValue name => functionAsValue (r name)
  | notCallable name => notCallable (r name)
  | notAssignable name => notAssignable (r name)
  | invalidOperand op => invalidOperand op
  | argumentCount name expected given => argumentCount (r name) expected given
  | levelMissing kind => levelMissing kind

end NestLang
