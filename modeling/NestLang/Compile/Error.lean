import NestLang.Operator

/-!
# Compile errors

Why a program cannot be compiled. All but one concern the use of names.
-/

namespace NestLang

/-- What a level was opened for. -/
inductive LevelKind
  | function | block
  deriving DecidableEq

/-- Why a program cannot be compiled. -/
inductive CompileError
  /-- The name is not declared. -/
  | unresolved (name : String)
  /-- The name is assigned to and not declared. -/
  | undeclaredAssignment (name : String)
  /-- The name of a function stands where a value is needed. -/
  | functionAsValue (name : String)
  /-- The name is called and is no function. -/
  | notCallable (name : String)
  /-- The name is assigned to and is a function. -/
  | notAssignable (name : String)
  /-- The operand of a postfix operator is not a variable. -/
  | invalidOperand (op : PostOp)
  /-- A function is called with the wrong number of arguments. -/
  | argumentCount (name : String) (expected given : Nat)
  /-- A level was closed that had not been opened. -/
  | levelMissing (kind : LevelKind)
  deriving DecidableEq

/-- The text of a compile error. -/
def CompileError.message : CompileError → String
  | unresolved name => "unresolved identifier '" ++ name ++ "'"
  | undeclaredAssignment name => "assignment to undeclared variable '" ++ name ++ "'"
  | functionAsValue name => "function '" ++ name ++ "' used as a value"
  | notCallable name => "'" ++ name ++ "' is not a function"
  | notAssignable name => "cannot assign to function '" ++ name ++ "'"
  | invalidOperand op => "invalid operand for '" ++ op.symbol ++ "', expected a variable"
  | argumentCount name expected given =>
    "function '" ++ name ++ "' takes " ++ toString expected ++ " argument(s) but " ++
      toString given ++ " were given"
  | levelMissing .function => "internal compiler error: function frame missing"
  | levelMissing .block => "internal compiler error: block frame missing"

end NestLang
