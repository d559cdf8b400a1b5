import NestLang.Compile.Block
import NestLang.Tree.Basic

/-!
# Compiling trees

The code of an expression leaves its value on the stack, and the code of a statement leaves the
stack as it was, except that a declared variable keeps its slot.

* `Expr.compile`, `Stmt.compile`: the code of an expression and of a statement.
* `Program.compile`: the code of a whole program, in a session.
* `compile`: the compiled program.
-/

namespace NestLang

open CompileM

/-- The slot of a variable or parameter. Functions have none: `function` is the error for the name
of a function, and `undeclared` the error for a name that is not declared. -/
def slotOf (function undeclared : CompileError) (name : String) : CompileM (Nat × Int) := do
  match ← resolve? name with
  | some (.var level offset) | some (.param level offset) => return (level, offset)
  | some (.func _ _ _) => throw function
  | none => throw undeclared

/-- The slot that an assignment to a name changes. -/
def assignTarget (name : String) : CompileM (Nat × Int) :=
  slotOf (.notAssignable name) (.undeclaredAssignment name) name

/-- The slot whose value a name stands for. -/
def valueOf (name : String) : CompileM (Nat × Int) :=
  slotOf (.functionAsValue name) (.unresolved name) name

/-- Level and address of the function that a call of a name with so many arguments enters. -/
def callTarget (name : String) (given : Nat) : CompileM (Nat × Nat) := do
  match ← resolve? name with
  | some (.func level entry params) =>
    if given = params then return (level, entry) else throw (.argumentCount name params given)
  | some (.var _ _) | some (.param _ _) => throw (.notCallable name)
  | none => throw (.unresolved name)

/-- The slot of the variable to which a postfix operator applies. Parameters do not count. -/
def postTarget (op : PostOp) : Expr → CompileM (Nat × Int)
  | .var name => do
    match ← resolve? name with
    | some (.var level offset) => return (level, offset)
    | some (.param _ _) | some (.func _ _ _) => throw (.invalidOperand op)
    | none => throw (.unresolved name)
  | _ => throw (.invalidOperand op)

/-- Write the code of a unary operator, which acts on the top value. -/
def UnaryOp.compile : UnaryOp → CompileM Unit
  | .not => emit .not
  | .minus => emit .neg
  | .plus => return

mutual

/-- Write the code of an expression. -/
def Expr.compile : Expr → CompileM Unit
  | .int value => emit (.lit value)
  | .bool value => emit (.lit (.ofBool value))
  | .var name => do
    let (level, offset) ← valueOf name
    emit (.load level offset)
  | .call name args => do
    let (level, entry) ← callTarget name args.length
    Expr.compileAll args
    emit (.call level entry)
  | .unary op operand => do
    operand.compile
    op.compile
  | .binary op left right => do
    left.compile
    right.compile
    emit (.binary op)
  | .post op operand => do
    let (level, offset) ← postTarget op operand
    emit (.load level offset)
    emit (.load level offset)
    emit (.lit op.delta)
    emit (.binary .add)
    emit (.store level offset)

/-- Write the code of some expressions from left to right. -/
def Expr.compileAll : List Expr → CompileM Unit
  | [] => return
  | e :: es => do
    e.compile
    Expr.compileAll es

end

mutual

/-- Write the code of a statement. -/
def Stmt.compile : Stmt → CompileM Unit
  | .declare name value => do
    let current ← level
    let slot ← reserve
    emit (.lit 0)
    declare name (.var current slot)
    value.compile
    emit (.store current slot)
  | .assign name value => do
    let (level, offset) ← assignTarget name
    value.compile
    emit (.store level offset)
  | .function name params body => inFunction name params (Stmt.compileAll body)
  | .ret none => do
    emit (.lit 0)
    emitReturn
  | .ret (some value) => do
    value.compile
    emitReturn
  | .cond test body alternative =>
    branch test.compile (inBlock (Stmt.compileAll body)) alternative.compile
  | .loop first test after body =>
    inBlock do
      first.compile
      let start ← here
      test.compile
      emit .not
      forward .jumpIf do
        inBlock (Stmt.compileAll body)
        after.compile
        emit (.jump start)
  | .block body => inBlock (Stmt.compileAll body)
  | .expr value => do
    value.compile
    emit .pop
  | .empty => return

/-- Write the code of some statements in order. -/
def Stmt.compileAll : List Stmt → CompileM Unit
  | [] => return
  | s :: rest => do
    s.compile
    Stmt.compileAll rest

/-- Write the code of an alternative. -/
def Else.compile : Else → CompileM Unit
  | .none => return
  | .block body => inBlock (Stmt.compileAll body)
  | .cond test body alternative =>
    branch test.compile (inBlock (Stmt.compileAll body)) alternative.compile

end

/-- Write the code of a program behind what the session has written before. -/
def Program.compile (program : Program) : CompileM Unit := do
  record (.compiling program.length)
  Stmt.compileAll program
  record (.compiled (← get).buffer.code.size)

/-- Compile a program. -/
def compile (program : Program) : Except CompileError Code :=
  match (Program.compile program).run .initial with
  | .ok _ s => .ok s.buffer.code
  | .error e _ => .error e

end NestLang
