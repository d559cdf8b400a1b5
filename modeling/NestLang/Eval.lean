import NestLang.Tree.Basic

/-!
# The meaning of programs

Programs evaluated as trees, without code, stack or display.

A declaration makes a new cell, which holds `0` while its own value is evaluated. Names are scoped
statically: a function sees the bindings that were made before it, and itself. Arguments are passed
by value, and of parameters with the same name the last one counts. Operands and arguments are
evaluated from left to right, those of `&&` and `||` always both. A return ends the function around
it from within any number of blocks, and a function without a return gives `0`.

* `Expr.eval`, `Stmt.eval`: evaluate an expression and a statement.
* `eval`: what a program prints.

Evaluation is bounded by `fuel`, and running out of it is told apart from failure.
-/

namespace NestLang

/-- What a name is bound to. A function is bound together with the bindings before it, which are
those that stand behind it in the environment. -/
inductive Binding
  | cell (index : Nat)
  | func (params : List String) (body : List Stmt)
  | print

/-- The bindings that are visible, newest first. -/
abbrev Env := List (String × Binding)

/-- The newest binding of a name, with the environment that ends with this binding. -/
def Env.find? (name : String) : Env → Option (Binding × Env)
  | [] => none
  | (n, b) :: rest => if n = name then some (b, (n, b) :: rest) else Env.find? name rest

/-- The values of all cells made so far, and what was printed. -/
structure Memory where
  cells : Array Value
  output : Array Value

/-- Why an evaluation has no result. -/
inductive Stop
  | divisionByZero
  | misused (name : String)
  | misplaced
  | outOfFuel
  deriving DecidableEq

/-- An evaluation, which keeps the memory it reached also when it stops. -/
abbrev EvalM := EStateM Stop Memory

namespace EvalM

/-- Make a new cell. Returns its index. -/
def allocate (v : Value) : EvalM Nat :=
  modifyGet fun m => (m.cells.size, { m with cells := m.cells.push v })

/-- The value of a cell. -/
def read (index : Nat) : EvalM Value := return (← get).cells.getD index 0

/-- Change the value of a cell. -/
def write (index : Nat) (v : Value) : EvalM Unit :=
  modify fun m => { m with cells := m.cells.setIfInBounds index v }

/-- Print a value. -/
def print (v : Value) : EvalM Unit := modify fun m => { m with output := m.output.push v }

/-- The cell that a name is bound to. -/
def cellOf (env : Env) (name : String) : EvalM Nat :=
  match env.find? name with
  | some (.cell index, _) => return index
  | _ => throw (.misused name)

/-- Bind parameters to new cells that hold the arguments. -/
def bindAll : List String → List Value → Env → EvalM Env
  | name :: names, v :: vs, env => do
    let index ← allocate v
    bindAll names vs ((name, .cell index) :: env)
  | _, _, env => return env

end EvalM

/-- How a statement ends: the next statement follows with these bindings, or the function around it
has returned a value. -/
inductive Flow
  | next (env : Env)
  | returned (v : Value)

open EvalM

mutual

/-- The value of an expression. -/
def Expr.eval (fuel : Nat) (env : Env) (e : Expr) : EvalM Value := do
  match fuel with
  | 0 => throw .outOfFuel
  | fuel + 1 =>
    match e with
    | .int v => return v
    | .bool b => return .ofBool b
    | .var name => do read (← cellOf env name)
    | .call name args =>
      match env.find? name with
      | some (.func params body, closure) => do
        let vs ← Expr.evalAll fuel env args
        let inner ← bindAll params vs closure
        match ← Stmt.evalAll fuel inner body with
        | .returned v => return v
        | .next _ => return 0
      | some (.print, _) => do
        match ← Expr.evalAll fuel env args with
        | [v] => do
          print v
          return 0
        | _ => throw (.misused name)
      | _ => throw (.misused name)
    | .unary op operand => do
      let v ← operand.eval fuel env
      return op.apply v
    | .binary op left right => do
      let a ← left.eval fuel env
      let b ← right.eval fuel env
      match op.apply? a b with
      | some v => return v
      | none => throw .divisionByZero
    | .post op (.var name) => do
      let index ← cellOf env name
      let v ← read index
      write index (v + op.delta)
      return v
    | .post _ _ => throw .misplaced

/-- The values of some expressions, from left to right. -/
def Expr.evalAll (fuel : Nat) (env : Env) (es : List Expr) : EvalM (List Value) := do
  match fuel with
  | 0 => throw .outOfFuel
  | fuel + 1 =>
    match es with
    | [] => return []
    | e :: es => do
      let v ← e.eval fuel env
      let vs ← Expr.evalAll fuel env es
      return v :: vs

/-- Evaluate a statement. -/
def Stmt.eval (fuel : Nat) (env : Env) (s : Stmt) : EvalM Flow := do
  match fuel with
  | 0 => throw .outOfFuel
  | fuel + 1 =>
    match s with
    | .declare name value => do
      let index ← allocate 0
      let env := (name, .cell index) :: env
      write index (← value.eval fuel env)
      return .next env
    | .assign name value => do
      let index ← cellOf env name
      write index (← value.eval fuel env)
      return .next env
    | .function name params body => return .next ((name, .func params body) :: env)
    | .ret none => return .returned 0
    | .ret (some value) => return .returned (← value.eval fuel env)
    | .cond test body alternative => Stmt.evalBranch fuel env test body alternative
    | .loop first test after body => do
      match ← first.eval fuel env with
      | .returned v => return .returned v
      | .next inner =>
        match ← Stmt.evalLoop fuel inner test after body with
        | some v => return .returned v
        | none => return .next env
    | .block body => Stmt.evalBlock fuel env body
    | .expr value => do
      let _ ← value.eval fuel env
      return .next env
    | .empty => return .next env

/-- Evaluate some statements in order, each with the bindings of those before it. -/
def Stmt.evalAll (fuel : Nat) (env : Env) (body : List Stmt) : EvalM Flow := do
  match fuel with
  | 0 => throw .outOfFuel
  | fuel + 1 =>
    match body with
    | [] => return .next env
    | s :: rest => do
      match ← s.eval fuel env with
      | .returned v => return .returned v
      | .next env => Stmt.evalAll fuel env rest

/-- Evaluate a block. Its bindings end with it. -/
def Stmt.evalBlock (fuel : Nat) (env : Env) (body : List Stmt) : EvalM Flow := do
  match fuel with
  | 0 => throw .outOfFuel
  | fuel + 1 =>
    match ← Stmt.evalAll fuel env body with
    | .returned v => return .returned v
    | .next _ => return .next env

/-- Evaluate a branch or its alternative. -/
def Stmt.evalBranch (fuel : Nat) (env : Env) (test : Expr) (body : List Stmt)
    (alternative : Else) : EvalM Flow := do
  match fuel with
  | 0 => throw .outOfFuel
  | fuel + 1 =>
    if (← test.eval fuel env) ≠ 0 then Stmt.evalBlock fuel env body
    else
      match alternative with
      | .none => return .next env
      | .block body => Stmt.evalBlock fuel env body
      | .cond test body alternative => Stmt.evalBranch fuel env test body alternative

/-- Evaluate the passes of a loop. Returns the value that was returned from it, if any. -/
def Stmt.evalLoop (fuel : Nat) (env : Env) (test : Expr) (after : Stmt) (body : List Stmt) :
    EvalM (Option Value) := do
  match fuel with
  | 0 => throw .outOfFuel
  | fuel + 1 =>
    if (← test.eval fuel env) = 0 then return none
    match ← Stmt.evalBlock fuel env body with
    | .returned v => return some v
    | .next _ =>
      match ← after.eval fuel env with
      | .returned v => return some v
      | .next _ => Stmt.evalLoop fuel env test after body

end

/-- Evaluate a program. At the start only `print` is bound, and no return may stand outside of all
functions. -/
def Program.eval (fuel : Nat) (program : Program) : EvalM Unit := do
  match ← Stmt.evalAll fuel [("print", .print)] program with
  | .next _ => return
  | .returned _ => throw .misplaced

/-- What a program prints, up to where it ends or stops. -/
def eval (fuel : Nat) (program : Program) : EStateM.Result Stop (Array Value) Unit :=
  match (Program.eval fuel program).run ⟨#[], #[]⟩ with
  | .ok _ m => .ok () m.output
  | .error stop m => .error stop m.output

end NestLang
