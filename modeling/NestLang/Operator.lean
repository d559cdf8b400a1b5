import NestLang.Value

/-!
# Operators

The operators of expressions. The twelve binary operators are also the binary instructions of the
machine, so each has a symbol for expressions, a mnemonic for instructions and one meaning.

* `UnaryOp.apply`: the meaning of a unary operator.
* `BinaryOp.apply?`: the meaning of a binary operator, undefined only for a division by zero.
* `PostOp.delta`: what a postfix operator adds to its variable.
-/

namespace NestLang

/-- The operators written before their operand. -/
inductive UnaryOp
  | not | minus | plus
  deriving DecidableEq

/-- The operators written between their operands. -/
inductive BinaryOp
  | add | sub | mul | div
  | eq | ne | lt | le | gt | ge
  | and | or
  deriving DecidableEq

/-- The operators written after their operand, which has to be a variable. -/
inductive PostOp
  | increment | decrement
  deriving DecidableEq

/-- How the operator is written in an expression. -/
def UnaryOp.symbol : UnaryOp → String
  | .not => "!"
  | .minus => "-"
  | .plus => "+"

/-- How the operator is written in an expression. -/
def BinaryOp.symbol : BinaryOp → String
  | .add => "+"
  | .sub => "-"
  | .mul => "*"
  | .div => "/"
  | .eq => "=="
  | .ne => "!="
  | .lt => "<"
  | .le => "<="
  | .gt => ">"
  | .ge => ">="
  | .and => "&&"
  | .or => "||"

/-- How the operator is written as an instruction. -/
def BinaryOp.mnemonic : BinaryOp → String
  | .add => "add"
  | .sub => "sub"
  | .mul => "mul"
  | .div => "div"
  | .eq => "eq"
  | .ne => "neq"
  | .lt => "lss"
  | .le => "leq"
  | .gt => "grt"
  | .ge => "geq"
  | .and => "and"
  | .or => "or"

/-- How the operator is written in an expression. -/
def PostOp.symbol : PostOp → String
  | .increment => "++"
  | .decrement => "--"

/-- The value that the operator adds to its variable. -/
def PostOp.delta : PostOp → Value
  | .increment => 1
  | .decrement => -1

/-- The value of an operator applied to `v`. -/
def UnaryOp.apply (op : UnaryOp) (v : Value) : Value :=
  match op with
  | .not => .ofBool (v = 0)
  | .minus => -v
  | .plus => v

/-- The value of `a op b`, or `none` for a division by zero. Arithmetic wraps, division goes toward
zero, and comparisons and logic give `1` or `0`. -/
def BinaryOp.apply? (op : BinaryOp) (a b : Value) : Option Value :=
  match op with
  | .add => some (a + b)
  | .sub => some (a - b)
  | .mul => some (a * b)
  | .div => if b = 0 then none else some (a / b)
  | .eq => some (.ofBool (a = b))
  | .ne => some (.ofBool (a ≠ b))
  | .lt => some (.ofBool (a < b))
  | .le => some (.ofBool (a ≤ b))
  | .gt => some (.ofBool (a > b))
  | .ge => some (.ofBool (a ≥ b))
  | .and => some (.ofBool (a ≠ 0 ∧ b ≠ 0))
  | .or => some (.ofBool (a ≠ 0 ∨ b ≠ 0))

end NestLang
