import NestLang.Tree.Basic

/-!
# Trees without idle parts

`Stmt.erase` and its relatives drop what has no effect: empty statements in lists of statements,
the sign `+`, and the difference between truth values and the numbers `1` and `0`. The operand of a
postfix operator stays as it is, because there only a variable is accepted.
-/

namespace NestLang

mutual

/-- An expression without idle parts. -/
def Expr.erase : Expr → Expr
  | .int value => .int value
  | .bool value => .int (.ofBool value)
  | .var name => .var name
  | .call name args => .call name (Expr.eraseAll args)
  | .unary .plus operand => operand.erase
  | .unary op operand => .unary op operand.erase
  | .binary op left right => .binary op left.erase right.erase
  | .post op operand => .post op operand

/-- Some expressions without idle parts. -/
def Expr.eraseAll : List Expr → List Expr
  | [] => []
  | e :: es => e.erase :: Expr.eraseAll es

end

mutual

/-- A statement without idle parts. -/
def Stmt.erase : Stmt → Stmt
  | .declare name value => .declare name value.erase
  | .assign name value => .assign name value.erase
  | .function name params body => .function name params (Stmt.eraseAll body)
  | .ret value => .ret (value.map Expr.erase)
  | .cond test body alternative => .cond test.erase (Stmt.eraseAll body) alternative.erase
  | .loop first test after body =>
    .loop first.erase test.erase after.erase (Stmt.eraseAll body)
  | .block body => .block (Stmt.eraseAll body)
  | .expr value => .expr value.erase
  | .empty => .empty

/-- Some statements without idle parts, and without those that are empty. -/
def Stmt.eraseAll : List Stmt → List Stmt
  | [] => []
  | .empty :: rest => Stmt.eraseAll rest
  | s :: rest => s.erase :: Stmt.eraseAll rest

/-- An alternative without idle parts. -/
def Else.erase : Else → Else
  | .none => .none
  | .block body => .block (Stmt.eraseAll body)
  | .cond test body alternative => .cond test.erase (Stmt.eraseAll body) alternative.erase

end

end NestLang
