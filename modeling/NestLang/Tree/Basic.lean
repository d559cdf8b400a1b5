import NestLang.Operator

/-!
# Programs as trees

A program is a list of statements. Names are arbitrary strings and are compared exactly. The body
of a function, of a branch and of a loop is a list of statements in a block of its own.
-/

namespace NestLang

/-- Expressions. The operand of a postfix operator may be any expression here; only variables are
accepted there by the compiler. -/
inductive Expr
  | int (value : Value)
  | bool (value : Bool)
  | var (name : String)
  | call (name : String) (args : List Expr)
  | unary (op : UnaryOp) (operand : Expr)
  | binary (op : BinaryOp) (left right : Expr)
  | post (op : PostOp) (operand : Expr)

mutual

/-- Statements. The header of a loop holds two statements of any kind, one run before the loop and
one after each pass. -/
inductive Stmt
  | declare (name : String) (value : Expr)
  | assign (name : String) (value : Expr)
  | function (name : String) (params : List String) (body : List Stmt)
  | ret (value : Option Expr)
  | cond (test : Expr) (body : List Stmt) (alternative : Else)
  | loop (first : Stmt) (test : Expr) (after : Stmt) (body : List Stmt)
  | block (body : List Stmt)
  | expr (value : Expr)
  | empty

/-- What a conditional does when its test fails. -/
inductive Else
  | none
  | block (body : List Stmt)
  | cond (test : Expr) (body : List Stmt) (alternative : Else)

end

/-- A program is the list of its top-level statements. -/
abbrev Program := List Stmt

end NestLang
