import NestLang.Tree.Basic

/-!
# The text of a tree

Every compound expression is parenthesised, and every statement of a block stands on lines of its
own, two columns further to the right than the block.

* `Expr.text`, `Stmt.text`: the text of an expression and of a statement.
* `Stmt.linesText`: the lines of a list of statements inside the braces of a block.
-/

namespace NestLang

/-- The text moved two columns to the right, with its last line ended. Line breaks inside names are
line breaks like any other. -/
def indented (text : String) : String :=
  "  " ++ String.ofList (text.toList.flatMap fun c => if c = '\n' then ['\n', ' ', ' '] else [c]) ++
    "\n"

/-- The lines of a block between its braces. -/
def braced (lines : String) : String := "\x7b\n" ++ lines ++ "\x7d"

mutual

/-- The text of an expression. -/
def Expr.text : Expr → String
  | .int value => value.text
  | .bool value => if value then "true" else "false"
  | .var name => name
  | .call name args => name ++ "(" ++ ", ".intercalate (Expr.texts args) ++ ")"
  | .unary op operand => "(" ++ op.symbol ++ operand.text ++ ")"
  | .binary op left right => "(" ++ left.text ++ " " ++ op.symbol ++ " " ++ right.text ++ ")"
  | .post op operand => "(" ++ operand.text ++ op.symbol ++ ")"

/-- The texts of the expressions of a list. -/
def Expr.texts : List Expr → List String
  | [] => []
  | e :: es => e.text :: Expr.texts es

end

mutual

/-- The text of a statement, without a line break at its end. -/
def Stmt.text : Stmt → String
  | .declare name value => "let " ++ name ++ " = " ++ value.text
  | .assign name value => name ++ " = " ++ value.text
  | .function name params body =>
    "function " ++ name ++ "(" ++ ", ".intercalate params ++ ") " ++ braced (Stmt.linesText body)
  | .ret none => "return"
  | .ret (some value) => "return " ++ value.text
  | .cond test body alternative =>
    "if(" ++ test.text ++ ") " ++ braced (Stmt.linesText body) ++ alternative.text
  | .loop first test after body =>
    "for(" ++ first.text ++ "; " ++ test.text ++ "; " ++ after.text ++ ") " ++
      braced (Stmt.linesText body)
  | .block body => braced (Stmt.linesText body)
  | .expr value => value.text
  | .empty => ""

/-- The lines of the statements of a block. -/
def Stmt.linesText : List Stmt → String
  | [] => ""
  | s :: rest => indented s.text ++ Stmt.linesText rest

/-- The text of an alternative, which follows the closing brace of the branch before it. -/
def Else.text : Else → String
  | .none => ""
  | .block body => " else " ++ braced (Stmt.linesText body)
  | .cond test body alternative =>
    " else if(" ++ test.text ++ ") " ++ braced (Stmt.linesText body) ++ alternative.text

end

end NestLang
