import NestLang.Tree.Basic

/-!
# Regular programs

Two conditions on the text of a program under which its compiled form is well behaved.

* `Program.ReturnsInside`: every return stands inside a function.
* `Program.NoLateDeclare`: no loop declares a variable after each of its passes.
-/

namespace NestLang

/-- The statement declares a variable. -/
def Stmt.isDeclare : Stmt → Bool
  | .declare _ _ => true
  | _ => false

mutual

/-- Every return in the statement stands inside a function, where `inside` says whether the
statement itself does. -/
def Stmt.returnsInside (inside : Bool) : Stmt → Bool
  | .ret _ => inside
  | .function _ _ body => Stmt.returnsInsideAll true body
  | .cond _ body alternative =>
    Stmt.returnsInsideAll inside body && alternative.returnsInside inside
  | .loop first _ after body =>
    first.returnsInside inside && after.returnsInside inside && Stmt.returnsInsideAll inside body
  | .block body => Stmt.returnsInsideAll inside body
  | .declare _ _ | .assign _ _ | .expr _ | .empty => true

/-- Every return in some statements stands inside a function. -/
def Stmt.returnsInsideAll (inside : Bool) : List Stmt → Bool
  | [] => true
  | s :: rest => s.returnsInside inside && Stmt.returnsInsideAll inside rest

/-- Every return in an alternative stands inside a function. -/
def Else.returnsInside (inside : Bool) : Else → Bool
  | .none => true
  | .block body => Stmt.returnsInsideAll inside body
  | .cond _ body alternative =>
    Stmt.returnsInsideAll inside body && alternative.returnsInside inside

end

mutual

/-- No loop in the statement declares a variable after each pass. -/
def Stmt.noLateDeclare : Stmt → Bool
  | .function _ _ body => Stmt.noLateDeclareAll body
  | .cond _ body alternative => Stmt.noLateDeclareAll body && alternative.noLateDeclare
  | .loop first _ after body =>
    first.noLateDeclare && after.noLateDeclare && !after.isDeclare && Stmt.noLateDeclareAll body
  | .block body => Stmt.noLateDeclareAll body
  | .declare _ _ | .assign _ _ | .ret _ | .expr _ | .empty => true

/-- No loop in some statements declares a variable after each pass. -/
def Stmt.noLateDeclareAll : List Stmt → Bool
  | [] => true
  | s :: rest => s.noLateDeclare && Stmt.noLateDeclareAll rest

/-- No loop in an alternative declares a variable after each pass. -/
def Else.noLateDeclare : Else → Bool
  | .none => true
  | .block body => Stmt.noLateDeclareAll body
  | .cond _ body alternative => Stmt.noLateDeclareAll body && alternative.noLateDeclare

end

/-- No return stands outside of all functions. -/
def Program.ReturnsInside (program : Program) : Prop :=
  Stmt.returnsInsideAll false program = true

/-- No loop declares a variable after each of its passes. -/
def Program.NoLateDeclare (program : Program) : Prop := Stmt.noLateDeclareAll program = true

instance (program : Program) : Decidable program.ReturnsInside :=
  inferInstanceAs (Decidable (_ = true))

instance (program : Program) : Decidable program.NoLateDeclare :=
  inferInstanceAs (Decidable (_ = true))

end NestLang
