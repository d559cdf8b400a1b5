import NestLang.Proofs.Concatenation
import NestLang.Tree.Erase

/-!
# Idle parts leave no trace

Some parts of a tree write no code of their own: empty statements in lists, the sign `+`, and the
difference between truth values and numbers. The compiler does the same with and without them, in
whatever session it is and also if it fails later on. Only the operand of a postfix operator is an
exception, because its shape is looked at.

* `Expr.bare`, `Stmt.bare`: trees without idle parts.
* `Expr.compile_erase`, `Stmt.compile_erase`: erasing leaves the action of the compiler as it is.
* `compile_congr`: programs whose statements do the same have the same code or the same error.
* `compile_eraseAll`: **a program without its idle parts has the same code, or the same error.**
-/

namespace NestLang

open CompileM

/-! ## Trees without idle parts -/

mutual

/-- The expression has no sign `+` and no truth value outside of the operands of postfix
operators. -/
def Expr.bare : Expr → Bool
  | .int _ | .var _ | .post _ _ => true
  | .bool _ | .unary .plus _ => false
  | .call _ args => Expr.bareAll args
  | .unary _ operand => operand.bare
  | .binary _ left right => left.bare && right.bare

/-- All of the expressions are bare. -/
def Expr.bareAll : List Expr → Bool
  | [] => true
  | e :: es => e.bare && Expr.bareAll es

end

mutual

/-- The expressions of the statement are bare, and no list of statements in it has an empty one. -/
def Stmt.bare : Stmt → Bool
  | .declare _ value | .assign _ value | .expr value => value.bare
  | .function _ _ body | .block body => Stmt.bareAll body
  | .ret value => value.all Expr.bare
  | .cond test body alternative => test.bare && Stmt.bareAll body && alternative.bare
  | .loop first test after body =>
    first.bare && test.bare && after.bare && Stmt.bareAll body
  | .empty => true

/-- All of the statements are bare, and none of them is empty. -/
def Stmt.bareAll : List Stmt → Bool
  | [] => true
  | .empty :: _ => false
  | s :: rest => s.bare && Stmt.bareAll rest

/-- The parts of the alternative are bare. -/
def Else.bare : Else → Bool
  | .none => true
  | .block body => Stmt.bareAll body
  | .cond test body alternative => test.bare && Stmt.bareAll body && alternative.bare

end

theorem Expr.erase_unary {op : UnaryOp} (h : op ≠ .plus) (operand : Expr) :
    (Expr.unary op operand).erase = .unary op operand.erase := by
  rw [Expr.erase]
  exact h

theorem Stmt.eraseAll_cons {s : Stmt} (h : s ≠ .empty) (rest : List Stmt) :
    Stmt.eraseAll (s :: rest) = s.erase :: Stmt.eraseAll rest := by
  rw [Stmt.eraseAll]
  exact h

theorem Stmt.erase_ne_empty {s : Stmt} (h : s ≠ .empty) : s.erase ≠ .empty := by
  cases s with
  | empty => exact absurd rfl h
  | _ => simp [Stmt.erase]

theorem Stmt.bareAll_cons {s : Stmt} (h : s ≠ .empty) (rest : List Stmt) :
    Stmt.bareAll (s :: rest) = (s.bare && Stmt.bareAll rest) := by
  rw [Stmt.bareAll]
  exact h

mutual

theorem Expr.bare_erase : (e : Expr) → e.erase.bare = true
  | .int _ | .bool _ | .var _ | .post _ _ => rfl
  | .call _ args => Expr.bareAll_eraseAll args
  | .unary .plus operand | .unary .not operand | .unary .minus operand => operand.bare_erase
  | .binary _ left right => by
    rw [Expr.erase, Expr.bare, left.bare_erase, right.bare_erase, Bool.and_self]

theorem Expr.bareAll_eraseAll : (es : List Expr) → Expr.bareAll (Expr.eraseAll es) = true
  | [] => rfl
  | e :: es => by
    rw [Expr.eraseAll, Expr.bareAll, e.bare_erase, Expr.bareAll_eraseAll es, Bool.and_self]

end

mutual

theorem Stmt.bare_erase : (s : Stmt) → s.erase.bare = true
  | .declare _ value | .assign _ value | .expr value => value.bare_erase
  | .function _ _ body | .block body => Stmt.bareAll_eraseAll body
  | .ret none | .empty => rfl
  | .ret (some value) => value.bare_erase
  | .cond test body alternative => by
    rw [Stmt.erase, Stmt.bare, test.bare_erase, Stmt.bareAll_eraseAll body,
      alternative.bare_erase, Bool.and_self, Bool.and_self]
  | .loop first test after body => by
    rw [Stmt.erase, Stmt.bare, first.bare_erase, test.bare_erase, after.bare_erase,
      Stmt.bareAll_eraseAll body, Bool.and_self, Bool.and_self, Bool.and_self]

/-- **An erased list of statements has no idle parts.** -/
theorem Stmt.bareAll_eraseAll : (body : List Stmt) → Stmt.bareAll (Stmt.eraseAll body) = true
  | [] => rfl
  | s :: rest => by
    have others := Stmt.bareAll_eraseAll rest
    by_cases h : s = .empty
    · subst h
      exact others
    · rw [Stmt.eraseAll_cons h, Stmt.bareAll_cons (Stmt.erase_ne_empty h), s.bare_erase, others,
        Bool.and_self]

theorem Else.bare_erase : (alternative : Else) → alternative.erase.bare = true
  | .none => rfl
  | .block body => Stmt.bareAll_eraseAll body
  | .cond test body alternative => by
    rw [Else.erase, Else.bare, test.bare_erase, Stmt.bareAll_eraseAll body,
      alternative.bare_erase, Bool.and_self, Bool.and_self]

end

/-! ## The actions of the compiler -/

theorem Expr.compile_plus (operand : Expr) :
    (Expr.unary .plus operand).compile = operand.compile := by
  rw [Expr.compile]
  exact bind_pure_unit

theorem Expr.length_eraseAll (es : List Expr) : (Expr.eraseAll es).length = es.length := by
  induction es with
  | nil => rfl
  | cons e es ih => simp [Expr.eraseAll, ih]

mutual

/-- **An expression without its idle parts** is compiled by the same action. -/
theorem Expr.compile_erase : (e : Expr) → e.erase.compile = e.compile
  | .int _ | .bool _ | .var _ | .post _ _ => rfl
  | .call name args => by
    rw [Expr.erase, Expr.compile, Expr.compile, Expr.length_eraseAll, Expr.compileAll_eraseAll args]
  | .unary op operand => by
    by_cases h : op = .plus
    · subst h
      rw [Expr.erase, Expr.compile_plus, operand.compile_erase]
    · rw [Expr.erase_unary h, Expr.compile, Expr.compile, operand.compile_erase]
  | .binary op left right => by
    rw [Expr.erase, Expr.compile, Expr.compile, left.compile_erase, right.compile_erase]

theorem Expr.compileAll_eraseAll : (es : List Expr) →
    Expr.compileAll (Expr.eraseAll es) = Expr.compileAll es
  | [] => rfl
  | e :: es => by
    rw [Expr.eraseAll, Expr.compileAll, Expr.compileAll, e.compile_erase,
      Expr.compileAll_eraseAll es]

end

mutual

/-- **A statement without its idle parts** is compiled by the same action. -/
theorem Stmt.compile_erase : (s : Stmt) → s.erase.compile = s.compile
  | .declare name value => by
    rw [Stmt.erase, Stmt.compile, Stmt.compile, value.compile_erase]
  | .assign name value => by
    rw [Stmt.erase, Stmt.compile, Stmt.compile, value.compile_erase]
  | .function name params body => by
    rw [Stmt.erase, Stmt.compile, Stmt.compile, Stmt.compileAll_eraseAll body]
  | .ret none | .empty => rfl
  | .ret (some value) => by
    rw [Stmt.erase, Option.map_some, Stmt.compile, Stmt.compile, value.compile_erase]
  | .cond test body alternative => by
    rw [Stmt.erase, Stmt.compile, Stmt.compile, test.compile_erase, Stmt.compileAll_eraseAll body,
      alternative.compile_erase]
  | .loop first test after body => by
    rw [Stmt.erase, Stmt.compile, Stmt.compile, first.compile_erase, test.compile_erase,
      after.compile_erase, Stmt.compileAll_eraseAll body]
  | .block body => by
    rw [Stmt.erase, Stmt.compile, Stmt.compile, Stmt.compileAll_eraseAll body]
  | .expr value => by
    rw [Stmt.erase, Stmt.compile, Stmt.compile, value.compile_erase]

theorem Stmt.compileAll_eraseAll : (body : List Stmt) →
    Stmt.compileAll (Stmt.eraseAll body) = Stmt.compileAll body
  | [] => rfl
  | s :: rest => by
    have others := Stmt.compileAll_eraseAll rest
    by_cases h : s = .empty
    · subst h
      rw [Stmt.eraseAll, others, Stmt.compileAll, Stmt.compile]
      rfl
    · rw [Stmt.eraseAll_cons h, Stmt.compileAll, Stmt.compileAll, s.compile_erase, others]

theorem Else.compile_erase : (alternative : Else) → alternative.erase.compile = alternative.compile
  | .none => rfl
  | .block body => by
    rw [Else.erase, Else.compile, Else.compile, Stmt.compileAll_eraseAll body]
  | .cond test body alternative => by
    rw [Else.erase, Else.compile, Else.compile, test.compile_erase, Stmt.compileAll_eraseAll body,
      alternative.compile_erase]

end

/-! ## Programs -/

/-- **Programs whose statements do the same** have the same code, or fail with the same error. How
many statements each of them has is reported, and makes no difference. -/
theorem compile_congr {p q : Program} (same : Stmt.compileAll p = Stmt.compileAll q) :
    compile p = compile q := by
  have alike : (Session.initial.starting p).Alike (Session.initial.starting q) := ⟨rfl, rfl, rfl⟩
  cases first : Stmt.compileAll p (Session.initial.starting p) with
  | ok _ τ =>
    obtain ⟨τ', second, alike'⟩ := Stmt.compileAll_alike alike first
    rw [same] at second
    rw [compile_of_compileAll first, compile_of_compileAll second, alike'.buffer]
  | error e τ =>
    obtain ⟨τ', second⟩ := Stmt.compileAll_fails_alike alike first
    rw [same] at second
    rw [compile_of_compileAll_error first, compile_of_compileAll_error second]

/-- **Idle parts leave no trace.** Take the empty statements out of all lists of statements of a
program, the sign `+` away from all operands, and write `1` and `0` for the truth values, except in
the operands of postfix operators. No idle part is left then, and the program has the same code as
before, or fails with the same error. -/
theorem compile_eraseAll (program : Program) :
    Stmt.bareAll (Stmt.eraseAll program) = true ∧
      compile (Stmt.eraseAll program) = compile program :=
  ⟨Stmt.bareAll_eraseAll program, compile_congr (Stmt.compileAll_eraseAll program)⟩

/-- In the operand of a postfix operator the sign `+` is not idle. -/
example :
    compile [.declare "x" (.int 0), .expr (.post .increment (.unary .plus (.var "x")))] =
        .error (.invalidOperand .increment) ∧
      (compile [.declare "x" (.int 0), .expr (.post .increment (.var "x"))]).toOption.isSome := by
  decide +kernel

end NestLang
