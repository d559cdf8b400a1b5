import NestLang.Tree.Basic

/-!
# Landmarks of compiled code

How long the code of a statement is does not depend on the names around it, so the program alone
tells at which addresses bodies start and where functions and blocks are left.

* `Expr.codeLength`, `Stmt.codeLength`: the number of instructions of an expression and of a
  statement.
* `Landmark`: what can be found at an address.
* `Program.landmarks`: all landmarks of a program with their addresses.
* `Program.landmark?_eq_some`: **no address has two landmarks.**
-/

namespace NestLang

/-! ## Lengths -/

/-- The number of instructions of a unary operator. -/
def UnaryOp.codeLength : UnaryOp → Nat
  | .not | .minus => 1
  | .plus => 0

mutual

/-- The number of instructions of an expression. -/
def Expr.codeLength : Expr → Nat
  | .int _ | .bool _ | .var _ => 1
  | .call _ args => Expr.codeLengthAll args + 1
  | .unary op operand => operand.codeLength + op.codeLength
  | .binary _ left right => left.codeLength + right.codeLength + 1
  | .post _ _ => 5

/-- The number of instructions of some expressions. -/
def Expr.codeLengthAll : List Expr → Nat
  | [] => 0
  | e :: es => e.codeLength + Expr.codeLengthAll es

end

/-- The number of instructions of a block around a body of some length. -/
def blockLength (length : Nat) : Nat := 5 + (length + 6)

mutual

/-- The number of instructions of a statement. -/
def Stmt.codeLength : Stmt → Nat
  | .declare _ value => value.codeLength + 2
  | .assign _ value => value.codeLength + 1
  | .function _ _ body => Stmt.codeLengthAll body + 3
  | .ret none => 2
  | .ret (some value) => value.codeLength + 1
  | .cond test body alternative =>
    test.codeLength + 2 + blockLength (Stmt.codeLengthAll body) + 1 + alternative.codeLength
  | .loop first test after body =>
    blockLength (first.codeLength + test.codeLength + 2 + blockLength (Stmt.codeLengthAll body) +
      after.codeLength + 1)
  | .block body => blockLength (Stmt.codeLengthAll body)
  | .expr value => value.codeLength + 1
  | .empty => 0

/-- The number of instructions of some statements. -/
def Stmt.codeLengthAll : List Stmt → Nat
  | [] => 0
  | s :: rest => s.codeLength + Stmt.codeLengthAll rest

/-- The number of instructions of an alternative. -/
def Else.codeLength : Else → Nat
  | .none => 0
  | .block body => blockLength (Stmt.codeLengthAll body)
  | .cond test body alternative =>
    test.codeLength + 2 + blockLength (Stmt.codeLengthAll body) + 1 + alternative.codeLength

end

/-! ## Landmarks -/

/-- What can be found at an address. -/
inductive Landmark
  /-- The body of a function with so many parameters starts here. -/
  | function (params : Nat)
  /-- The body of a block starts here. -/
  | block
  /-- A return statement gives its value back here, inside so many blocks of the function whose body
  starts at `entry`. -/
  | ret (blocks entry params : Nat)
  /-- The block whose body starts at `entry` is left here at its end. -/
  | exit (entry : Nat)
  deriving DecidableEq

/-- Where a statement stands: inside so many blocks of the function whose body starts at `entry`.
All are `0` outside of functions. -/
structure Surrounding where
  blocks : Nat
  entry : Nat
  params : Nat

/-- Inside one more block. -/
def Surrounding.enterBlock (r : Surrounding) : Surrounding := { r with blocks := r.blocks + 1 }

/-- A return statement that stands there. -/
def Surrounding.ret (r : Surrounding) : Landmark := .ret r.blocks r.entry r.params

/-- The landmarks of a block at address `a` around a body of some length. -/
def blockLandmarks (r : Surrounding) (a length : Nat)
    (body : Surrounding → Nat → List (Nat × Landmark)) : List (Nat × Landmark) :=
  (a + 5, .block) :: (body r.enterBlock (a + 5) ++ [(a + 5 + length + 3, .exit (a + 5))])

mutual

/-- The landmarks of a statement at address `a`. -/
def Stmt.landmarks (r : Surrounding) (a : Nat) : Stmt → List (Nat × Landmark)
  | .declare _ _ | .assign _ _ | .expr _ | .empty => []
  | .function _ names body =>
    (a + 1, .function names.length) :: Stmt.landmarksAll ⟨0, a + 1, names.length⟩ (a + 1) body
  | .ret none => [(a + 1, r.ret)]
  | .ret (some value) => [(a + value.codeLength, r.ret)]
  | .cond test body alternative =>
    blockLandmarks r (a + test.codeLength + 2) (Stmt.codeLengthAll body)
        (fun r a => Stmt.landmarksAll r a body) ++
      alternative.landmarks r
        (a + test.codeLength + 2 + blockLength (Stmt.codeLengthAll body) + 1)
  | .loop first test after body =>
    blockLandmarks r a
      (first.codeLength + test.codeLength + 2 + blockLength (Stmt.codeLengthAll body) +
        after.codeLength + 1)
      fun r a =>
        first.landmarks r a ++
          (blockLandmarks r (a + first.codeLength + test.codeLength + 2) (Stmt.codeLengthAll body)
              (fun r a => Stmt.landmarksAll r a body) ++
            after.landmarks r (a + first.codeLength + test.codeLength + 2 +
              blockLength (Stmt.codeLengthAll body)))
  | .block body =>
    blockLandmarks r a (Stmt.codeLengthAll body) fun r a => Stmt.landmarksAll r a body

/-- The landmarks of some statements. -/
def Stmt.landmarksAll (r : Surrounding) (a : Nat) : List Stmt → List (Nat × Landmark)
  | [] => []
  | s :: rest => s.landmarks r a ++ Stmt.landmarksAll r (a + s.codeLength) rest

/-- The landmarks of an alternative. -/
def Else.landmarks (r : Surrounding) (a : Nat) : Else → List (Nat × Landmark)
  | .none => []
  | .block body =>
    blockLandmarks r a (Stmt.codeLengthAll body) fun r a => Stmt.landmarksAll r a body
  | .cond test body alternative =>
    blockLandmarks r (a + test.codeLength + 2) (Stmt.codeLengthAll body)
        (fun r a => Stmt.landmarksAll r a body) ++
      alternative.landmarks r
        (a + test.codeLength + 2 + blockLength (Stmt.codeLengthAll body) + 1)

end

/-- The landmarks of a program. The body of `print` starts at address `1`, and the code of the
program itself at address `5`. -/
def Program.landmarks (program : Program) : List (Nat × Landmark) :=
  (1, .function 1) :: Stmt.landmarksAll ⟨0, 0, 0⟩ 5 program

/-- The landmark at an address. -/
def Program.landmark? (program : Program) (a : Nat) : Option Landmark := program.landmarks.lookup a

/-! ## No address has two landmarks -/

/-- The landmarks are in order and lie strictly between two addresses. -/
structure Spread (a b : Nat) (l : List (Nat × Landmark)) : Prop where
  sorted : l.Pairwise fun x y => x.1 < y.1
  within : ∀ x ∈ l, a < x.1 ∧ x.1 < b

namespace Spread

variable {a b c d : Nat} {l l₁ l₂ : List (Nat × Landmark)}

theorem nil : Spread a b [] := ⟨.nil, nofun⟩

theorem singleton {x : Nat} {landmark : Landmark} (lower : a < x) (upper : x < b) :
    Spread a b [(x, landmark)] where
  sorted := List.pairwise_singleton _ _
  within := fun y hy => by
    obtain rfl := List.mem_singleton.1 hy
    exact ⟨lower, upper⟩

theorem append (h₁ : Spread a b l₁) (h₂ : Spread c d l₂) (first : a ≤ c) (middle : b ≤ c + 1)
    (last : b ≤ d) : Spread a d (l₁ ++ l₂) where
  sorted := by
    refine List.pairwise_append.2 ⟨h₁.sorted, h₂.sorted, fun x hx y hy => ?_⟩
    have := (h₁.within x hx).2
    have := (h₂.within y hy).1
    omega
  within := fun x hx => by
    rcases List.mem_append.1 hx with hx | hx
    · have := h₁.within x hx
      omega
    · have := h₂.within x hx
      omega

theorem cons {x : Nat} {landmark : Landmark} (h : Spread x b l) (lower : a < x) (upper : x < b) :
    Spread a b ((x, landmark) :: l) :=
  (singleton lower (Nat.lt_succ_self x)).append h (Nat.le_of_lt lower) (Nat.le_refl _) upper

theorem mono (h : Spread b c l) (first : a ≤ b) (last : c ≤ d) : Spread a d l where
  sorted := h.sorted
  within := fun x hx => by
    have := h.within x hx
    omega

theorem block {body : Surrounding → Nat → List (Nat × Landmark)} {length : Nat} (r : Surrounding)
    (a : Nat) (h : ∀ r a, Spread a (a + length) (body r a)) :
    Spread a (a + blockLength length) (blockLandmarks r a length body) := by
  unfold blockLandmarks blockLength
  have inner : Spread (a + 5) (a + 5 + length) (body r.enterBlock (a + 5)) := h _ _
  refine cons (inner.append (c := a + 5 + length) (singleton ?_ ?_) ?_ ?_ ?_) ?_ ?_
  all_goals omega

theorem lookup_eq_some (h : Spread a b l) {x : Nat × Landmark} (hx : x ∈ l) :
    l.lookup x.1 = some x.2 := by
  have sorted := h.sorted
  clear h
  induction l with
  | nil => cases hx
  | cons y l ih =>
    rw [List.pairwise_cons] at sorted
    rcases List.mem_cons.1 hx with rfl | hx
    · exact List.lookup_cons_self
    · have ne : (x.1 == y.1) = false := beq_false_of_ne (Nat.ne_of_gt (sorted.1 x hx))
      rw [List.lookup_cons, ne]
      exact ih hx sorted.2

end Spread

theorem Expr.codeLength_pos : ∀ e : Expr, 0 < e.codeLength
  | .int _ | .bool _ | .var _ | .call _ _ | .binary _ _ _ | .post _ _ => Nat.succ_pos _
  | .unary _ operand => Nat.lt_of_lt_of_le operand.codeLength_pos (Nat.le_add_right _ _)

mutual

theorem Stmt.spread (r : Surrounding) (a : Nat) :
    ∀ s : Stmt, Spread a (a + s.codeLength) (s.landmarks r a)
  | .declare _ _ | .assign _ _ | .expr _ | .empty => .nil
  | .function _ names body => by
    have inner := Stmt.spreadAll ⟨0, a + 1, names.length⟩ (a + 1) body
    simp only [Stmt.codeLength]
    refine .cons (inner.mono (Nat.le_refl _) ?_) (Nat.lt_succ_self a) ?_
    all_goals omega
  | .ret none => .singleton (Nat.lt_succ_self a) (Nat.lt_succ_self _)
  | .ret (some value) => by
    have pos := value.codeLength_pos
    exact .singleton (Nat.lt_add_of_pos_right pos) (Nat.lt_succ_self _)
  | .cond test body alternative => by
    have first := Spread.block r (a + test.codeLength + 2) fun r a => Stmt.spreadAll r a body
    have second := alternative.spread r
      (a + test.codeLength + 2 + blockLength (Stmt.codeLengthAll body) + 1)
    simp only [Stmt.codeLength]
    refine ((first.append second ?_ ?_ ?_).mono ?_ ?_)
    all_goals omega
  | .loop first test after body => by
    refine Spread.block r a fun r a => ?_
    have head := first.spread r a
    have pass := Spread.block r (a + first.codeLength + test.codeLength + 2)
      fun r a => Stmt.spreadAll r a body
    have update := after.spread r (a + first.codeLength + test.codeLength + 2 +
      blockLength (Stmt.codeLengthAll body))
    refine (head.append (pass.append update ?_ ?_ ?_) ?_ ?_ ?_).mono ?_ ?_
    all_goals omega
  | .block body => Spread.block r a fun r a => Stmt.spreadAll r a body

theorem Stmt.spreadAll (r : Surrounding) (a : Nat) :
    ∀ body : List Stmt, Spread a (a + Stmt.codeLengthAll body) (Stmt.landmarksAll r a body)
  | [] => .nil
  | s :: rest => by
    have head := s.spread r a
    have tail := Stmt.spreadAll r (a + s.codeLength) rest
    simp only [Stmt.codeLengthAll]
    refine (head.append tail ?_ ?_ ?_).mono (Nat.le_refl _) ?_
    all_goals omega

theorem Else.spread (r : Surrounding) (a : Nat) :
    ∀ alternative : Else, Spread a (a + alternative.codeLength) (alternative.landmarks r a)
  | .none => .nil
  | .block body => Spread.block r a fun r a => Stmt.spreadAll r a body
  | .cond test body alternative => by
    have first := Spread.block r (a + test.codeLength + 2) fun r a => Stmt.spreadAll r a body
    have second := alternative.spread r
      (a + test.codeLength + 2 + blockLength (Stmt.codeLengthAll body) + 1)
    simp only [Else.codeLength]
    refine ((first.append second ?_ ?_ ?_).mono ?_ ?_)
    all_goals omega

end

/-- **No address has two landmarks.** -/
theorem Program.landmark?_eq_some {program : Program} {a : Nat} {l : Landmark} :
    program.landmark? a = some l ↔ (a, l) ∈ program.landmarks := by
  have spread : Spread 0 (5 + Stmt.codeLengthAll program) program.landmarks :=
    .cons ((Stmt.spreadAll ⟨0, 0, 0⟩ 5 program).mono (by decide) (Nat.le_refl _)) (by decide)
      (by omega)
  refine ⟨fun h => ?_, fun h => spread.lookup_eq_some h⟩
  obtain ⟨l₁, l₂, eq, -⟩ := List.lookup_eq_some_iff.1 h
  rw [eq]
  exact List.mem_append_right _ List.mem_cons_self

end NestLang
