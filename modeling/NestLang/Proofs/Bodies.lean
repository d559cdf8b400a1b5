import NestLang.Compile.Error
import NestLang.Proofs.Chart

/-!
# Bodies of functions and blocks

Where the bodies of functions and blocks lie in the code of a program. The program alone tells, and
the bodies are nested like the functions and blocks themselves.

* `Body`, `Program.bodies`: the range of a body, and all bodies of a program, those outside first.
* `enclosing`: the bodies around an address, from the outside in.
* `Nested`, `Part.nested`: **bodies are properly nested.**
* `Nested.enclosing_eq`: addresses directly inside the same body have the same bodies around them.
-/

namespace NestLang

/-- The code of a body, from its first address up to the one behind its last. -/
structure Body where
  kind : LevelKind
  entry : Nat
  stop : Nat
  deriving DecidableEq

/-- The address lies in the body. -/
def Body.contains (b : Body) (a : Nat) : Bool := b.entry ≤ a && a < b.stop

/-- The bodies around an address. -/
def enclosing (bodies : List Body) (a : Nat) : List Body := bodies.filter (·.contains a)

/-- The bodies of a block at address `a` around a body of some length. -/
def blockBodies (a length : Nat) (body : Nat → List Body) : List Body :=
  ⟨.block, a + 5, a + 5 + length + 4⟩ :: body (a + 5)

mutual

/-- The bodies in a statement at address `a`. -/
def Stmt.bodies (a : Nat) : Stmt → List Body
  | .declare _ _ | .assign _ _ | .ret _ | .expr _ | .empty => []
  | .function _ _ body =>
    ⟨.function, a + 1, a + 1 + Stmt.codeLengthAll body + 2⟩ :: Stmt.bodiesAll (a + 1) body
  | .cond test body alternative =>
    blockBodies (a + test.codeLength + 2) (Stmt.codeLengthAll body)
        (fun a => Stmt.bodiesAll a body) ++
      alternative.bodies (a + test.codeLength + 2 + blockLength (Stmt.codeLengthAll body) + 1)
  | .loop first test after body =>
    blockBodies a
      (first.codeLength + test.codeLength + 2 + blockLength (Stmt.codeLengthAll body) +
        after.codeLength + 1)
      fun a =>
        first.bodies a ++
          (blockBodies (a + first.codeLength + test.codeLength + 2) (Stmt.codeLengthAll body)
              (fun a => Stmt.bodiesAll a body) ++
            after.bodies (a + first.codeLength + test.codeLength + 2 +
              blockLength (Stmt.codeLengthAll body)))
  | .block body => blockBodies a (Stmt.codeLengthAll body) fun a => Stmt.bodiesAll a body

/-- The bodies in some statements. -/
def Stmt.bodiesAll (a : Nat) : List Stmt → List Body
  | [] => []
  | s :: rest => s.bodies a ++ Stmt.bodiesAll (a + s.codeLength) rest

/-- The bodies in an alternative. -/
def Else.bodies (a : Nat) : Else → List Body
  | .none => []
  | .block body => blockBodies a (Stmt.codeLengthAll body) fun a => Stmt.bodiesAll a body
  | .cond test body alternative =>
    blockBodies (a + test.codeLength + 2) (Stmt.codeLengthAll body)
        (fun a => Stmt.bodiesAll a body) ++
      alternative.bodies (a + test.codeLength + 2 + blockLength (Stmt.codeLengthAll body) + 1)

end

/-- The bodies in a part. -/
def Part.bodies : Part → Nat → List Body
  | .stmt s, a => s.bodies a
  | .stmts body, a => Stmt.bodiesAll a body
  | .otherwise alternative, a => alternative.bodies a
  | .passes first test after body, a =>
    first.bodies a ++
      (blockBodies (a + first.codeLength + test.codeLength + 2) (Stmt.codeLengthAll body)
          (fun a => Stmt.bodiesAll a body) ++
        after.bodies (a + first.codeLength + test.codeLength + 2 +
          blockLength (Stmt.codeLengthAll body)))
  | .block content, a => blockBodies a content.codeLength fun a => content.bodies a

/-- The bodies of a program, each before those inside it. The first one is that of `print`, and the
code of the program itself starts at address `5`. -/
def Program.bodies (program : Program) : List Body :=
  ⟨.function, 1, 5⟩ :: Stmt.bodiesAll 5 program

/-! ## Nesting -/

/-- The second body lies inside the first one or behind it. -/
def Body.Apart (b c : Body) : Prop := (b.entry < c.entry ∧ c.stop < b.stop) ∨ b.stop ≤ c.entry

/-- The bodies are properly nested, each before those inside it and behind it, and lie between two
addresses. -/
structure Nested (a b : Nat) (l : List Body) : Prop where
  apart : l.Pairwise Body.Apart
  within : ∀ x ∈ l, a < x.entry ∧ x.entry < x.stop ∧ x.stop ≤ b

namespace Nested

variable {a b c d : Nat} {l l₁ l₂ : List Body}

theorem nil : Nested a b [] := ⟨.nil, nofun⟩

theorem mono (h : Nested b c l) (first : a ≤ b) (last : c ≤ d) : Nested a d l where
  apart := h.apart
  within := fun x hx => by
    have := h.within x hx
    omega

theorem append (h₁ : Nested a b l₁) (h₂ : Nested c d l₂) (first : a ≤ c) (middle : b ≤ c)
    (last : b ≤ d) : Nested a d (l₁ ++ l₂) where
  apart := by
    refine List.pairwise_append.2 ⟨h₁.apart, h₂.apart, fun x hx y hy => .inr ?_⟩
    have := h₁.within x hx
    have := h₂.within y hy
    omega
  within := fun x hx => by
    rcases List.mem_append.1 hx with hx | hx
    · have := h₁.within x hx
      omega
    · have := h₂.within x hx
      omega

theorem cons {kind : LevelKind} {entry stop : Nat} (h : Nested entry c l) (inside : c < stop)
    (nonempty : entry < stop) (first : a < entry) (last : stop ≤ b) :
    Nested a b (⟨kind, entry, stop⟩ :: l) where
  apart := by
    refine List.pairwise_cons.2 ⟨fun x hx => .inl ?_, h.apart⟩
    have := h.within x hx
    dsimp only
    omega
  within := fun x hx => by
    rcases List.mem_cons.1 hx with rfl | hx
    · exact ⟨first, nonempty, last⟩
    · have := h.within x hx
      omega

theorem block {length : Nat} {body : Nat → List Body} (a : Nat)
    (h : ∀ a, Nested a (a + length) (body a)) :
    Nested a (a + blockLength length) (blockBodies a length body) := by
  unfold blockLength
  refine cons (h (a + 5)) ?_ ?_ ?_ ?_
  all_goals omega

theorem enclosing_of_le (h : Nested a b l) {x : Nat} (le : x ≤ a) : enclosing l x = [] := by
  refine List.filter_eq_nil_iff.2 fun y hy => ?_
  have := h.within y hy
  simp only [Body.contains, Bool.and_eq_true, decide_eq_true_eq]
  omega

theorem enclosing_of_ge (h : Nested a b l) {x : Nat} (ge : b ≤ x) : enclosing l x = [] := by
  refine List.filter_eq_nil_iff.2 fun y hy => ?_
  have := h.within y hy
  simp only [Body.contains, Bool.and_eq_true, decide_eq_true_eq]
  omega

/-- **Directly inside a body** the bodies around are those around its first address. -/
theorem enclosing_eq (h : Nested a b l) {x : Nat} {body : Body}
    (innermost : (enclosing l x).getLast? = some body) :
    enclosing l x = enclosing l body.entry := by
  have found : l.reverse.find? (·.contains x) = some body := by
    rw [← innermost, enclosing, ← List.head?_filter, List.filter_reverse, List.head?_reverse]
  obtain ⟨hx, after, before, reverse, none⟩ := List.find?_eq_some_iff_append.1 found
  have split : l = before.reverse ++ body :: after.reverse := by
    rw [← List.reverse_reverse l, reverse]
    simp
  have apart := h.apart
  rw [split, List.pairwise_append, List.pairwise_cons] at apart
  obtain ⟨-, ⟨inner, -⟩, outer⟩ := apart
  have nonempty := (h.within body (by simp [split])).2.1
  simp only [Body.contains, Bool.and_eq_true, decide_eq_true_eq] at hx
  refine List.filter_congr fun y hy => ?_
  rw [Bool.eq_iff_iff]
  simp only [Body.contains, Bool.and_eq_true, decide_eq_true_eq]
  rw [split, List.mem_append, List.mem_cons] at hy
  rcases hy with hy | rfl | hy
  · have := outer y hy body List.mem_cons_self
    unfold Body.Apart at this
    omega
  · omega
  · have apart := inner y hy
    have misses := none y (List.mem_reverse.1 hy)
    simp only [Body.contains, Bool.not_eq_true', Bool.and_eq_false_iff, decide_eq_false_iff_not]
      at misses
    unfold Body.Apart at apart
    omega

end Nested

theorem Nested.cond {test : Expr} {body : List Stmt} {alternative : Else} (a : Nat)
    (hbody : ∀ a, Nested a (a + Stmt.codeLengthAll body) (Stmt.bodiesAll a body))
    (hother : ∀ a, Nested a (a + alternative.codeLength) (alternative.bodies a)) :
    Nested a
      (a + (test.codeLength + 2 + blockLength (Stmt.codeLengthAll body) + 1 +
        alternative.codeLength))
      (blockBodies (a + test.codeLength + 2) (Stmt.codeLengthAll body)
          (fun a => Stmt.bodiesAll a body) ++
        alternative.bodies
          (a + test.codeLength + 2 + blockLength (Stmt.codeLengthAll body) + 1)) := by
  have first := Nested.block (a + test.codeLength + 2) hbody
  have second := hother (a + test.codeLength + 2 + blockLength (Stmt.codeLengthAll body) + 1)
  refine (first.append second ?_ ?_ ?_).mono ?_ ?_
  all_goals omega

theorem Nested.passes {first after : Stmt} {test : Expr} {body : List Stmt} (a : Nat)
    (hfirst : ∀ a, Nested a (a + first.codeLength) (first.bodies a))
    (hafter : ∀ a, Nested a (a + after.codeLength) (after.bodies a))
    (hbody : ∀ a, Nested a (a + Stmt.codeLengthAll body) (Stmt.bodiesAll a body)) :
    Nested a (a + (Part.passes first test after body).codeLength)
      ((Part.passes first test after body).bodies a) := by
  have head := hfirst a
  have pass := Nested.block (a + first.codeLength + test.codeLength + 2) hbody
  have update := hafter (a + first.codeLength + test.codeLength + 2 +
    blockLength (Stmt.codeLengthAll body))
  simp only [Part.codeLength]
  refine (head.append (pass.append update ?_ ?_ ?_) ?_ ?_ ?_).mono ?_ ?_
  all_goals omega

mutual

theorem Stmt.nested : ∀ (s : Stmt) (a : Nat), Nested a (a + s.codeLength) (s.bodies a)
  | .declare _ _, _ | .assign _ _, _ | .ret _, _ | .expr _, _ | .empty, _ => .nil
  | .function _ _ body, a => by
    have inner := Stmt.nestedAll body (a + 1)
    simp only [Stmt.codeLength]
    refine .cons inner ?_ ?_ ?_ ?_
    all_goals omega
  | .cond _ body alternative, a => .cond a (Stmt.nestedAll body) alternative.nested
  | .loop first _ after body, a =>
    .block a fun a => .passes a first.nested after.nested (Stmt.nestedAll body)
  | .block body, a => .block a (Stmt.nestedAll body)

theorem Stmt.nestedAll :
    ∀ (body : List Stmt) (a : Nat), Nested a (a + Stmt.codeLengthAll body) (Stmt.bodiesAll a body)
  | [], _ => .nil
  | s :: rest, a => by
    have head := s.nested a
    have tail := Stmt.nestedAll rest (a + s.codeLength)
    simp only [Stmt.codeLengthAll]
    refine (head.append tail ?_ ?_ ?_).mono ?_ ?_
    all_goals omega

theorem Else.nested :
    ∀ (alternative : Else) (a : Nat),
      Nested a (a + alternative.codeLength) (alternative.bodies a)
  | .none, _ => .nil
  | .block body, a => .block a (Stmt.nestedAll body)
  | .cond _ body alternative, a => .cond a (Stmt.nestedAll body) alternative.nested

end

/-- **The bodies of a part are properly nested**, and lie in its code. -/
theorem Part.nested : ∀ (part : Part) (a : Nat), Nested a (a + part.codeLength) (part.bodies a)
  | .stmt s, a => s.nested a
  | .stmts body, a => Stmt.nestedAll body a
  | .otherwise alternative, a => alternative.nested a
  | .passes first _ after body, a => .passes a first.nested after.nested (Stmt.nestedAll body)
  | .block content, a => .block a content.nested

theorem Program.nested (program : Program) :
    Nested 0 (5 + Stmt.codeLengthAll program) program.bodies := by
  have print : Nested 0 5 [⟨.function, 1, 5⟩] :=
    .cons (.nil : Nested 1 1 []) (by decide) (by decide) (by decide) (by decide)
  exact print.append (Stmt.nestedAll program 5) (Nat.zero_le 5) (Nat.le_refl 5)
    (Nat.le_add_right 5 _)

end NestLang
