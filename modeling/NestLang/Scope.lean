import NestLang.Levels

/-!
# Scopes

Each open level has a scope, which says what the names declared on that level stand for. Within a
scope the newest declaration of a name counts, and a name that is not declared in a scope has the
meaning it has on the level around.
-/

namespace NestLang

/-- The declarations of one level, newest first. -/
abbrev Scope (α : Type) := List (String × α)

/-- The scopes of all open levels. -/
abbrev Scopes (α : Type) := Levels (Scope α)

namespace Scopes

variable {α : Type}

/-- Declare a name on the innermost level. -/
def declare (name : String) (meaning : α) (s : Scopes α) : Scopes α :=
  s.modify ((name, meaning) :: ·)

/-- What a name stands for on the innermost level. -/
def resolve? (name : String) (s : Scopes α) : Option α := s.toList.findSome? (·.lookup name)

/-- Close the innermost scope. The outermost one stays open. -/
def leave (s : Scopes α) : Scopes α := s.leave?.getD s

theorem resolve?_declare (name other : String) (meaning : α) (s : Scopes α) :
    (s.declare name meaning).resolve? other =
      if other = name then some meaning else s.resolve? other := by
  by_cases h : other = name
  · simp [resolve?, declare, Levels.toList, Levels.modify, h]
  · have hb : (other == name) = false := beq_false_of_ne h
    simp [resolve?, declare, Levels.toList, Levels.modify, List.findSome?_cons, List.lookup_cons,
      h, hb]

@[simp] theorem resolve?_enter (name : String) (s : Scopes α) :
    resolve? name (s.enter []) = s.resolve? name := rfl

@[simp] theorem leave_enter (scope : Scope α) (s : Scopes α) : leave (s.enter scope) = s := rfl

end Scopes

end NestLang
