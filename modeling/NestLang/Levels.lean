/-!
# Nested levels

A program text is nested: functions and blocks open a level inside the level around them. `Levels`
holds one item for each open level. The outermost level is always there, so a `Levels` is never
empty.
-/

namespace NestLang

/-- One item for each open level: that of the innermost level, and those around it from the inside
out. -/
structure Levels (α : Type) where
  current : α
  outer : List α

namespace Levels

variable {α : Type}

/-- Only the outermost level. -/
def root (a : α) : Levels α := ⟨a, []⟩

/-- The number of the innermost level. The outermost level has number `0`. -/
def depth (l : Levels α) : Nat := l.outer.length

/-- The items of all open levels from the inside out. -/
def toList (l : Levels α) : List α := l.current :: l.outer

/-- Open a level. -/
def enter (a : α) (l : Levels α) : Levels α := ⟨a, l.toList⟩

/-- Close the innermost level, unless it is the outermost. -/
def leave? (l : Levels α) : Option (Levels α) :=
  match l.outer with
  | [] => none
  | a :: as => some ⟨a, as⟩

/-- Change the item of the innermost level. -/
def modify (f : α → α) (l : Levels α) : Levels α := ⟨f l.current, l.outer⟩

@[simp] theorem depth_root (a : α) : (root a).depth = 0 := rfl

@[simp] theorem depth_enter (a : α) (l : Levels α) : (l.enter a).depth = l.depth + 1 := rfl

@[simp] theorem depth_modify (f : α → α) (l : Levels α) : (l.modify f).depth = l.depth := rfl

@[simp] theorem leave?_enter (a : α) (l : Levels α) : (l.enter a).leave? = some l := rfl

end Levels

end NestLang
