/-!
# The display

The display holds, for each level, the base of the innermost open frame of that level.
-/

namespace NestLang

/-- The bases of the open frames by level. Only the levels up to the highest one ever set are
stored. -/
abbrev Display := Array Nat

namespace Display

/-- The base of a level, `0` unless it was set. -/
def base (d : Display) (level : Nat) : Nat := d.getD level 0

/-- Set the base of a level. Levels below it that were not stored before are stored as `0`. -/
def setBase (d : Display) (level base : Nat) : Display :=
  (d ++ Array.replicate (level + 1 - d.size) 0).setIfInBounds level base

theorem base_setBase (d : Display) (level base k : Nat) :
    (d.setBase level base).base k = if k = level then base else d.base k := by
  unfold Display.base setBase
  simp only [Array.getD_eq_getD_getElem?, Array.getElem?_setIfInBounds, Array.size_append,
    Array.size_replicate, Array.getElem?_append, Array.getElem?_replicate]
  by_cases same : level = k
  · subst same
    rw [if_pos rfl, if_pos (by omega), if_pos rfl]
    rfl
  · rw [if_neg same, if_neg (Ne.symm same)]
    by_cases stored : k < d.size
    · rw [if_pos stored]
    · rw [if_neg stored, Array.getElem?_eq_none (Nat.le_of_not_lt stored)]
      split <;> rfl

end Display

end NestLang
