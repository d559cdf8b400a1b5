import NestLang.Fault
import NestLang.Value

/-!
# The stack

The stack grows upwards: slot `0` is at the bottom and the next value goes to slot `size`. An
operation that fails keeps what it did before.
-/

namespace NestLang

/-- The stack of values, bottom first. -/
abbrev Stack := Array Value

namespace Stack

/-- Remove and return the top value. -/
def popTop : EStateM Fault Stack Value := fun s =>
  match s.back? with
  | some v => .ok v s.pop
  | none => .error .stackUnderflow s

/-- Remove the two top values and return the lower one first. If there is only one, it is gone. -/
def popTwo : EStateM Fault Stack (Value × Value) := do
  let top ← popTop
  let lower ← popTop
  return (lower, top)

/-- The value of a slot. -/
def load (address : Nat) : EStateM Fault Stack Value := fun s =>
  match s[address]? with
  | some v => .ok v s
  | none => .error (.invalidAddress (signed address)) s

/-- Change the value of a slot. -/
def store (address : Nat) (v : Value) : EStateM Fault Stack Unit := fun s =>
  if address < s.size then .ok () (s.setIfInBounds address v)
  else .error (.invalidAddress (signed address)) s

/-- Keep the lowest `size` values. A smaller stack stays as it is. -/
def truncate (size : Nat) (s : Stack) : Stack := s.shrink size

@[simp] theorem popTop_push (v : Value) (s : Stack) : popTop (s.push v) = .ok v s := by
  simp [popTop]

@[simp] theorem popTwo_push (a b : Value) (s : Stack) :
    popTwo ((s.push a).push b) = .ok (a, b) s := by
  simp [popTwo, bind, EStateM.bind, pure, EStateM.pure]

theorem truncate_eq_take (size : Nat) (s : Stack) : s.truncate size = s.take size := by
  simp [truncate]

end Stack

end NestLang
