import NestLang.Machine.Basic

/-!
# The text of a machine

* `Machine.stackText`, `Machine.displayText`: the numbers on the stack and in the display.
* `Machine.nextText?`: the instruction that comes next.
-/

namespace NestLang

/-- Some numbers between brackets, separated by commas. -/
def bracketed (numbers : List Int) : String :=
  "[" ++ ", ".intercalate (numbers.map toString) ++ "]"

namespace Machine

variable {ω : Type}

/-- The values on the stack, bottom first. -/
def stackText (m : Machine ω) : String := bracketed (m.state.stack.toList.map (·.toInt))

/-- The stored bases of the display, by level. -/
def displayText (m : Machine ω) : String := bracketed (m.state.display.toList.map Int.ofNat)

/-- The text of the instruction at the program counter, if there is one. -/
def nextText? (m : Machine ω) : Option String := m.next?.map Instr.text

end Machine

end NestLang
