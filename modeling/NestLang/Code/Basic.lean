import NestLang.Instr

/-!
# Compiled programs

A compiled program is a sequence of instructions. The address of an instruction is its index, and
execution starts at address `0`.

* `Code.text`: one instruction a line.
* `Code.listing`: one instruction a line, each behind its address.
-/

namespace NestLang

/-- A compiled program. -/
abbrev Code := Array Instr

namespace Code

/-- The text of a compiled program, one instruction a line. -/
def text (code : Code) : String := String.join (code.toList.map fun i => i.text ++ "\n")

/-- An instruction behind its address, which is right-aligned in five columns. -/
def line (address : Nat) (i : Instr) : String :=
  String.ofList ((toString address).toList.leftpad 5 ' ') ++ " " ++ i.text

/-- The text of a compiled program with addresses. -/
def listing (code : Code) : String :=
  String.join (code.toList.mapIdx fun address i => line address i ++ "\n")

end Code

end NestLang
