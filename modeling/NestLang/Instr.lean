import NestLang.Operator

/-!
# Instructions

The instructions of the machine. A level counts how deeply a frame is nested in the program text,
and an offset counts stack slots from the base of the frame of that level. Targets are addresses in
the program.

* `Instr.mnemonic`, `Instr.operands`: the parts of an instruction as it is written.
* `Instr.text`: mnemonic and operands, separated by single spaces.
-/

namespace NestLang

/-- The instructions of the machine. -/
inductive Instr
  /-- Push a value. -/
  | lit (value : Value)
  /-- Discard the top value. -/
  | pop
  /-- Push the value of a slot. -/
  | load (level : Nat) (offset : Int)
  /-- Move the top value to a slot. -/
  | store (level : Nat) (offset : Int)
  /-- Go on at the target. -/
  | jump (target : Nat)
  /-- Pop a value and go on at the target unless it is `0`. -/
  | jumpIf (target : Nat)
  /-- Negate the top value. -/
  | neg
  /-- Replace the top value by whether it is `0`. -/
  | not
  /-- Replace the two top values by the result of an operator. -/
  | binary (op : BinaryOp)
  /-- Open a frame one level above the given one and go on at the target. -/
  | call (level target : Nat)
  /-- Close the frame of the level, remove the arguments below it and leave the top value. -/
  | ret (level params : Nat)
  /-- Pop a value and print it. -/
  | print
  deriving DecidableEq

namespace Instr

/-- The name of an instruction. -/
def mnemonic : Instr → String
  | lit _ => "lit"
  | pop => "pop"
  | load _ _ => "lod"
  | store _ _ => "sto"
  | jump _ => "jmp"
  | jumpIf _ => "jpc"
  | neg => "neg"
  | not => "not"
  | binary op => op.mnemonic
  | call _ _ => "cal"
  | ret _ _ => "ret"
  | print => "pri"

/-- The operands of an instruction, in the order in which they are written. -/
def operands : Instr → List Int
  | lit value => [value.toInt]
  | load level offset | store level offset => [level, offset]
  | jump target | jumpIf target => [target]
  | call level target => [level, target]
  | ret level params => [level, params]
  | pop | neg | not | binary _ | print => []

/-- The text of an instruction. -/
def text (i : Instr) : String := " ".intercalate (i.mnemonic :: i.operands.map toString)

end Instr

end NestLang
