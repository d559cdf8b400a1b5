import NestLang.Machine.Exec

/-!
# The machine

A machine is a compiled program with a state and a status. It is ready until it runs past the end
of the program or an instruction fails; after that it does nothing but answer that it is not ready,
until it is reset.

* `Machine.step`: execute one instruction.
* `Machine.run`: execute instructions until the machine has ended, within a bound on their number.
* `Machine.reset`: start again, keeping program and output.
-/

namespace NestLang

/-- Whether a machine goes on, has ended, or has failed. -/
inductive Status
  | ready | terminated | failed
  deriving DecidableEq

/-- A compiled program in execution. -/
structure Machine (ω : Type) where
  code : Code
  status : Status
  state : State ω

namespace Machine

variable {ω : Type}

/-- A machine at the start of a program. -/
def start (code : Code) (output : ω) : Machine ω := ⟨code, .ready, ⟨0, #[], #[], output⟩⟩

/-- The machine at the start of its program, with the output it has. -/
def reset (m : Machine ω) : Machine ω := start m.code m.state.output

/-- The instruction at the program counter, if there is one. -/
def next? (m : Machine ω) : Option Instr := m.code[m.state.pc]?

/-- What a call on a machine answers, together with the machine afterwards. -/
abbrev Answer (ω α : Type) := EStateM.Result RuntimeError (Machine ω) α

/-- The answer of a machine that has ended: it is not ready, and nothing changes. -/
def refuse (m : Machine ω) : Answer ω Status := .error ⟨.notReady, m.state.pc⟩ m

/-- The answer of a machine that has just run past the end of its program. -/
def terminate : Machine ω → Answer ω Status := fun ⟨code, _, state⟩ =>
  .ok .terminated ⟨code, .terminated, state⟩

variable [Output ω]

/-- Execute an instruction. If it fails, so does the machine, and the address of the instruction is
reported. -/
def execute (i : Instr) : Machine ω → Answer ω Unit := fun ⟨code, status, state⟩ =>
  let address := state.pc
  match advance i state with
  | .ok _ state => .ok () ⟨code, status, state⟩
  | .error fault state => .error ⟨fault, address⟩ ⟨code, .failed, state⟩

/-- Execute the instruction at the program counter, if there is one, and terminate if the program
counter is then past the end of the program. Answers the new status. -/
def step (m : Machine ω) : Answer ω Status :=
  if m.status = .ready then
    match m.next? with
    | none => m.terminate
    | some i =>
      match m.execute i with
      | .ok _ m' => if m'.code.size ≤ m'.state.pc then m'.terminate else .ok m'.status m'
      | .error e m' => .error e m'
  else m.refuse

/-- Execute instructions until the program counter is past the end of the program, or one fails.
Answers `none` if more than `fuel` instructions would be needed. -/
def loop (fuel : Nat) (m : Machine ω) : Option (Answer ω Status) :=
  match m.next? with
  | none => some m.terminate
  | some i =>
    match fuel with
    | 0 => none
    | fuel + 1 =>
      match m.execute i with
      | .ok _ m' => loop fuel m'
      | .error e m' => some (.error e m')

/-- Run a machine that is ready to its end, within a bound on the number of instructions. -/
def run (fuel : Nat) (m : Machine ω) : Option (Answer ω Status) :=
  if m.status = .ready then loop fuel m else some m.refuse

end Machine

end NestLang
