import NestLang.Compile.Tree
import NestLang.Machine.Log

/-!
# Running programs

Compile a program and run it to its end. The number of instructions executed is bounded by `fuel`;
a run that would need more has no result.

* `run`: the output of a program.
* `runLogged`: the same, with everything that compiler and machine report.
-/

namespace NestLang

/-- Why a program could not be run to its end. -/
inductive Error
  | compile (e : CompileError)
  | runtime (e : RuntimeError)
  deriving DecidableEq

/-- The text of an error. -/
def Error.message : Error → String
  | .compile e => "compile error: " ++ e.message
  | .runtime e => "runtime error: " ++ e.message

/-- Success or failure of a program, with its output in both cases. -/
abbrev Outcome (ω : Type) := EStateM.Result Error ω Unit

variable {ω : Type}

/-- The outcome of a program from what the machine answered in the end. -/
def Outcome.ofAnswer : Machine.Answer ω Status → Outcome ω
  | .ok _ m => .ok () m.state.output
  | .error e m => .error (.runtime e) m.state.output

variable [Output ω]

/-- Compile and run a program, printing to `output`. -/
def run (fuel : Nat) (program : Program) (output : ω) : Option (Outcome ω) :=
  match compile program with
  | .ok code => ((Machine.start code output).run fuel).map Outcome.ofAnswer
  | .error e => some (.error (.compile e) output)

/-- Compile and run a program, printing to `output`, and report all events. -/
def runLogged (fuel : Nat) (program : Program) (output : ω) : Option (Outcome ω × Array Event) :=
  match (Program.compile program).run .initial with
  | .ok _ s =>
    ((Machine.start s.buffer.code output).runLogged fuel s.log).map fun (answer, log) =>
      (.ofAnswer answer, log)
  | .error e s => some (.error (.compile e) output, s.log)

end NestLang
