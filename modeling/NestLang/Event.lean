import NestLang.Code.Basic
import NestLang.Fault

/-!
# Events

What compiler and machine report about their work. Every event has a severity and a message.
-/

namespace NestLang

/-- How detailed an event is: milestones are `debug`, single steps are `trace`. -/
inductive Severity
  | debug | trace
  deriving DecidableEq

/-- Something that compiler or machine report. -/
inductive Event
  /-- A program of so many top-level statements is going to be compiled. -/
  | compiling (statements : Nat)
  /-- A function was declared. -/
  | functionDeclared (name : String) (level entry : Nat)
  /-- A block was opened. -/
  | blockOpened (level entry : Nat)
  /-- A block was closed. -/
  | blockClosed (level : Nat)
  /-- Compilation has succeeded, with so many instructions in all. -/
  | compiled (instructions : Nat)
  /-- A program of so many instructions is going to be run. -/
  | running (instructions : Nat)
  /-- An instruction is going to be executed. -/
  | executing (address : Nat) (i : Instr)
  /-- An instruction has failed. -/
  | failed (e : RuntimeError)
  /-- The run has ended with so many values on the stack. -/
  | terminated (values : Nat)

namespace Event

/-- The severity of an event. -/
def severity : Event → Severity
  | functionDeclared _ _ _ | blockOpened _ _ | blockClosed _ | executing _ _ => .trace
  | compiling _ | compiled _ | running _ | failed _ | terminated _ => .debug

/-- The message of an event. -/
def message : Event → String
  | compiling n => "compiling " ++ toString n ++ " top-level statements"
  | functionDeclared name level entry =>
    "function " ++ name ++ " at level " ++ toString level ++ ", entry " ++ toString entry
  | blockOpened level entry => "block at level " ++ toString level ++ ", entry " ++ toString entry
  | blockClosed level => "left block at level " ++ toString level
  | compiled n => "compiled " ++ toString n ++ " instructions"
  | running n => "running " ++ toString n ++ " instructions"
  | executing address i => Code.line address i
  | failed e => "runtime error at instruction " ++ toString e.address ++ ": " ++ e.fault.message
  | terminated n => "terminated with " ++ toString n ++ " values on the stack"

/-- Whether an event is reported to someone who asked for the given severity: a `trace` holds all
events, a `debug` log only the milestones. -/
def isReported (asked : Severity) (e : Event) : Bool := asked = .trace ∨ e.severity = .debug

end Event

end NestLang
