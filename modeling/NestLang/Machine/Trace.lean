import NestLang.Machine.Text

/-!
# Stepping through a program

A machine that is ready can be stepped until it has ended, or for a bounded number of steps.

* `Machine.steps`: make some steps.
* `Machine.trace`: the same, with a row of text about every step.
-/

namespace NestLang

namespace Machine

/-- What a call on a machine answered, without the machine. -/
abbrev Result := Except RuntimeError Status

/-- One step of a machine, for display: where it was, what it executed, what it answered, and stack
and display afterwards. -/
structure Row where
  pc : Nat
  next? : Option String
  result : Result
  stack : String
  display : String

variable {ω : Type}

/-- The result and the machine of an answer. -/
def Answer.split : Answer ω Status → Result × Machine ω
  | .ok status m => (.ok status, m)
  | .error e m => (.error e, m)

variable [Output ω]

/-- Step a machine while it is ready, at most `n` times. Returns the number of steps made before
and now, and the result of the last one. -/
def stepsFrom (made : Nat) (last : Option Result) : Nat → Machine ω →
    Nat × Option Result × Machine ω
  | 0, m => (made, last, m)
  | n + 1, m =>
    if m.status = .ready then
      let (result, m') := m.step.split
      stepsFrom (made + 1) (some result) n m'
    else (made, last, m)

/-- Step a machine while it is ready, at most `n` times. Returns the number of steps made and the
result of the last one. -/
def steps (n : Nat) (m : Machine ω) : Nat × Option Result × Machine ω := stepsFrom 0 none n m

/-- Step a machine while it is ready, at most `n` times, and add a row for every step. -/
def traceFrom (rows : Array Row) : Nat → Machine ω → Array Row × Machine ω
  | 0, m => (rows, m)
  | n + 1, m =>
    if m.status = .ready then
      let pc := m.state.pc
      let next? := m.nextText?
      let (result, m') := m.step.split
      traceFrom (rows.push ⟨pc, next?, result, m'.stackText, m'.displayText⟩) n m'
    else (rows, m)

/-- Step a machine while it is ready, at most `n` times. Returns a row for every step. -/
def trace (n : Nat) (m : Machine ω) : Array Row × Machine ω := traceFrom #[] n m

end Machine

end NestLang
