import NestLang.Event
import NestLang.Machine.Basic

/-!
# What a machine reports

`Machine.runLogged` runs a machine as `Machine.run` does and reports the start of the run, every
instruction, and how the run ended.
-/

namespace NestLang

namespace Machine

variable {ω : Type} [Output ω]

/-- As `loop`, with the events of the run added to a log. -/
def loopLogged (fuel : Nat) (m : Machine ω) (log : Array Event) :
    Option (Answer ω Status × Array Event) :=
  match m.next? with
  | none => some (m.terminate, log.push (.terminated m.state.stack.size))
  | some i =>
    match fuel with
    | 0 => none
    | fuel + 1 =>
      let log := log.push (.executing m.state.pc i)
      match m.execute i with
      | .ok _ m' => loopLogged fuel m' log
      | .error e m' => some (.error e m', log.push (.failed e))

/-- As `run`, with the events of the run added to a log. -/
def runLogged (fuel : Nat) (m : Machine ω) (log : Array Event) :
    Option (Answer ω Status × Array Event) :=
  if m.status = .ready then loopLogged fuel m (log.push (.running m.code.size))
  else some (m.refuse, log)

end Machine

end NestLang
