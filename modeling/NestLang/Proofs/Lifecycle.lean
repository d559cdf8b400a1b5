import NestLang.Proofs.Outputs

/-!
# The life of a machine

A machine is run, stepped and reset in any order. It stops behind its program or just behind the
instruction that has failed, and then refuses everything until it is reset. A reset forgets all but
the output, to which a machine only ever adds.

* `advance_error_pc`: an instruction that fails has not moved the program counter any further.
* `Machine.Settled`, `step_settled`, `Ends.settled`: **where a step and a run can leave a machine.**
* `Machine.Replies`, `Machine.Plays`: calls on a machine, and what they answer.
* `Machine.plays_reset`: **after a reset** a machine does what a new one does.
* `machine_lifecycle`: the life of a machine under any calls.
-/

namespace NestLang

variable {ω α β : Type}

/-! ## Instructions that fail -/

namespace Exec

/-- Where the action fails, the program counter is what it was. -/
def FailsInPlace (x : Exec ω α) : Prop := ∀ s fault s', x s = .error fault s' → s'.pc = s.pc

theorem Keeps.failsInPlace {x : Exec ω α} (h : Keeps State.pc x) : FailsInPlace x := by
  intro s fault s' error
  have kept := h s
  rwa [error] at kept

theorem FailsInPlace.bind {x : Exec ω α} {f : α → Exec ω β} (first : Keeps State.pc x)
    (rest : ∀ a, FailsInPlace (f a)) : FailsInPlace (x >>= f) := by
  intro s fault s' error
  have kept := first s
  rw [bind_run] at error
  cases result : x s with
  | error e s₁ =>
    simp only [result] at error kept
    cases error
    exact kept
  | ok a s₁ =>
    simp only [result] at error kept
    exact (rest a s₁ fault s' error).trans kept

theorem failsInPlace_enter (level target : Nat) :
    FailsInPlace (enter level target : Exec ω Unit) := by
  intro s fault s' error
  unfold enter at error
  by_cases high : wordCount ≤ level + 1
  · rw [if_pos high] at error
    cases error
    rfl
  · rw [if_neg high] at error
    cases error

/-- A return goes back only after everything that can fail. -/
theorem failsInPlace_leave (level params : Nat) :
    FailsInPlace (leave level params : Exec ω Unit) := by
  have stack {α : Type} (action : EStateM Fault Stack α) :
      Keeps State.pc (onStack action : Exec ω α) := keeps_onStack (fun _ _ => rfl) action
  refine .bind (stack _) fun result => .bind (keeps_base level) fun frame => ?_
  refine .bind (stack _) fun savedBase => .bind (stack _) fun savedPc => ?_
  refine .bind (keeps_savedAddress _) fun base => .bind (fun _ => rfl) fun _ => ?_
  by_cases low : frame < params
  · simp only [if_pos low]
    exact (keeps_throw _).failsInPlace
  · simp only [if_neg low]
    refine .bind (fun _ => rfl) fun _ => .bind (keeps_savedAddress _) fun address => ?_
    intro s fault s' error
    cases error

end Exec

open Exec in
/-- **An instruction that fails** leaves the program counter just behind itself. -/
theorem advance_error_pc [Output ω] {i : Instr} {s s' : State ω} {fault : Fault}
    (error : advance i s = .error fault s') : s'.pc = s.pc + 1 := by
  have inPlace : FailsInPlace (exec i : Exec ω Unit) := by
    cases i with
    | jump target =>
      intro s fault s' error
      cases error
    | jumpIf target =>
      refine .bind (keeps_onStack (fun _ _ => rfl) _) fun v => ?_
      intro s fault s' error
      by_cases taken : v ≠ 0
      · simp only [if_pos taken] at error
        cases error
      · simp only [if_neg taken] at error
        cases error
    | call level target => exact failsInPlace_enter level target
    | ret level params => exact failsInPlace_leave level params
    | print =>
      exact .bind (keeps_onStack (fun _ _ => rfl) _) fun v => (keeps_print_pc v).failsInPlace
    | _ => exact (keeps_exec (fun _ _ => rfl) rfl).failsInPlace
  exact inPlace { s with pc := s.pc + 1 } fault s' error

/-! ## Where a call leaves a machine -/

namespace Machine

/-- How a machine that was ready stands after a step or a run, and with what result: it goes on,
it has terminated behind its program, or it has failed just behind the instruction reported. -/
inductive Settled (m : Machine ω) : Result → Prop
  | ready (status : m.status = .ready) : Settled m (.ok .ready)
  | terminated (status : m.status = .terminated) (behind : m.code.size ≤ m.state.pc) :
      Settled m (.ok .terminated)
  | failed {e} (status : m.status = .failed) (pc : m.state.pc = e.address + 1)
      (inside : e.address < m.code.size) : Settled m (.error e)

section Calls

variable [Output ω] {m m' : Machine ω} {r : Result}

/-- **Where a step leaves a machine.** -/
theorem step_settled (ready : m.status = .ready) : m.step.split.2.Settled m.step.split.1 := by
  cases next : m.next? with
  | none =>
    rw [step_end ready next]
    exact .terminated rfl (Array.getElem?_eq_none_iff.1 next)
  | some i =>
    cases result : advance i m.state with
    | ok _ s =>
      rw [step_answer ready next result]
      by_cases ended : m.code.size ≤ s.pc
      · simp only [if_pos ended]
        exact .terminated rfl ended
      · simp only [if_neg ended]
        exact .ready rfl
    | error fault s =>
      rw [step_error ready next result]
      have inside : m.state.pc < m.code.size := (Array.getElem?_eq_some_iff.1 next).1
      exact .failed rfl (advance_error_pc result) inside

theorem Ends.last_step (ready : m.status = .ready) (ends : m.Ends r m') :
    ∃ n, (m.after n).status = .ready ∧ (m.after n).step.split = (r, m') := by
  obtain ⟨fuel, answer, run, split⟩ := ends
  induction fuel generalizing m with
  | zero =>
    obtain ⟨step, -⟩ := step_of_run_zero ready run
    exact ⟨0, ready, step ▸ split⟩
  | succ fuel ih =>
    rw [run_succ ready] at run
    split at run
    · next goes =>
      obtain ⟨n, last, step⟩ := ih goes run
      rw [← after_succ_left] at last step
      exact ⟨n + 1, last, step⟩
    · cases run
      exact ⟨0, ready, split⟩

/-- **Where a run leaves a machine.** -/
theorem Ends.settled (ready : m.status = .ready) (ends : m.Ends r m') : m'.Settled r := by
  obtain ⟨n, last, step⟩ := ends.last_step ready
  have settled := step_settled last
  rwa [step] at settled

theorem Ends.code_eq (ends : m.Ends r m') : m'.code = m.code := by
  by_cases ready : m.status = .ready
  · obtain ⟨n, -, step⟩ := ends.last_step ready
    have kept := code_step (m.after n)
    rw [step, code_after] at kept
    exact kept
  · rw [((ends_of_ended ready).1 ends).2]

end Calls

end Machine

/-! ## Calls in a row -/

/-- What can be asked of a machine. -/
inductive Call
  | run | step | reset
  deriving DecidableEq

namespace Machine

variable [Output ω]

/-- The machine replies to a call with a result, unless it is reset. It replies to a run only if the
run ends. -/
inductive Replies (m : Machine ω) : Call → Option Result → Machine ω → Prop
  | run {r m'} (ends : m.Ends r m') : Replies m .run (some r) m'
  | step : Replies m .step (some m.step.split.1) m.step.split.2
  | reset : Replies m .reset none m.reset

/-- The machine replies to some calls in a row. -/
inductive Plays (m : Machine ω) : List (Call × Option Result) → Machine ω → Prop
  | nil : Plays m [] m
  | snoc {history m₁ call r m'} (before : Plays m history m₁) (last : m₁.Replies call r m') :
      Plays m (history ++ [(call, r)]) m'

variable {m m' m₁ : Machine ω} {call : Call} {r : Option Result}
  {history : List (Call × Option Result)}

theorem Replies.code_eq (h : m.Replies call r m') : m'.code = m.code := by
  cases h with
  | run ends => exact ends.code_eq
  | step => exact code_step m
  | reset => rfl

theorem Plays.code_eq (h : m.Plays history m') : m'.code = m.code := by
  induction h with
  | nil => rfl
  | snoc _ last ih => exact last.code_eq.trans ih

theorem Replies.settled (h : m.Replies call r m') (ready : m.status = .ready) :
    (call = .reset ∧ m'.status = .ready) ∨ ∃ result, r = some result ∧ m'.Settled result := by
  cases h with
  | run ends => exact .inr ⟨_, rfl, ends.settled ready⟩
  | step => exact .inr ⟨_, rfl, step_settled ready⟩
  | reset => exact .inl ⟨rfl, rfl⟩

/-- **A machine that is not ready** refuses to run and to step, and nothing changes. -/
theorem replies_of_ended (ended : m.status ≠ .ready) (asked : call ≠ .reset) :
    m.Replies call r m' ↔ r = some (.error ⟨.notReady, m.state.pc⟩) ∧ m' = m := by
  constructor
  · intro h
    cases h with
    | run ends =>
      obtain ⟨rfl, rfl⟩ := (ends_of_ended ended).1 ends
      exact ⟨rfl, rfl⟩
    | step =>
      rw [step_ended ended]
      exact ⟨rfl, rfl⟩
    | reset => exact absurd rfl asked
  · rintro ⟨rfl, rfl⟩
    cases call with
    | run => exact .run ((ends_of_ended ended).2 ⟨rfl, rfl⟩)
    | step =>
      have reply : m'.Replies .step (some m'.step.split.1) m'.step.split.2 := .step
      rwa [step_ended ended] at reply
    | reset => exact absurd rfl asked

/-! ## Machines that have failed -/

/-- The error has put the machine where it is: it was the reply to a call while the machine was
ready, and since then the machine has refused every call. -/
def FailedBy (m₀ : Machine ω) (history : List (Call × Option Result)) (m : Machine ω)
    (e : RuntimeError) : Prop :=
  ∃ before call later m₁, history = before ++ (call, some (.error e)) :: later ∧
    m₀.Plays before m₁ ∧ m₁.status = .ready ∧ m₁.Replies call (some (.error e)) m ∧
    ∀ reply ∈ later, reply.1 ≠ .reset ∧ reply.2 = some (.error ⟨.notReady, m.state.pc⟩)

theorem Plays.failedBy {m₀ : Machine ω} {e : RuntimeError} (before : m₀.Plays history m₁)
    (ready : m₁.status = .ready) (last : m₁.Replies call (some (.error e)) m) :
    m₀.FailedBy (history ++ [(call, some (.error e))]) m e :=
  ⟨history, call, [], m₁, rfl, before, ready, last, fun _ h => absurd h List.not_mem_nil⟩

theorem FailedBy.refuse {m₀ : Machine ω} {e : RuntimeError} (h : m₀.FailedBy history m e)
    (asked : call ≠ .reset) :
    m₀.FailedBy (history ++ [(call, some (.error ⟨.notReady, m.state.pc⟩))]) m e := by
  obtain ⟨before, first, later, m₁, rfl, plays, ready, fails, refused⟩ := h
  refine ⟨before, first, later ++ [(call, some (.error ⟨.notReady, m.state.pc⟩))], m₁,
    by simp, plays, ready, fails, fun reply h => ?_⟩
  rcases List.mem_append.1 h with h | h
  · exact refused reply h
  · rw [List.mem_singleton.1 h]
    exact ⟨asked, rfl⟩

/-- **A machine has terminated** only behind its program. -/
theorem Plays.terminated {code : Code} {output : ω} (h : (start code output).Plays history m)
    (status : m.status = .terminated) : code.size ≤ m.state.pc := by
  induction h with
  | nil => cases status
  | @snoc history m₁ call r m' before last ih =>
    by_cases ready : m₁.status = .ready
    · rcases last.settled ready with ⟨-, goes⟩ | ⟨result, -, settled⟩
      · rw [goes] at status
        cases status
      · have hcode : m'.code = code := (before.snoc last).code_eq
        cases settled with
        | ready goes | failed goes =>
          rw [goes] at status
          cases status
        | terminated _ behind => exact hcode ▸ behind
    · by_cases asked : call = .reset
      · subst asked
        cases last
        cases status
      · obtain ⟨-, rfl⟩ := (replies_of_ended ready asked).1 last
        exact ih status

/-- **A machine has failed** by the error of an instruction of its program, just behind it. -/
theorem Plays.failed {code : Code} {output : ω} (h : (start code output).Plays history m)
    (status : m.status = .failed) :
    ∃ e, (start code output).FailedBy history m e ∧ m.state.pc = e.address + 1 ∧
      e.address < code.size := by
  induction h with
  | nil => cases status
  | @snoc history m₁ call r m' before last ih =>
    by_cases ready : m₁.status = .ready
    · rcases last.settled ready with ⟨-, goes⟩ | ⟨result, rfl, settled⟩
      · rw [goes] at status
        cases status
      · have hcode : m'.code = code := (before.snoc last).code_eq
        cases settled with
        | ready goes | terminated goes =>
          rw [goes] at status
          cases status
        | @failed e _ pc inside => exact ⟨e, before.failedBy ready last, pc, hcode ▸ inside⟩
    · by_cases asked : call = .reset
      · subst asked
        cases last
        cases status
      · obtain ⟨rfl, rfl⟩ := (replies_of_ended ready asked).1 last
        obtain ⟨e, failedBy, place⟩ := ih status
        exact ⟨e, failedBy.refuse asked, place⟩

/-! ## Output -/

/-- **A machine only adds to its output**, whatever is asked of it. -/
theorem Plays.output {m m' : Machine (Array Value)} (h : m.Plays history m') :
    m.state.output.toList <+: m'.state.output.toList := by
  induction h with
  | nil => exact List.prefix_refl _
  | @snoc history m₁ call r m' _ last ih =>
    refine ih.trans ?_
    cases last with
    | run ends =>
      by_cases ready : m₁.status = .ready
      · obtain ⟨n, -, step⟩ := ends.last_step ready
        have grows := output_after (m := m₁) (Nat.zero_le (n + 1))
        change _ <+: (m₁.after n).step.split.2.state.output.toList at grows
        rwa [step] at grows
      · obtain ⟨-, rfl⟩ := (ends_of_ended ready).1 ends
        exact List.prefix_refl _
    | step => exact output_step m₁
    | reset => exact List.prefix_refl _

/-! ## Other outputs -/

section Mapped

variable {ω' : Type} [Output ω'] {f : ω → ω'} (alike : ∀ s : State ω, s.PrintsAlike f)
  {n₁ : Machine ω'}

include alike

theorem stepsFrom_mapOutput (made : Nat) (last : Option Result) (n : Nat) (m : Machine ω) :
    stepsFrom made last n (m.mapOutput f) =
      ((stepsFrom made last n m).1, (stepsFrom made last n m).2.1,
        (stepsFrom made last n m).2.2.mapOutput f) := by
  induction n generalizing made last m with
  | zero => rfl
  | succ n ih =>
    by_cases ready : m.status = .ready
    · have mapped := step_mapOutput (m := m) fun _ _ => alike m.state
      rw [stepsFrom_succ ready, stepsFrom_succ (m := m.mapOutput f) ready, mapped,
        split_mapReached, ih]
    · rw [stepsFrom_ended ready, stepsFrom_ended (m := m.mapOutput f) ready]

theorem ends_mapOutput {result : Result} :
    (m.mapOutput f).Ends result n₁ ↔ ∃ m', m.Ends result m' ∧ n₁ = m'.mapOutput f := by
  by_cases ready : m.status = .ready
  · constructor
    · intro ends
      obtain ⟨n, steps, ended⟩ := (ends_iff_steps (m := m.mapOutput f) ready).1 ends
      rw [Machine.steps, stepsFrom_mapOutput alike] at steps
      simp only [Prod.mk.injEq] at steps
      obtain ⟨made, last, rfl⟩ := steps
      refine ⟨(m.steps n).2.2, (ends_iff_steps ready).2 ⟨n, ?_, ended⟩, rfl⟩
      exact Prod.ext made (Prod.ext last rfl)
    · rintro ⟨m', ends, rfl⟩
      obtain ⟨n, steps, ended⟩ := (ends_iff_steps ready).1 ends
      refine (ends_iff_steps (m := m.mapOutput f) ready).2 ⟨n, ?_, ended⟩
      rw [Machine.steps] at steps ⊢
      rw [stepsFrom_mapOutput alike, steps]
  · rw [ends_of_ended (m := m.mapOutput f) ready]
    constructor
    · rintro ⟨rfl, rfl⟩
      exact ⟨m, (ends_of_ended ready).2 ⟨rfl, rfl⟩, rfl⟩
    · rintro ⟨m', ends, rfl⟩
      obtain ⟨rfl, rfl⟩ := (ends_of_ended ready).1 ends
      exact ⟨rfl, rfl⟩

theorem replies_mapOutput :
    (m.mapOutput f).Replies call r n₁ ↔ ∃ m', m.Replies call r m' ∧ n₁ = m'.mapOutput f := by
  have mapped := step_mapOutput (m := m) fun _ _ => alike m.state
  have split : (m.mapOutput f).step.split = (m.step.split.1, m.step.split.2.mapOutput f) := by
    rw [mapped, split_mapReached]
  constructor
  · intro h
    cases h with
    | run ends =>
      obtain ⟨m', ends', rfl⟩ := (ends_mapOutput alike).1 ends
      exact ⟨m', .run ends', rfl⟩
    | step =>
      rw [split]
      exact ⟨_, .step, rfl⟩
    | reset => exact ⟨_, .reset, rfl⟩
  · rintro ⟨m', h, rfl⟩
    cases h with
    | run ends => exact .run ((ends_mapOutput alike).2 ⟨_, ends, rfl⟩)
    | step =>
      have reply : (m.mapOutput f).Replies .step _ _ := .step
      rwa [split] at reply
    | reset => exact .reset

/-- **Calls on a machine with another output.** -/
theorem plays_mapOutput :
    (m.mapOutput f).Plays history n₁ ↔ ∃ m', m.Plays history m' ∧ n₁ = m'.mapOutput f := by
  constructor
  · intro h
    induction h with
    | nil => exact ⟨m, .nil, rfl⟩
    | snoc _ last ih =>
      obtain ⟨m₁, before, rfl⟩ := ih
      obtain ⟨m', reply, rfl⟩ := (replies_mapOutput alike).1 last
      exact ⟨m', before.snoc reply, rfl⟩
  · rintro ⟨m', h, rfl⟩
    induction h with
    | nil => exact .nil
    | snoc _ last ih => exact ih.snoc ((replies_mapOutput alike).2 ⟨_, last, rfl⟩)

end Mapped

/-- **After a reset** a machine does what a new one does, and prints behind what it has printed. -/
theorem plays_reset {m m' : Machine (Array Value)} :
    m.reset.Plays history m' ↔ ∃ fresh, (start m.code (#[] : Array Value)).Plays history fresh ∧
      m' = fresh.mapOutput (m.state.output ++ ·) := by
  have alike (s : State (Array Value)) : s.PrintsAlike (m.state.output ++ ·) := by
    intro v _
    change EStateM.Result.ok () ((m.state.output ++ s.output).push v) =
      .ok () (m.state.output ++ s.output.push v)
    rw [Array.append_push]
  have again : m.reset = (start m.code #[]).mapOutput (m.state.output ++ ·) := by
    change start m.code m.state.output = start m.code (m.state.output ++ #[])
    rw [Array.append_empty]
  rw [again]
  exact plays_mapOutput alike

end Machine

/-- **The life of a machine.** Let a machine have replied to some calls since it was new:

* if it has terminated, its program counter is behind the program;
* if it has failed, its program counter is just behind the instruction of the program that the error
  reports by which it has failed;
* if it is not ready, it replies to every run and step that it is not, with its program counter, and
  nothing changes;
* whatever is asked of it later, it only adds to its output;
* once it is reset, it replies to any calls as a new machine does, with the same state afterwards
  but for the output, which goes on behind the one it had. -/
theorem machine_lifecycle {code : Code} {output : Array Value}
    {history : List (Call × Option Machine.Result)} {m : Machine (Array Value)}
    (plays : (Machine.start code output).Plays history m) :
    (m.status = .terminated → code.size ≤ m.state.pc) ∧
    (m.status = .failed → ∃ e, (Machine.start code output).FailedBy history m e ∧
      m.state.pc = e.address + 1 ∧ e.address < code.size) ∧
    (m.status ≠ .ready → ∀ call ≠ .reset, ∀ r m',
      m.Replies call r m' ↔ r = some (.error ⟨.notReady, m.state.pc⟩) ∧ m' = m) ∧
    (∀ later m', m.Plays later m' → m.state.output.toList <+: m'.state.output.toList) ∧
    (∀ later m', m.reset.Plays later m' ↔
      ∃ fresh, (Machine.start code (#[] : Array Value)).Plays later fresh ∧
        m' = fresh.mapOutput (m.state.output ++ ·)) := by
  refine ⟨plays.terminated, plays.failed, fun ended call asked r m' => ?_,
    fun later m' => Machine.Plays.output, fun later m' => ?_⟩
  · exact Machine.replies_of_ended ended asked
  · rw [Machine.plays_reset, plays.code_eq]
    exact Iff.rfl

/-- A run that fails at its last instruction, and a step that is refused afterwards. -/
theorem machine_lifecycle_underflow :
    let code : Code := #[.lit 5, .print, .pop]
    let m : Machine (Array Value) := ⟨code, .failed, ⟨3, #[], #[], #[5]⟩⟩
    let history : List (Call × Option Machine.Result) :=
      [(.run, some (.error ⟨.stackUnderflow, 2⟩)), (.step, some (.error ⟨.notReady, 3⟩))]
    (Machine.start code (#[] : Array Value)).Plays history m ∧
      (∃ e, (Machine.start code (#[] : Array Value)).FailedBy history m e ∧
        m.state.pc = e.address + 1 ∧ e.address < code.size) ∧
      ∃ fresh, (Machine.start code (#[] : Array Value)).Plays [(.step, some (.ok .ready))] fresh ∧
        (⟨code, .ready, ⟨1, #[5], #[], #[5]⟩⟩ : Machine (Array Value)) =
          fresh.mapOutput (m.state.output ++ ·) := by
  intro code m history
  have run : (Machine.start code (#[] : Array Value)).Ends (.error ⟨.stackUnderflow, 2⟩) m :=
    ⟨3, .error ⟨.stackUnderflow, 2⟩ m, rfl, rfl⟩
  have plays : (Machine.start code (#[] : Array Value)).Plays history m :=
    Machine.Plays.snoc (.snoc .nil (.run run)) .step
  have again : m.reset.Plays [(.step, some (.ok .ready))] ⟨code, .ready, ⟨1, #[5], #[], #[5]⟩⟩ :=
    Machine.Plays.snoc .nil .step
  obtain ⟨-, failed, -, -, reset⟩ := machine_lifecycle plays
  exact ⟨plays, failed rfl, (reset _ _).1 again⟩

end NestLang
