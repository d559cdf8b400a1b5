import NestLang.Proofs.Step

/-!
# Running is stepping

A run looks for an instruction before it executes one, and a step looks for the end of the program
after it has executed one. Both come to the same, for any code and from any state.

* `Machine.loop_ok`, `Machine.loop_end`, ...: one equation for each way a run can go on.
* `Machine.run_succ`: **a run is a step and the run after it.**
* `Machine.Ends`: the run of a machine ends.
* `run_iff_steps`: **a run ends as steps end that are made one by one.**
-/

namespace NestLang

namespace Machine

variable {ω : Type} [Output ω] {m : Machine ω} {code : Code} {s s' : State ω} {i : Instr} {k : Nat}

/-! ## Runs -/

theorem loop_ok (next : code[s.pc]? = some i) (ok : advance i s = .ok () s') (k : Nat) :
    loop (k + 1) ⟨code, .ready, s⟩ = loop k ⟨code, .ready, s'⟩ := by
  rw [loop]
  simp only [next?, next, execute, ok]

theorem loop_zero (next : code[s.pc]? = some i) : loop 0 ⟨code, .ready, s⟩ = none := by
  rw [loop]
  simp only [next?, next]

theorem loop_end (next : code[s.pc]? = none) (k : Nat) :
    loop k ⟨code, .ready, s⟩ = some (.ok .terminated ⟨code, .terminated, s⟩) := by
  rw [loop.eq_def]
  simp only [next?, next]
  rfl

theorem loop_error {fault : Fault} (next : code[s.pc]? = some i)
    (error : advance i s = .error fault s') (k : Nat) :
    loop (k + 1) ⟨code, .ready, s⟩ = some (.error ⟨fault, s.pc⟩ ⟨code, .failed, s'⟩) := by
  rw [loop]
  simp only [next?, next, execute, error]

theorem loop_mono {answer : Answer ω Status} (h : m.loop k = some answer) (n : Nat) :
    m.loop (k + n) = some answer := by
  induction k generalizing m with
  | zero =>
    rw [loop.eq_def] at h ⊢
    cases next : m.next? with
    | none => simpa only [next] using h
    | some i => simp only [next, reduceCtorEq] at h
  | succ k ih =>
    rw [Nat.add_right_comm]
    rw [loop] at h ⊢
    cases next : m.next? with
    | none => simpa only [next] using h
    | some i =>
      simp only [next] at h ⊢
      cases result : m.execute i with
      | ok _ m' =>
        simp only [result] at h ⊢
        exact ih h
      | error e m' => simpa only [result] using h

theorem run_mono {answer : Answer ω Status} (h : m.run k = some answer) (n : Nat) :
    m.run (k + n) = some answer := by
  unfold run at h ⊢
  split at h
  · next ready =>
    rw [if_pos ready]
    exact loop_mono h n
  · next ended => rwa [if_neg ended]

/-! ## A run is a step and the run after it -/

theorem step_answer (ready : m.status = .ready) (next : m.next? = some i)
    (ok : advance i m.state = .ok () s) :
    m.step = .ok (if m.code.size ≤ s.pc then .terminated else .ready)
      ⟨m.code, if m.code.size ≤ s.pc then .terminated else .ready, s⟩ := by
  obtain ⟨code, status, state⟩ := m
  simp only at ready
  subst ready
  simp only [step, if_true, next, execute, ok]
  split <;> rfl

/-- **A run is a step and the run after it**, if the machine then goes on. -/
theorem run_succ (ready : m.status = .ready) (fuel : Nat) :
    m.run (fuel + 1) =
      if m.step.split.2.status = .ready then m.step.split.2.run fuel else some m.step := by
  obtain ⟨code, status, s⟩ := m
  simp only at ready
  subst ready
  change loop (fuel + 1) ⟨code, .ready, s⟩ = _
  cases next : code[s.pc]? with
  | none =>
    rw [loop_end next, step_end (m := ⟨code, .ready, s⟩) rfl next]
    rfl
  | some i =>
    cases result : advance i s with
    | error fault s' =>
      rw [loop_error next result, step_error (m := ⟨code, .ready, s⟩) rfl next result]
      rfl
    | ok _ s' =>
      rw [loop_ok next result, step_answer (m := ⟨code, .ready, s⟩) rfl next result]
      by_cases ended : code.size ≤ s'.pc
      · -- The step tests for the end right away, the run before the next instruction.
        simp only [if_pos ended]
        exact loop_end (Array.getElem?_eq_none ended) fuel
      · simp only [if_neg ended]
        rfl

theorem step_of_run_zero {answer : Answer ω Status} (ready : m.status = .ready)
    (h : m.run 0 = some answer) : m.step = answer ∧ answer.split.2.status ≠ .ready := by
  obtain ⟨code, status, s⟩ := m
  simp only at ready
  subst ready
  change loop 0 ⟨code, .ready, s⟩ = some answer at h
  cases next : code[s.pc]? with
  | none =>
    rw [loop_end next] at h
    cases h
    exact ⟨step_end rfl next, by simp [Answer.split]⟩
  | some i =>
    rw [loop_zero next] at h
    cases h

/-! ## Where runs and steps end -/

/-- The run of the machine ends, with a result and a machine. -/
def Ends (m : Machine ω) (r : Result) (m' : Machine ω) : Prop :=
  ∃ fuel answer, m.run fuel = some answer ∧ answer.split = (r, m')

variable {r : Result} {m' : Machine ω}

theorem ends_of_ended (ended : m.status ≠ .ready) :
    m.Ends r m' ↔ r = .error ⟨.notReady, m.state.pc⟩ ∧ m' = m := by
  constructor
  · rintro ⟨fuel, answer, run, split⟩
    rw [Machine.run, if_neg ended] at run
    cases run
    cases split
    exact ⟨rfl, rfl⟩
  · rintro ⟨rfl, rfl⟩
    exact ⟨0, m'.refuse, by rw [run, if_neg ended], rfl⟩

/-- **One step** before the run. -/
theorem ends_step (ready : m.status = .ready) (goes : m.step.split.2.status = .ready) :
    m.Ends r m' ↔ m.step.split.2.Ends r m' := by
  constructor
  · rintro ⟨fuel, answer, run, split⟩
    have run := run_mono run 1
    rw [run_succ ready, if_pos goes] at run
    exact ⟨fuel, answer, run, split⟩
  · rintro ⟨fuel, answer, run, split⟩
    exact ⟨fuel + 1, answer, by rw [run_succ ready, if_pos goes, run], split⟩

theorem ends_of_step (ready : m.status = .ready) (ended : m.step.split.2.status ≠ .ready) :
    m.Ends r m' ↔ m.step.split = (r, m') := by
  constructor
  · rintro ⟨fuel, answer, run, split⟩
    have run := run_mono run 1
    rw [run_succ ready, if_neg ended] at run
    cases run
    exact split
  · intro split
    exact ⟨1, m.step, by rw [run_succ ready, if_neg ended], split⟩

theorem ready_of_after {n : Nat} (ready : (m.after (k + n)).status = .ready) :
    (m.after k).status = .ready := by
  refine Decidable.byContradiction fun ended => ?_
  rw [after_ended ended (Nat.le_add_right k n)] at ready
  exact ended ready

/-- **Some steps** before the run. -/
theorem ends_after (ready : (m.after k).status = .ready) :
    m.Ends r m' ↔ (m.after k).Ends r m' := by
  induction k with
  | zero => exact Iff.rfl
  | succ k ih =>
    have before := ready_of_after ready
    rw [ih before, ends_step before ready]
    rfl

/-! ## Steps one by one -/

theorem stepsFrom_ended (ended : m.status ≠ .ready) (made : Nat) (last : Option Result) (n : Nat) :
    stepsFrom made last n m = (made, last, m) := by
  cases n with
  | zero => rfl
  | succ n => rw [stepsFrom, if_neg ended]

theorem stepsFrom_succ (ready : m.status = .ready) (made : Nat) (last : Option Result) (n : Nat) :
    stepsFrom made last (n + 1) m =
      stepsFrom (made + 1) (some m.step.split.1) n m.step.split.2 := by
  rw [stepsFrom, if_pos ready]

theorem stepsFrom_after (made : Nat) (last : Option Result) (n : Nat) (m : Machine ω) :
    (stepsFrom made last n m).2.2 = m.after n := by
  induction n generalizing made last m with
  | zero => rfl
  | succ n ih =>
    by_cases ready : m.status = .ready
    · rw [stepsFrom_succ ready, ih, after_succ_left]
    · rw [stepsFrom_ended ready, after_ended (n := 0) ready (Nat.zero_le _)]
      rfl

theorem exists_stepsFrom (ready : m.status = .ready) {answer : Answer ω Status}
    (run : m.run k = some answer) (made : Nat) (last : Option Result) :
    ∃ n, stepsFrom made last n m = (made + n, some answer.split.1, answer.split.2) ∧
      answer.split.2.status ≠ .ready := by
  induction k generalizing m made last with
  | zero =>
    obtain ⟨step, ended⟩ := step_of_run_zero ready run
    refine ⟨1, ?_, ended⟩
    rw [stepsFrom_succ ready, step]
    rfl
  | succ k ih =>
    rw [run_succ ready] at run
    split at run
    · next goes =>
      obtain ⟨n, steps, ended⟩ := ih goes run (made + 1) (some m.step.split.1)
      refine ⟨n + 1, ?_, ended⟩
      rw [stepsFrom_succ ready, steps, Nat.add_assoc, Nat.add_comm 1]
    · next ended =>
      cases run
      exact ⟨1, stepsFrom_succ ready made last 0, ended⟩

/-- **Steps that come to an end** are a run. -/
theorem ends_of_stepsFrom (ready : m.status = .ready) {made n : Nat} {last : Option Result}
    (steps : stepsFrom made last n m = (made + n, some r, m')) (ended : m'.status ≠ .ready) :
    m.Ends r m' := by
  induction n generalizing m made last with
  | zero =>
    cases steps
    exact absurd ready ended
  | succ n ih =>
    rw [stepsFrom_succ ready] at steps
    by_cases goes : m.step.split.2.status = .ready
    · rw [Nat.add_comm n, ← Nat.add_assoc] at steps
      exact (ends_step ready goes).2 (ih goes steps)
    · rw [stepsFrom_ended goes] at steps
      simp only [Prod.mk.injEq, Option.some.injEq] at steps
      exact (ends_of_step ready goes).2 (Prod.ext steps.2.1 steps.2.2)

theorem ends_iff_steps (ready : m.status = .ready) :
    m.Ends r m' ↔ ∃ n, m.steps n = (n, some r, m') ∧ m'.status ≠ .ready := by
  constructor
  · rintro ⟨fuel, answer, run, split⟩
    obtain ⟨n, steps, ended⟩ := exists_stepsFrom ready run 0 none
    rw [split, Nat.zero_add] at steps
    rw [split] at ended
    exact ⟨n, steps, ended⟩
  · rintro ⟨n, steps, ended⟩
    have steps : stepsFrom 0 none n m = (0 + n, some r, m') := by
      rw [Nat.zero_add]
      exact steps
    exact ends_of_stepsFrom ready steps ended

theorem exists_ends (ready : m.status = .ready) (ended : (m.after k).status ≠ .ready) :
    ∃ r m', m.Ends r m' := by
  induction k with
  | zero => exact absurd ready ended
  | succ k ih =>
    by_cases before : (m.after k).status = .ready
    · exact ⟨_, _, (ends_after before).2 ((ends_of_step before ended).2 rfl)⟩
    · exact ih before

end Machine

/-- **Running and stepping agree.** Let a machine be ready after any number of steps. The run from
the start ends with some result and some machine if and only if the run after these steps does, and
if and only if steps made one by one from the start come to an end with the same. It does not end if
and only if the machine is ready after every number of steps. -/
theorem run_iff_steps {ω : Type} [Output ω] (m : Machine ω) (k : Nat)
    (ready : (m.steps k).2.2.status = .ready) :
    (∀ r m', (m.Ends r m' ↔ (m.steps k).2.2.Ends r m') ∧
      (m.Ends r m' ↔ ∃ n, m.steps n = (n, some r, m') ∧ m'.status ≠ .ready)) ∧
    ((∀ r m', ¬m.Ends r m') ↔ ∀ n, (m.steps n).2.2.status = .ready) := by
  have after (n : Nat) : (m.steps n).2.2 = m.after n := Machine.stepsFrom_after 0 none n m
  rw [after] at ready
  have start : m.status = .ready := Machine.ready_of_after (k := 0) (Nat.zero_add k ▸ ready)
  refine ⟨fun r m' => ⟨?_, Machine.ends_iff_steps start⟩, fun never n => ?_,
    fun goes r m' ends => ?_⟩
  · rw [after]
    exact Machine.ends_after ready
  · rw [after]
    refine Decidable.byContradiction fun ended => ?_
    obtain ⟨r, m', ends⟩ := Machine.exists_ends start ended
    exact never r m' ends
  · obtain ⟨n, steps, ended⟩ := (Machine.ends_iff_steps start).1 ends
    have still := goes n
    rw [steps] at still
    exact ended still

/-- A jump leads far behind the end of the program. -/
def jumpCode : Code := #[.lit 3, .print, .jump 7, .pop]

/-- Two steps into the program the run still has the jump before it. -/
theorem run_iff_steps_jump :
    let m := Machine.start jumpCode (#[] : Array Value)
    let m' : Machine (Array Value) := ⟨jumpCode, .terminated, ⟨7, #[], #[], #[3]⟩⟩
    (m.steps 2).2.2.status = .ready ∧ (m.steps 2).2.2.Ends (.ok .terminated) m' ∧
      ∃ n, m.steps n = (n, some (.ok .terminated), m') ∧ m'.status ≠ .ready := by
  intro m m'
  have ready : (m.steps 2).2.2.status = .ready := by decide +kernel
  have ends : m.Ends (.ok .terminated) m' := ⟨3, .ok .terminated m', rfl, rfl⟩
  obtain ⟨agree, -⟩ := run_iff_steps m 2 ready
  exact ⟨ready, (agree _ _).1.1 ends, (agree _ _).2.1 ends⟩

end NestLang
