import NestLang.Proofs.Correctness
import NestLang.Proofs.Effects

/-!
# Programs that go on

A program with more instructions behind its end does what it did before, up to that end. There the
machine has printed what it has printed, and the rest of the program can only print more.

* `advance_output`, `Machine.output_after`: a machine only adds to its output.
* `Machine.loop_eq_after`: the end of a run is reached step by step.
* `Machine.after_append`, `Machine.loop_append`, `Machine.after_append_end`: **a program with more
  instructions behind it.**
-/

namespace NestLang

/-! ## Output -/

/-- **An instruction only adds to the output**, whether it succeeds or fails. -/
theorem advance_output (i : Instr) (s : State (Array Value)) :
    match advance i s with
    | .ok _ s' | .error _ s' => s.output.toList <+: s'.output.toList := by
  change match exec i { s with pc := s.pc + 1 } with
    | .ok _ s' | .error _ s' => s.output.toList <+: s'.output.toList
  by_cases silent : i = .print
  · subst silent
    have kept : Exec.Keeps State.output (Exec.pop : Exec (Array Value) Value) :=
      Exec.keeps_onStack (fun _ _ => rfl) _
    have kept := kept { s with pc := s.pc + 1 }
    change match (Exec.pop >>= Exec.print) { s with pc := s.pc + 1 } with
      | .ok _ s' | .error _ s' => s.output.toList <+: s'.output.toList
    rw [bind_run]
    cases popped : Exec.pop { s with pc := s.pc + 1 } with
    | error fault s₁ =>
      rw [popped] at kept
      exact kept ▸ List.prefix_refl _
    | ok v s₁ =>
      rw [popped] at kept
      change s.output.toList <+: (s₁.output.push v).toList
      rw [Array.toList_push, show s₁.output = s.output from kept]
      exact List.prefix_append _ _
  · have kept := keeps_output silent { s with pc := s.pc + 1 }
    cases result : exec i { s with pc := s.pc + 1 } <;> rw [result] at kept
    all_goals exact kept ▸ List.prefix_refl _

namespace Machine

variable {m : Machine (Array Value)} {n k : Nat}

/-- **A machine only adds to its output.** -/
theorem output_step (m : Machine (Array Value)) :
    m.state.output.toList <+: m.step.split.2.state.output.toList := by
  by_cases ready : m.status = .ready
  · cases next : m.next? with
    | none =>
      rw [step_end ready next]
      exact List.prefix_refl _
    | some i =>
      have prints := advance_output i m.state
      cases result : advance i m.state with
      | ok _ s =>
        rw [result] at prints
        rw [step_ok ready next result]
        exact prints
      | error _ s =>
        rw [result] at prints
        rw [step_error ready next result]
        exact prints
  · rw [step_ended ready]
    exact List.prefix_refl _

theorem output_after (le : n ≤ k) :
    (m.after n).state.output.toList <+: (m.after k).state.output.toList := by
  induction le with
  | refl => exact List.prefix_refl _
  | step _ ih => exact ih.trans (output_step _)

/-! ## Runs and steps -/

variable {code more : Code} {s : State (Array Value)} {i : Instr}

theorem after_of_ended (ended : m.status ≠ .ready) (n : Nat) : m.after n = m :=
  after_ended (n := 0) ended (Nat.zero_le n)

theorem after_end (next : code[s.pc]? = none) (n : Nat) :
    (⟨code, .ready, s⟩ : Machine (Array Value)).after (n + 1) = ⟨code, .terminated, s⟩ := by
  rw [after_succ_left, step_end (m := ⟨code, .ready, s⟩) rfl next]
  exact after_of_ended (by simp [terminate, Answer.split]) n

/-- **A run that has an answer** is at its end, or executes an instruction first. -/
theorem loop_cases {fuel : Nat} {answer : Answer (Array Value) Status}
    (h : loop fuel ⟨code, .ready, s⟩ = some answer) :
    (code[s.pc]? = none ∧ answer = .ok .terminated ⟨code, .terminated, s⟩) ∨
    ∃ k i, fuel = k + 1 ∧ code[s.pc]? = some i ∧
      ((∃ s', advance i s = .ok () s' ∧ loop k ⟨code, .ready, s'⟩ = some answer) ∨
        ∃ fault s', advance i s = .error fault s' ∧
          answer = .error ⟨fault, s.pc⟩ ⟨code, .failed, s'⟩) := by
  cases next : code[s.pc]? with
  | none =>
    rw [loop_end next] at h
    exact .inl ⟨rfl, (Option.some.inj h).symm⟩
  | some i =>
    cases fuel with
    | zero =>
      rw [loop_zero next] at h
      cases h
    | succ k =>
      refine .inr ⟨k, i, rfl, rfl, ?_⟩
      cases result : advance i s with
      | ok _ s' =>
        rw [loop_ok next result] at h
        exact .inl ⟨s', rfl, h⟩
      | error fault s' =>
        rw [loop_error next result] at h
        exact .inr ⟨fault, s', rfl, (Option.some.inj h).symm⟩

/-- **What a run leaves** at its end is what single steps leave. -/
theorem loop_eq_after {fuel : Nat} {answer : Answer (Array Value) Status}
    (h : loop fuel ⟨code, .ready, s⟩ = some answer) :
    answer.split.2 = (⟨code, .ready, s⟩ : Machine (Array Value)).after (fuel + 1) := by
  induction fuel using Nat.strongRecOn generalizing s with
  | ind fuel ih =>
    obtain ⟨next, rfl⟩ | ⟨k, i, rfl, next, ⟨s', ok, rest⟩ | ⟨fault, s', error, rfl⟩⟩ := loop_cases h
    · exact (after_end next _).symm
    · rw [after_succ_left, step_ok (m := ⟨code, .ready, s⟩) rfl next ok,
        ih k (Nat.lt_succ_self k) rest]
      dsimp only
      split
      · next ended =>
        rw [after_end (Array.getElem?_eq_none ended), after_of_ended (by simp)]
      · rfl
    · rw [after_succ_left, step_error (m := ⟨code, .ready, s⟩) rfl next error]
      exact (after_of_ended (by simp [Answer.split]) _).symm

/-! ## More instructions behind the end -/

theorem getElem?_append_of_some (next : code[s.pc]? = some i) : (code ++ more)[s.pc]? = some i := by
  rw [Array.getElem?_append_left (Array.getElem?_eq_some_iff.1 next).1, next]

theorem of_ready_succ (ready : (m.after (n + 1)).status = .ready) :
    (m.after n).status = .ready ∧ ∃ i s, m.code[(m.after n).state.pc]? = some i ∧
      advance i (m.after n).state = .ok () s ∧ m.after (n + 1) = ⟨m.code, .ready, s⟩ ∧
      s.pc < m.code.size := by
  have before : (m.after n).status = .ready := by
    refine Decidable.byContradiction fun ended => ?_
    rw [after_ended ended (Nat.le_succ n)] at ready
    exact ended ready
  have hcode := m.code_after n
  have step : m.after (n + 1) = (m.after n).step.split.2 := rfl
  refine ⟨before, ?_⟩
  cases next : (m.after n).next? with
  | none =>
    rw [step, step_end before next] at ready
    cases ready
  | some i =>
    cases result : advance i (m.after n).state with
    | error fault s =>
      rw [step, step_error before next result] at ready
      cases ready
    | ok _ s =>
      rw [step, step_ok before next result, hcode] at ready
      have inside : ¬m.code.size ≤ s.pc := fun behind => by simp [behind] at ready
      refine ⟨i, s, hcode ▸ next, result, ?_, Nat.lt_of_not_le inside⟩
      rw [step, step_ok before next result, hcode, if_neg inside]

theorem pc_lt_of_ready {output : Array Value} (pos : 0 < code.size)
    (ready : ((start code output).after n).status = .ready) :
    ((start code output).after n).state.pc < code.size := by
  cases n with
  | zero => exact pos
  | succ n =>
    obtain ⟨-, i, s, -, -, after, inside⟩ := of_ready_succ ready
    rw [after]
    exact inside

/-- **As long as a program has not ended**, the same happens with more instructions behind it. -/
theorem after_append {output : Array Value} (more : Code)
    (ready : ((start code output).after n).status = .ready) :
    (start (code ++ more) output).after n =
      ⟨code ++ more, .ready, ((start code output).after n).state⟩ := by
  induction n with
  | zero => rfl
  | succ n ih =>
    obtain ⟨before, i, s, next, ok, after, inside⟩ := of_ready_succ ready
    have longer : ¬(code ++ more).size ≤ s.pc := by
      have inside : s.pc < code.size := inside
      rw [Array.size_append]
      omega
    change ((start (code ++ more) output).after n).step.split.2 = _
    rw [ih before, after]
    rw [step_ok (m := ⟨code ++ more, .ready, _⟩) rfl (getElem?_append_of_some next) ok,
      if_neg longer]

theorem step_append {e : RuntimeError} {m' : Machine (Array Value)} (more : Code)
    (ready : m.status = .ready) (error : m.step = .error e m') :
    step ⟨m.code ++ more, .ready, m.state⟩ = .error e ⟨m.code ++ more, .failed, m'.state⟩ := by
  obtain ⟨fault, address⟩ := e
  obtain ⟨i, s, next, result⟩ := step_eq_error ready error
  rw [step_error ready next result] at error
  cases error
  have next : (m.code ++ more)[m.state.pc]? = some i := getElem?_append_of_some next
  exact step_error (m := ⟨m.code ++ more, .ready, m.state⟩) rfl next result

/-- **At the end of a program** the machine goes on with the instructions behind it. -/
theorem after_append_end {output : Array Value} (pos : 0 < code.size) (more : Code)
    (ended : ((start code output).after n).status = .terminated) :
    ∃ k ≤ n, (start (code ++ more) output).after k =
      ⟨code ++ more, if (code ++ more).size ≤ ((start code output).after n).state.pc
        then .terminated else .ready, ((start code output).after n).state⟩ := by
  induction n with
  | zero => cases ended
  | succ n ih =>
    by_cases ready : ((start code output).after n).status = .ready
    · have inside := pc_lt_of_ready pos ready
      have hcode : ((start code output).after n).code = code := code_after _ n
      obtain ⟨i, next⟩ : ∃ i, code[((start code output).after n).state.pc]? = some i :=
        ⟨_, Array.getElem?_eq_getElem inside⟩
      have fetched : ((start code output).after n).next? = some i := by rwa [next?, hcode]
      have step : (start code output).after (n + 1) = ((start code output).after n).step.split.2 :=
        rfl
      refine ⟨n + 1, Nat.le_refl _, ?_⟩
      change ((start (code ++ more) output).after n).step.split.2 = _
      rw [after_append more ready]
      cases result : advance i ((start code output).after n).state with
      | error fault s =>
        rw [step, step_error ready fetched result] at ended
        cases ended
      | ok _ s =>
        rw [step, step_ok ready fetched result]
        exact step_ok (m := ⟨code ++ more, .ready, _⟩) rfl (getElem?_append_of_some next) result
    · rw [after_ended ready (Nat.le_succ n)] at ended ⊢
      obtain ⟨k, le, reached⟩ := ih ended
      exact ⟨k, Nat.le_succ_of_le le, reached⟩

/-- **A program that fails** fails in the same way with more instructions behind it. -/
theorem loop_append {fuel : Nat} {e : RuntimeError} (more : Code)
    (h : loop fuel ⟨code, .ready, s⟩ = some (.error e m)) :
    loop fuel ⟨code ++ more, .ready, s⟩ = some (.error e ⟨code ++ more, .failed, m.state⟩) := by
  induction fuel using Nat.strongRecOn generalizing s with
  | ind fuel ih =>
    obtain ⟨-, answer⟩ | ⟨k, i, rfl, next, ⟨s', ok, rest⟩ | ⟨fault, s', error, answer⟩⟩ :=
      loop_cases h
    · cases answer
    · rw [loop_ok (getElem?_append_of_some next) ok, ih k (Nat.lt_succ_self k) rest]
    · cases answer
      exact loop_error (getElem?_append_of_some next) error _

end Machine

end NestLang
