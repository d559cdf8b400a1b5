import NestLang.Proofs.Appending
import NestLang.Proofs.Extension

/-!
# Programs compiled one after the other

One session compiles several programs, each behind the code of those before it. Some of them may
fail, and then what they have written stays. None of this changes what the first program does.

* `Session.compileEach`: a session that compiles some programs, whatever comes of each.
* `compileEach_code`: what a session has written stays.
* `first_chunk_runs`: **the first program runs as if it were alone.**
-/

namespace NestLang

/-- The session after a compilation, which may have failed. -/
def Session.afterCompile (σ : Session) (program : Program) : Session :=
  match (Program.compile program).run σ with
  | .ok _ τ | .error _ τ => τ

/-- The session after some programs were compiled one after the other, each of which may have
failed. -/
def Session.compileEach (σ : Session) (programs : List Program) : Session :=
  programs.foldl Session.afterCompile σ

theorem Session.afterCompile_ok {program : Program} {σ τ : Session}
    (done : Program.compile program σ = .ok () τ) : σ.afterCompile program = τ := by
  unfold Session.afterCompile EStateM.run
  rw [done]

theorem Session.afterCompile_error {program : Program} {e : CompileError} {σ τ : Session}
    (failed : Program.compile program σ = .error e τ) : σ.afterCompile program = τ := by
  unfold Session.afterCompile EStateM.run
  rw [failed]

theorem Session.Holds.afterCompile {b : Buffer} {σ : Session} (h : σ.Holds b [])
    (program : Program) : (σ.afterCompile program).Holds b [] := by
  have appended := program.appends b [] σ h
  unfold Session.afterCompile
  change Session.Holds b [] (match Program.compile program σ with
    | .ok _ τ | .error _ τ => τ)
  cases result : Program.compile program σ <;> rw [result] at appended <;> exact appended

theorem Session.Holds.compileEach {b : Buffer} {σ : Session} (h : σ.Holds b [])
    (programs : List Program) : (σ.compileEach programs).Holds b [] := by
  induction programs generalizing σ with
  | nil => exact h
  | cons program programs ih => exact ih (h.afterCompile program)

theorem compileEach_code {first : Program} {code : Code} (compiled : compile first = .ok code)
    (later : List Program) :
    ∃ more, (Session.initial.compileEach (first :: later)).buffer.code = code ++ more := by
  have start : Session.initial.Holds Session.initial.buffer [] :=
    ⟨⟨[], rfl⟩, fun _ ha => absurd ha List.not_mem_nil⟩
  have after : (Session.initial.afterCompile first).buffer.code = code := by
    unfold compile at compiled
    unfold Session.afterCompile
    cases result : (Program.compile first).run .initial with
    | ok _ τ =>
      rw [result] at compiled
      exact Except.ok.inj compiled
    | error e τ =>
      rw [result] at compiled
      cases compiled
  have atEnd := (start.afterCompile first).atEnd
  have holds : Session.Holds (Session.initial.afterCompile first).buffer []
      (Session.initial.afterCompile first) :=
    ⟨⟨[], atEnd.written_nil.symm⟩, fun _ ha => absurd ha List.not_mem_nil⟩
  obtain ⟨is, buffer⟩ := (holds.compileEach later).written
  refine ⟨is.toArray, ?_⟩
  change ((Session.initial.afterCompile first).compileEach later).buffer.code = _
  rw [buffer, Buffer.written, after]

theorem size_pos_of_compile {program : Program} {code : Code}
    (compiled : compile program = .ok code) : 0 < code.size := by
  obtain ⟨sites, ctx, -, hcode⟩ := emits_of_compile compiled
  have length := congrArg List.length hcode
  rw [Array.length_toList, Site.code, List.length_map, List.length_append] at length
  rw [length]
  exact Nat.lt_add_right _ (by decide)

theorem pc_of_terminated {program : Program} {code : Code} (compiled : compile program = .ok code)
    (returns : program.ReturnsInside) (late : program.NoLateDeclare)
    (small : code.size < addressBound) {output : Array Value} {n : Nat}
    (bound : ∀ k ≤ n, ((Machine.start code output).after k).state.stack.size < addressBound)
    (ended : ((Machine.start code output).after n).status = .terminated) :
    ((Machine.start code output).after n).state.pc = code.size := by
  obtain ⟨c, sound, keeps⟩ := exists_keeps compiled returns late small output n bound
  rw [← sound.length]
  exact Nat.le_antisymm keeps.pc_le (keeps.ended ended)

/-- **Later programs cannot change what the first one does.** A session compiles a program and then
any others, which may fail. Compare the machine of the first program alone with the machine of all
the code that the session has written:

* as long as the first machine goes on, both are in the same state after the same number of steps;
* if it fails, both fail at the same step with the same error and the same state;
* if it terminates, it does so just behind its code, where the other machine has the same state and
  goes on if there is more code; from then on that one only adds to the output. -/
theorem first_chunk_runs {first : Program} {code : Code} (compiled : compile first = .ok code)
    (returns : first.ReturnsInside) (late : first.NoLateDeclare) (small : code.size < addressBound)
    (later : List Program) (n : Nat) (bound : ∀ k ≤ n,
      ((Machine.start code (#[] : Array Value)).after k).state.stack.size < addressBound) :
    let whole := (Session.initial.compileEach (first :: later)).buffer.code
    let m₀ := Machine.start code (#[] : Array Value)
    let m₁ := Machine.start whole (#[] : Array Value)
    ((m₀.after n).status = .ready → m₁.after n = ⟨whole, .ready, (m₀.after n).state⟩) ∧
    (∀ e m, (m₀.after n).status = .ready → (m₀.after n).step = .error e m →
      (m₁.after n).step = .error e ⟨whole, .failed, m.state⟩) ∧
    (∀ e m, m₀.run n = some (.error e m) →
      m₁.run n = some (.error e ⟨whole, .failed, m.state⟩)) ∧
    ((m₀.after n).status = .terminated → (m₀.after n).state.pc = code.size ∧
      ∃ k ≤ n, m₁.after k = ⟨whole, if whole.size ≤ code.size then .terminated else .ready,
          (m₀.after n).state⟩ ∧
        (∀ j ≥ k, (m₀.after n).state.output.toList <+: (m₁.after j).state.output.toList) ∧
        ∀ fuel answer, m₁.run fuel = some answer →
          (m₀.after n).state.output.toList <+: answer.split.2.state.output.toList) := by
  intro whole m₀ m₁
  obtain ⟨more, hwhole⟩ : ∃ more, whole = code ++ more := compileEach_code compiled later
  have hm₁ : m₁ = Machine.start (code ++ more) #[] := congrArg (Machine.start · #[]) hwhole
  refine ⟨fun ready => ?_, fun e m ready error => ?_, fun e m failed => ?_, fun ended => ?_⟩
  · rw [hm₁, hwhole]
    exact Machine.after_append more ready
  · rw [hm₁, hwhole, Machine.after_append more ready]
    have step := Machine.step_append more ready error
    rwa [Machine.code_after m₀ n] at step
  · rw [hm₁, hwhole]
    exact Machine.loop_append more failed
  · have pc := pc_of_terminated compiled returns late small bound ended
    obtain ⟨k, le, reached⟩ := Machine.after_append_end (size_pos_of_compile compiled) more ended
    rw [pc, ← hwhole] at reached
    have printed : (m₀.after n).state.output = (m₁.after k).state.output :=
      congrArg (·.state.output) reached.symm
    refine ⟨pc, k, le, reached, fun j hj => ?_, fun fuel answer run => ?_⟩
    · rw [printed]
      exact Machine.output_after hj
    · -- With more fuel the answer is the same, so it may be taken to come after `k` steps.
      rw [printed, Machine.loop_eq_after (Machine.loop_mono run k)]
      exact Machine.output_after (by omega)

/-- Behind `findProgram` one program fails inside a block and another one is compiled. -/
theorem first_chunk_runs_find :
    let whole := (Session.initial.compileEach [findProgram, [.block [.assign "y" (.int 2)]],
      [.expr (.call "print" [.int 9])]]).buffer.code
    let m₀ := Machine.start findCode (#[] : Array Value)
    let m₁ := Machine.start whole (#[] : Array Value)
    (m₀.after 69).status = .terminated ∧ findCode.size < whole.size ∧
    (m₀.after 69).state.pc = findCode.size ∧
      ∃ k ≤ 69, m₁.after k = ⟨whole, if whole.size ≤ findCode.size then .terminated else .ready,
          (m₀.after 69).state⟩ ∧
        (∀ j ≥ k, (m₀.after 69).state.output.toList <+: (m₁.after j).state.output.toList) ∧
        ∀ fuel answer, m₁.run fuel = some answer →
          (m₀.after 69).state.output.toList <+: answer.split.2.state.output.toList := by
  have ended : ((Machine.start findCode (#[] : Array Value)).after 69).status = .terminated := by
    decide +kernel
  have runs := first_chunk_runs compile_findProgram (by decide +kernel) (by decide +kernel)
    (by decide) [[.block [.assign "y" (.int 2)]], [.expr (.call "print" [.int 9])]] 69
    fun k _ => size_after_findCode k
  exact ⟨ended, by decide +kernel, runs.2.2.2 ended⟩

end NestLang
