import NestLang.Proofs.Safety
import NestLang.Proofs.Statements
import NestLang.Proofs.Stepping

/-!
# Correctness of the compiler

A compiled program does what the program does as a tree.

* `Chart.Steps.loop_eq`, `Chart.Steps.loop_eq_none`: instructions in a row, in a run of the machine.
* `Answers`, `answers_eval`: what an evaluation tells about the run.
* `compiled_run_iff_eval`: **the run of a compiled program prints and ends as its evaluation does.**
-/

namespace NestLang

/-! ## Runs -/

section Runs

variable {c : Chart} {code : Code} {n k : Nat} {s s' : State (Array Value)} {i : Instr}

variable (instrs : ∀ a, c.instr? a = code[a]?)

include instrs

theorem Chart.Steps.loop_eq (h : c.Steps n s s') (k : Nat) :
    Machine.loop (n + k) ⟨code, .ready, s⟩ = Machine.loop k ⟨code, .ready, s'⟩ := by
  induction h with
  | refl => rw [Nat.zero_add]
  | step instr ok _ ih =>
    rw [Nat.add_right_comm, Machine.loop_ok ((instrs _).symm.trans instr) ok, ih]

theorem Chart.Steps.loop_eq_none (h : c.Steps n s s') (lt : k < n) :
    Machine.loop k ⟨code, .ready, s⟩ = none := by
  induction h generalizing k with
  | refl => exact absurd lt (Nat.not_lt_zero _)
  | step instr ok _ ih =>
    have next := (instrs _).symm.trans instr
    cases k with
    | zero => exact Machine.loop_zero next
    | succ k => rw [Machine.loop_ok next ok, ih (Nat.lt_of_succ_lt_succ lt)]

theorem Chart.Steps.after_eq (h : c.Steps n s s') :
    ((⟨code, .ready, s⟩ : Machine (Array Value)).after n).state = s' := by
  induction h with
  | refl => rfl
  | @step n s s₁ s₂ i instr ok rest ih =>
    have first := Machine.step_ok (m := ⟨code, .ready, s⟩) rfl ((instrs _).symm.trans instr) ok
    rw [Nat.add_comm, Machine.after_add]
    change (Machine.after n (Machine.step ⟨code, .ready, s⟩).split.2).state = s₂
    rw [first]
    dsimp only
    split
    · next ended =>
      -- Behind the program there is nothing left to execute.
      cases rest with
      | refl => rfl
      | step instr' _ _ =>
        rw [instrs, Array.getElem?_eq_none ended] at instr'
        cases instr'
    · exact ih

end Runs

/-! ## The program -/

section Program

variable {program : Program} {code : Code}

theorem exists_carries (compiled : compile program = .ok code) (returns : program.ReturnsInside)
    (late : program.NoLateDeclare) (small : code.size < addressBound) :
    ∃ (c : Chart) (sites : List Site) (ctx : Ctx), c.Loaded ∧ (∀ a, c.instr? a = code[a]?) ∧
      c.Carries (Part.stmts program).weight .initial 5 (.stmts program) sites ctx ∧
      code[5 + sites.length]? = none := by
  obtain ⟨sites, ctx, emits, hcode⟩ := emits_of_compile compiled
  let c : Chart := ⟨printSites ++ sites, ctx.point 0, []⟩
  have sits : c.Sits 0 (printSites ++ sites) := c.shows_sites.sits
  have size : code.size = (printSites ++ sites).length := by
    rw [← Array.length_toList, hcode, Site.code, List.length_map]
  obtain ⟨prints, sits⟩ := Chart.sits_append.1 sits
  refine ⟨c, sites, ctx, ⟨prints, size ▸ small⟩, fun a => ?_, ⟨emits, sits, returns, late,
    Nat.le_refl _, Nat.zero_le _, rfl⟩, ?_⟩
  · rw [← Array.getElem?_toList, hcode, Site.code, List.getElem?_map]
    rfl
  · rw [Array.getElem?_eq_none_iff, size, List.length_append]
    exact Nat.le_refl _

theorem stands_start {c : Chart} {size : Nat} {link : Link}
    (bounded : c.Bounded (⟨5, #[], #[], #[]⟩ : State (Array Value))) :
    Stands c size .initial link [("print", .print)] (fun _ => none) ⟨#[], #[]⟩
      ⟨5, #[], #[], #[]⟩ where
  binds := .print
  models := ⟨nofun, nofun⟩
  output := rfl
  bases := fun level => by simp [Display.base]
  bounded := bounded
  height := rfl
  header := nofun

/-- What the result of an evaluation tells about the run: the answer it gives, or a number of
instructions that is not enough for it. -/
def Answers (m₀ : Machine (Array Value)) (n : Nat) :
    EStateM.Result Stop (Array Value) Unit → Prop
  | .ok _ o => ∃ k m, m₀.run k = some (.ok .terminated m) ∧ m.state.output = o
  | .error .divisionByZero o =>
    ∃ k pc m, m₀.run k = some (.error ⟨.divisionByZero, pc⟩ m) ∧ m.state.output = o
  | .error .outOfFuel _ => ∀ k < n, m₀.run k = none
  | .error (.misused _) _ | .error .misplaced _ => False

theorem eval_eq (fuel : Nat) (program : Program) :
    eval fuel program = match Stmt.evalAll fuel [("print", .print)] program ⟨#[], #[]⟩ with
      | .ok (.next _) mem => .ok () mem.output
      | .ok (.returned _) mem => .error .misplaced mem.output
      | .error stop mem => .error stop mem.output := by
  rw [eval, Program.eval, EStateM.run, bind_run]
  cases Stmt.evalAll fuel [("print", .print)] program ⟨#[], #[]⟩ with
  | ok flow mem => cases flow <;> rfl
  | error stop mem => rfl

/-- **The run follows the evaluation.** -/
theorem answers_eval (compiled : compile program = .ok code) (returns : program.ReturnsInside)
    (late : program.NoLateDeclare) (small : code.size < addressBound)
    (bound : ∀ n, ((Machine.start code (#[] : Array Value)).after n).state.stack.size <
      addressBound) {n fuel : Nat}
    (enough : Enough (Part.stmts program).weight (Part.stmts program).weight n fuel) :
    Answers (Machine.start code #[]) n (eval fuel program) := by
  obtain ⟨c, sites, ctx, loaded, instrs, carries, last⟩ :=
    exists_carries compiled returns late small
  have start : c.Reach (⟨0, #[], #[], #[]⟩ : State (Array Value)) ⟨5, #[], #[], #[]⟩ :=
    .one (Chart.instr?_of_site loaded.print.1) (advance_jump 5)
  have bounded : c.Bounded (⟨0, #[], #[], #[]⟩ : State (Array Value)) := fun n s' steps => by
    rw [← steps.after_eq instrs]
    exact bound n
  have stands : Stands c (Part.stmts program).weight .initial ⟨0, 0⟩ _ _ _ _ :=
    stands_start (bounded.reach start)
  have follows := Chart.Follows.reach start
    ((loaded.simulates _ fuel).stmts carries stands enough)
  rw [eval_eq]
  cases result : Stmt.evalAll fuel [("print", .print)] program ⟨#[], #[]⟩ with
  | ok flow mem =>
    rw [result] at follows
    obtain ⟨s', ⟨k, steps⟩, ends⟩ := follows
    cases flow with
    | returned v => cases ends.1
    | next env =>
      obtain ⟨φ, cont⟩ := ends
      have ended : code[s'.pc]? = none := by
        rw [cont.pc]
        exact last
      have run := steps.loop_eq instrs 0
      rw [Machine.loop_end ended] at run
      exact ⟨k, _, run, cont.output⟩
  | error stop mem =>
    rw [result] at follows
    cases stop with
    | divisionByZero =>
      obtain ⟨s₁, i, s₂, ⟨k, steps⟩, instr, error, output⟩ := follows
      have run := steps.loop_eq instrs 1
      rw [Machine.loop_error ((instrs _).symm.trans instr) error] at run
      exact ⟨k + 1, _, _, run, output⟩
    | outOfFuel =>
      obtain ⟨s', steps⟩ := follows
      exact fun k lt => steps.loop_eq_none instrs lt
    | misused _ | misplaced => exact follows

end Program

theorem Machine.run_unique {m : Machine (Array Value)} {k n : Nat}
    {a b : Machine.Answer (Array Value) Status} (ha : m.run k = some a) (hb : m.run n = some b) :
    a = b := by
  unfold Machine.run at ha hb
  split at ha
  · next ready =>
    rw [if_pos ready] at hb
    have more := Machine.loop_mono hb k
    rw [Nat.add_comm, Machine.loop_mono ha n] at more
    exact Option.some.inj more
  · next ended =>
    rw [if_neg ended] at hb
    exact Option.some.inj (ha.symm.trans hb)

section Answers

variable {m₀ m : Machine (Array Value)} {n k : Nat}
  {result : EStateM.Result Stop (Array Value) Unit}

theorem Answers.eq_ok (h : Answers m₀ (k + 1) result)
    (run : m₀.run k = some (.ok .terminated m)) : result = .ok () m.state.output := by
  match result, h with
  | .ok _ o, ⟨k', m', run', output⟩ =>
    cases Machine.run_unique run run'
    rw [← output]
  | .error .divisionByZero o, ⟨k', pc, m', run', output⟩ =>
    cases Machine.run_unique run run'
  | .error .outOfFuel o, h =>
    rw [h k (Nat.lt_succ_self k)] at run
    cases run

theorem Answers.eq_error {e : RuntimeError} (h : Answers m₀ (k + 1) result)
    (run : m₀.run k = some (.error e m)) : result = .error .divisionByZero m.state.output := by
  match result, h with
  | .ok _ o, ⟨k', m', run', output⟩ => cases Machine.run_unique run run'
  | .error .divisionByZero o, ⟨k', pc, m', run', output⟩ =>
    cases Machine.run_unique run run'
    rw [← output]
  | .error .outOfFuel o, h =>
    rw [h k (Nat.lt_succ_self k)] at run
    cases run

theorem Answers.outOfFuel (h : Answers m₀ n result) (never : ∀ k, m₀.run k = none) :
    ∃ o, result = .error .outOfFuel o := by
  match result, h with
  | .ok _ o, ⟨k, m, run, _⟩ =>
    rw [never k] at run
    cases run
  | .error .divisionByZero o, ⟨k, pc, m, run, _⟩ =>
    rw [never k] at run
    cases run
  | .error .outOfFuel o, _ => exact ⟨o, rfl⟩

end Answers

/-- **Correctness of the compiler.** A compiled program whose stack stays in the range of addresses
does what its evaluation does:

* the run terminates with some output if and only if the evaluation ends with this output;
* the run fails with a division by zero, after some output, if and only if the evaluation does;
* the run goes on for ever if and only if no fuel is enough for the evaluation. -/
theorem compiled_run_iff_eval {program : Program} {code : Code}
    (compiled : compile program = .ok code) (returns : program.ReturnsInside)
    (late : program.NoLateDeclare) (small : code.size < addressBound)
    (bound : ∀ n, ((Machine.start code (#[] : Array Value)).after n).state.stack.size <
      addressBound) :
    let m₀ := Machine.start code (#[] : Array Value)
    (∀ o, (∃ fuel, eval fuel program = .ok () o) ↔
      ∃ k m, m₀.run k = some (.ok .terminated m) ∧ m.state.output = o) ∧
    (∀ o, (∃ fuel, eval fuel program = .error .divisionByZero o) ↔
      ∃ k pc m, m₀.run k = some (.error ⟨.divisionByZero, pc⟩ m) ∧ m.state.output = o) ∧
    ((∀ fuel, ∃ o, eval fuel program = .error .outOfFuel o) ↔ ∀ k, m₀.run k = none) := by
  intro m₀
  have answers (fuel : Nat) : Answers m₀ 0 (eval fuel program) :=
    answers_eval compiled returns late small bound (.inl rfl)
  -- With so much fuel an evaluation runs out of it only if the run takes more than `k` steps.
  have enough (k : Nat) : ∃ fuel, Answers m₀ (k + 1) (eval fuel program) :=
    ⟨_, answers_eval compiled returns late small bound (.inr (Nat.le_refl _))⟩
  refine ⟨fun o => ⟨fun ⟨fuel, result⟩ => ?_, fun ⟨k, m, run, output⟩ => ?_⟩,
    fun o => ⟨fun ⟨fuel, result⟩ => ?_, fun ⟨k, pc, m, run, output⟩ => ?_⟩, fun never k => ?_,
    fun never fuel => (answers fuel).outOfFuel never⟩
  · have h := answers fuel
    rwa [result] at h
  · obtain ⟨fuel, h⟩ := enough k
    exact ⟨fuel, output ▸ h.eq_ok run⟩
  · have h := answers fuel
    rwa [result] at h
  · obtain ⟨fuel, h⟩ := enough k
    exact ⟨fuel, output ▸ h.eq_error run⟩
  · obtain ⟨fuel, h⟩ := enough k
    obtain ⟨o, result⟩ := never fuel
    rw [result] at h
    exact h k (Nat.lt_succ_self k)

theorem eval_findProgram : eval 30 findProgram = .ok () #[7] := by
  have output : (match eval 30 findProgram with
      | .ok _ o => some o
      | .error _ _ => none) = some #[7] := by decide +kernel
  cases result : eval 30 findProgram with
  | ok _ o =>
    rw [result] at output
    exact congrArg (EStateM.Result.ok ()) (Option.some.inj output)
  | error stop o =>
    rw [result] at output
    cases output

/-- What the function has found is printed, and nothing else. -/
theorem compiled_run_iff_eval_find :
    eval 30 findProgram = .ok () #[7] ∧
    ∃ k m, (Machine.start findCode (#[] : Array Value)).run k = some (.ok .terminated m) ∧
      m.state.output = #[7] :=
  ⟨eval_findProgram, ((compiled_run_iff_eval compile_findProgram (by decide +kernel)
    (by decide +kernel) (by decide) size_after_findCode).1 #[7]).1 ⟨30, eval_findProgram⟩⟩

end NestLang
