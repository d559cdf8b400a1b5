import NestLang.Proofs.Extension

/-!
# The output does not feed back

No instruction looks at the output. Two machines that differ in their outputs only do the same, as
long as their outputs take what is printed in the same way.

* `State.mapOutput`, `Machine.mapOutput`: the same with another output.
* `Exec.Mirrors`: two actions that do the same but for the output.
* `advance_mapOutput`, `Machine.step_mapOutput`: **an instruction and a step with another output.**
* `bounded_output`: **a bounded output shows only when it refuses a value.**
-/

namespace NestLang

variable {ω ω' α β : Type}

/-! ## Other outputs -/

/-- The end of an action, with the state that it has reached replaced. -/
def mapReached {ε σ τ : Type} (g : σ → τ) : EStateM.Result ε σ α → EStateM.Result ε τ α
  | .ok a s => .ok a (g s)
  | .error e s => .error e (g s)

/-- The state with another output. -/
def State.mapOutput (f : ω → ω') (s : State ω) : State ω' :=
  ⟨s.pc, s.stack, s.display, f s.output⟩

/-- The machine with another output. -/
def Machine.mapOutput (f : ω → ω') (m : Machine ω) : Machine ω' :=
  ⟨m.code, m.status, m.state.mapOutput f⟩

@[simp] theorem Machine.status_mapOutput (f : ω → ω') (m : Machine ω) :
    (m.mapOutput f).status = m.status := rfl

@[simp] theorem Machine.next?_mapOutput (f : ω → ω') (m : Machine ω) :
    (m.mapOutput f).next? = m.next? := rfl

@[simp] theorem Machine.split_mapReached (f : ω → ω') (answer : Machine.Answer ω Status) :
    (Machine.Answer.split (mapReached (Machine.mapOutput f) answer)) =
      (answer.split.1, answer.split.2.mapOutput f) := by
  cases answer <;> rfl

namespace Exec

variable {f : ω → ω'} {x : Exec ω α} {y : Exec ω' α} {g : α → Exec ω β} {h : α → Exec ω' β}

/-- The second action does with another output what the first one does. -/
def Mirrors (f : ω → ω') (x : Exec ω α) (y : Exec ω' α) : Prop :=
  ∀ s, y (s.mapOutput f) = mapReached (State.mapOutput f) (x s)

theorem Mirrors.bind (first : Mirrors f x y) (rest : ∀ a, Mirrors f (g a) (h a)) :
    Mirrors f (x >>= g) (y >>= h) := by
  intro s
  rw [bind_run, bind_run, first s]
  cases x s with
  | ok a s' => exact rest a s'
  | error e s' => rfl

theorem mirrors_pure (a : α) : Mirrors f (pure a) (pure a) := fun _ => rfl

theorem mirrors_throw (fault : Fault) : Mirrors f (throw fault : Exec ω α) (throw fault) :=
  fun _ => rfl

theorem mirrors_base (level : Nat) : Mirrors f (base level) (base level) := fun _ => rfl

theorem mirrors_push (v : Value) : Mirrors f (push v) (push v) := fun _ => rfl

theorem mirrors_goto (address : Nat) : Mirrors f (goto address) (goto address) := fun _ => rfl

theorem mirrors_setBase (level base : Nat) : Mirrors f (setBase level base) (setBase level base) :=
  fun _ => rfl

theorem mirrors_truncate (size : Nat) : Mirrors f (truncate size) (truncate size) := fun _ => rfl

theorem mirrors_onStack (action : EStateM Fault Stack α) :
    Mirrors f (onStack action) (onStack action) := by
  intro s
  simp only [onStack, State.mapOutput]
  cases action s.stack <;> rfl

theorem mirrors_slot (level : Nat) (offset : Int) :
    Mirrors f (slot level offset) (slot level offset) := by
  refine (mirrors_base level).bind fun base => ?_
  by_cases range : signed base + offset < -addressBound ∨ addressBound ≤ signed base + offset
  · simp only [if_pos range]
    exact mirrors_throw _
  · simp only [if_neg range]
    by_cases negative : signed base + offset < 0
    · simp only [if_pos negative]
      exact mirrors_throw _
    · simp only [if_neg negative]
      exact mirrors_pure _

theorem mirrors_savedAddress (v : Value) : Mirrors f (savedAddress v) (savedAddress v) := by
  unfold savedAddress
  cases v.address? with
  | some address => exact mirrors_pure _
  | none => exact mirrors_throw _

theorem mirrors_enter (level target : Nat) :
    Mirrors f (enter level target) (enter level target) := by
  intro s
  unfold enter
  by_cases high : wordCount ≤ level + 1
  · rw [if_pos high, if_pos high]
    rfl
  · rw [if_neg high, if_neg high]
    rfl

theorem mirrors_leave (level params : Nat) :
    Mirrors f (leave level params) (leave level params) := by
  refine (mirrors_onStack _).bind fun result => (mirrors_base level).bind fun frame => ?_
  refine (mirrors_onStack _).bind fun savedBase => (mirrors_onStack _).bind fun savedPc => ?_
  refine (mirrors_savedAddress _).bind fun base => (mirrors_setBase level base).bind fun _ => ?_
  by_cases low : frame < params
  · simp only [if_pos low]
    exact mirrors_throw _
  · simp only [if_neg low]
    refine (mirrors_truncate _).bind fun _ => (mirrors_savedAddress _).bind fun address => ?_
    exact (mirrors_goto address).bind fun _ => mirrors_push result

end Exec

/-! ## Instructions and steps -/

section Instructions

open Exec

variable [Output ω] [Output ω'] {f : ω → ω'}

/-- **An instruction that does not print** does the same with any output. -/
theorem mirrors_exec {i : Instr} (silent : i ≠ .print) : Mirrors f (exec i) (exec i) := by
  cases i with
  | lit v => exact mirrors_push v
  | pop => exact (mirrors_onStack _).bind fun _ => mirrors_pure _
  | load level offset =>
    exact (mirrors_slot level offset).bind fun _ =>
      (mirrors_onStack _).bind fun _ => mirrors_push _
  | store level offset =>
    exact (mirrors_onStack _).bind fun _ =>
      (mirrors_slot level offset).bind fun _ => mirrors_onStack _
  | jump target => exact mirrors_goto target
  | jumpIf target =>
    refine (mirrors_onStack _).bind fun v => ?_
    by_cases taken : v ≠ 0
    · simp only [if_pos taken]
      exact mirrors_goto target
    · simp only [if_neg taken]
      exact mirrors_pure _
  | neg | not => exact (mirrors_onStack _).bind fun _ => mirrors_push _
  | binary op =>
    refine (mirrors_onStack _).bind fun operands => ?_
    cases result : op.apply? operands.1 operands.2 with
    | some value =>
      simp only [result]
      exact mirrors_push _
    | none =>
      simp only [result]
      exact mirrors_throw _
  | call level target => exact mirrors_enter level target
  | ret level params => exact mirrors_leave level params
  | print => exact absurd rfl silent

theorem advance_print_top {s : State ω} {v : Value} (top : s.stack.back? = some v) :
    advance .print s = match Output.print v s.output with
      | .ok _ output => .ok () ⟨s.pc + 1, s.stack.pop, s.display, output⟩
      | .error cause output =>
        .error (.output cause) ⟨s.pc + 1, s.stack.pop, s.display, output⟩ := by
  change (Exec.pop >>= fun v => Exec.print v) { s with pc := s.pc + 1 } = _
  rw [bind_run]
  simp only [Exec.pop, Exec.onStack, Stack.popTop, top]
  rfl

theorem advance_print_empty {s : State ω} (empty : s.stack.back? = none) :
    advance .print s = .error .stackUnderflow { s with pc := s.pc + 1 } := by
  change (Exec.pop >>= fun v => Exec.print v) { s with pc := s.pc + 1 } = _
  rw [bind_run]
  simp only [Exec.pop, Exec.onStack, Stack.popTop, empty]

/-- The other output takes the value that would be printed next in the same way. -/
def State.PrintsAlike (f : ω → ω') (s : State ω) : Prop :=
  ∀ v, s.stack.back? = some v → Output.print v (f s.output) = mapReached f (Output.print v s.output)

/-- **An instruction with another output.** -/
theorem advance_mapOutput (i : Instr) (s : State ω) (alike : i = .print → s.PrintsAlike f) :
    advance i (s.mapOutput f) = mapReached (State.mapOutput f) (advance i s) := by
  by_cases silent : i = .print
  · subst silent
    cases top : s.stack.back? with
    | none =>
      rw [advance_print_empty top, advance_print_empty (s := s.mapOutput f) top]
      rfl
    | some v =>
      rw [advance_print_top top, advance_print_top (s := s.mapOutput f) top]
      simp only [State.mapOutput, alike rfl v top]
      cases Output.print v s.output <;> rfl
  · exact mirrors_exec silent { s with pc := s.pc + 1 }

/-- **A step with another output.** -/
theorem Machine.step_mapOutput {m : Machine ω}
    (alike : m.status = .ready → m.next? = some .print → m.state.PrintsAlike f) :
    (m.mapOutput f).step = mapReached (Machine.mapOutput f) m.step := by
  by_cases ready : m.status = .ready
  · cases next : m.next? with
    | none =>
      rw [step_end ready next, step_end (m := m.mapOutput f) ready next]
      rfl
    | some i =>
      have mapped := advance_mapOutput (f := f) i m.state fun print => alike ready (print ▸ next)
      cases result : advance i m.state with
      | ok _ s =>
        rw [result] at mapped
        rw [step_answer ready next result, step_answer (m := m.mapOutput f) ready next mapped]
        rfl
      | error fault s =>
        rw [result] at mapped
        rw [step_error ready next result, step_error (m := m.mapOutput f) ready next mapped]
        rfl
  · rw [step_ended ready, step_ended (m := m.mapOutput f) ready]
    rfl

end Instructions

/-! ## Bounded outputs -/

/-- **Only a print changes the output.** -/
theorem Machine.output_step_cases (m : Machine (Array Value)) :
    m.step.split.2.state.output = m.state.output ∨
      m.status = .ready ∧ m.next? = some .print ∧ ∃ v, m.state.stack.back? = some v := by
  by_cases ready : m.status = .ready
  · cases next : m.next? with
    | none =>
      rw [step_end ready next]
      exact .inl rfl
    | some i =>
      by_cases silent : i = .print
      · subst silent
        cases top : m.state.stack.back? with
        | none =>
          rw [step_error ready next (advance_print_empty top)]
          exact .inl rfl
        | some v => exact .inr ⟨ready, rfl, v, rfl⟩
      · have kept := keeps_output silent { m.state with pc := m.state.pc + 1 }
        cases result : advance i m.state with
        | ok _ s =>
          change exec i { m.state with pc := m.state.pc + 1 } = _ at result
          rw [result] at kept
          rw [step_ok ready next result]
          exact .inl kept
        | error fault s =>
          change exec i { m.state with pc := m.state.pc + 1 } = _ at result
          rw [result] at kept
          rw [step_error ready next result]
          exact .inl kept
  · rw [step_ended ready]
    exact .inl rfl

theorem Machine.step_print {m : Machine (Array Value)} {v : Value} (ready : m.status = .ready)
    (next : m.next? = some .print) (top : m.state.stack.back? = some v) :
    m.step.split.2.state =
      ⟨m.state.pc + 1, m.state.stack.pop, m.state.display, m.state.output.push v⟩ := by
  have printed := advance_print_top top
  rw [step_ok ready next printed]

/-- A bounded output that holds some values. -/
def Bounded.holding (capacity : Nat) (cause : OutputFault) (values : Array Value) : Bounded :=
  ⟨values, capacity, cause⟩

section Bounded

variable {n : Nat} {cause : OutputFault} {m : Machine (Array Value)}

theorem State.printsAlike_holding {s : State (Array Value)} (room : s.output.size < n) :
    s.PrintsAlike (Bounded.holding n cause) := by
  intro v _
  change (if s.output.size < n then _ else _) = _
  rw [if_pos room]
  rfl

/-- **A step that leaves at most `n` values printed** is the same with room for `n` values. -/
theorem Machine.step_holding (le : m.step.split.2.state.output.size ≤ n) :
    (m.mapOutput (Bounded.holding n cause)).step =
      mapReached (Machine.mapOutput (Bounded.holding n cause)) m.step := by
  refine step_mapOutput fun ready next v top => ?_
  refine State.printsAlike_holding ?_ v top
  rw [step_print ready next top, Array.size_push] at le
  exact le

theorem Machine.step_full {v : Value} (ready : m.status = .ready) (next : m.next? = some .print)
    (top : m.state.stack.back? = some v) (full : m.state.output.size = n) :
    (m.mapOutput (Bounded.holding n cause)).step = .error ⟨.output cause, m.state.pc⟩
      ⟨m.code, .failed, ⟨m.state.pc + 1, m.state.stack.pop, m.state.display,
        Bounded.holding n cause m.state.output⟩⟩ := by
  have refused : Output.print v (Bounded.holding n cause m.state.output) =
      .error cause (Bounded.holding n cause m.state.output) := by
    change (if m.state.output.size < n then _ else _) = _
    rw [if_neg (Nat.not_lt_of_le (Nat.le_of_eq full.symm))]
    rfl
  have printed := advance_print_top (s := m.state.mapOutput (Bounded.holding n cause)) top
  simp only [State.mapOutput, refused] at printed
  exact step_error (m := m.mapOutput (Bounded.holding n cause)) ready next printed

/-- **As long as at most `n` values are printed**, a machine with room for `n` values does the
same. -/
theorem Machine.after_holding (k : Nat) (le : (m.after k).state.output.size ≤ n) :
    (m.mapOutput (Bounded.holding n cause)).after k =
      (m.after k).mapOutput (Bounded.holding n cause) := by
  induction k with
  | zero => rfl
  | succ k ih =>
    have grows := (output_after (m := m) (Nat.le_succ k)).length_le
    rw [Array.length_toList, Array.length_toList] at grows
    change ((m.mapOutput (Bounded.holding n cause)).after k).step.split.2 = _
    rw [ih (Nat.le_trans grows le), step_holding le, split_mapReached]
    rfl

end Bounded

/-- **The output influences a run only by refusing a value.** Compare a machine that prints to an
array with one that prints to a bounded output, both at the start of a program:

* after any number of steps in which at most `n` values are printed, both have the same program
  counter, stack, display, status and printed values, and every step has had the same result;
* at a step in which the array takes a value beyond the `n` that fit, the bounded output refuses it.
  The step fails with the cause of the output at the address of the print, and leaves program
  counter, stack and display as the other machine has them after this step, with the first `n`
  values printed. -/
theorem bounded_output (code : Code) (n : Nat) (cause : OutputFault) (k : Nat) :
    let m := Machine.start code (#[] : Array Value)
    let b := Machine.start code (Bounded.holding n cause #[])
    ((m.after k).state.output.size ≤ n →
      b.after k = (m.after k).mapOutput (Bounded.holding n cause) ∧
      ∀ j < k, (b.after j).step.split.1 = (m.after j).step.split.1) ∧
    ((m.after k).state.output.size = n → (m.after (k + 1)).state.output.size = n + 1 →
      code[(m.after k).state.pc]? = some .print ∧
      (b.after k).step = .error ⟨.output cause, (m.after k).state.pc⟩ ⟨code, .failed,
        (m.after (k + 1)).state.mapOutput fun values =>
          Bounded.holding n cause (values.take n)⟩) := by
  intro m b
  have same (j : Nat) (le : (m.after j).state.output.size ≤ n) :
      b.after j = (m.after j).mapOutput (Bounded.holding n cause) := Machine.after_holding j le
  refine ⟨fun le => ⟨same k le, fun j lt => ?_⟩, fun full more => ?_⟩
  · have printed {i : Nat} (before : i ≤ k) : (m.after i).state.output.size ≤ n := by
      have grows := (Machine.output_after (m := m) before).length_le
      rw [Array.length_toList, Array.length_toList] at grows
      exact Nat.le_trans grows le
    rw [same j (printed (Nat.le_of_lt lt)), Machine.step_holding (printed lt),
      Machine.split_mapReached]
  · have hcode : (m.after k).code = code := Machine.code_after m k
    rcases (m.after k).output_step_cases with kept | ⟨ready, next, v, top⟩
    · change (m.after k).step.split.2.state.output.size = n + 1 at more
      rw [kept, full] at more
      exact absurd more (Nat.ne_of_lt (Nat.lt_succ_self n))
    · refine ⟨hcode ▸ next, ?_⟩
      have printed : (m.after (k + 1)).state = ⟨_, _, _, _⟩ := Machine.step_print ready next top
      rw [same k (Nat.le_of_eq full), Machine.step_full ready next top full, hcode, printed]
      simp only [State.mapOutput, Stack.take_push (Nat.le_of_eq full.symm)]
      rw [← full, Array.take_eq_extract, Array.extract_size]

/-- A program that prints two values. -/
def twoPrints : Code := #[.lit 4, .print, .lit 5, .print]

/-- Of two values the second one is refused. -/
theorem bounded_output_twoPrints :
    let m := Machine.start twoPrints (#[] : Array Value)
    let b := Machine.start twoPrints (Bounded.holding 1 .brokenPipe #[])
    (m.after 3).state.output.size = 1 ∧ (m.after (3 + 1)).state.output.size = 1 + 1 ∧
      (b.after 3).step = .error ⟨.output .brokenPipe, (m.after 3).state.pc⟩ ⟨twoPrints, .failed,
        (m.after (3 + 1)).state.mapOutput fun values =>
          Bounded.holding 1 .brokenPipe (values.take 1)⟩ := by
  have full : ((Machine.start twoPrints (#[] : Array Value)).after 3).state.output.size = 1 := by
    decide +kernel
  have more : ((Machine.start twoPrints (#[] : Array Value)).after (3 + 1)).state.output.size =
      1 + 1 := by decide +kernel
  obtain ⟨-, refused⟩ := bounded_output twoPrints 1 .brokenPipe 3
  exact ⟨full, more, (refused full more).2⟩

end NestLang
