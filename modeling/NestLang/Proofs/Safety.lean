import NestLang.Proofs.Running

/-!
# Safety of compiled programs

A machine that executes a compiled program stays in order at every step, as long as the stack and
the program are smaller than the range of addresses that a word can store.

* `Machine.openCalls`: the calls that were executed and not ended yet.
* `Machine.moves`: what one step of a machine can be.
* `Chart.Keeps`, `keeps_after`: **the machine is in order after any number of steps.**
* `compiled_step_safe`: no step underflows the stack or uses an address outside of it.
-/

namespace NestLang

variable {ω : Type}

/-- The machine is in order: the frames on its stack are, unless an instruction has failed its state
runs, and it terminates only behind the program. -/
structure Chart.Keeps (c : Chart) (m : Machine ω) (calls : List (State ω)) : Prop where
  pc_le : m.state.pc ≤ c.sites.length
  live : ∃ p base, Live c m.state.stack p base m.state.display.base calls
  runs : m.status ≠ .failed → ∃ p base, c.Runs m.state p base calls
  ended : m.status = .terminated → c.sites.length ≤ m.state.pc

theorem Chart.Runs.keeps {c : Chart} {m : Machine ω} {p : Point} {base : Nat}
    {calls : List (State ω)} (h : c.Runs m.state p base calls)
    (ended : m.status = .terminated → c.sites.length ≤ m.state.pc) : c.Keeps m calls where
  pc_le := Chart.le_of_point? h.point
  live := ⟨p, base, h.live⟩
  runs := fun _ => ⟨p, base, h⟩
  ended := ended

theorem Chart.Sound.keeps_start {c : Chart} {program : Program} {code : Code}
    (sound : c.Sound program code) (output : ω) :
    c.Keeps (Machine.start code output) [] := by
  have bases : Display.base #[] = fun _ => 0 := funext fun n => by simp [Display.base]
  have live : Live c #[] (Ctx.initial.point 0) 0 (Display.base #[]) ([] : List (State ω)) := by
    rw [bases]
    exact .program rfl rfl nofun
  exact Chart.Runs.keeps ⟨sound.start, live, rfl, trivial⟩ nofun

variable [Output ω]

namespace Machine

/-- The states in which the calls were executed that are open after some steps, the last one
first. -/
def openCalls (m : Machine ω) : Nat → List (State ω)
  | 0 => []
  | n + 1 =>
    match (m.after n).status, (m.after n).next? with
    | .ready, some i => i.openCalls (m.after n).state (m.openCalls n)
    | _, _ => m.openCalls n

theorem openCalls_succ {m : Machine ω} {n : Nat} {i : Instr} (ready : (m.after n).status = .ready)
    (next : (m.after n).next? = some i) :
    m.openCalls (n + 1) = i.openCalls (m.after n).state (m.openCalls n) := by
  simp [openCalls, ready, next]

theorem openCalls_ended {m : Machine ω} {n : Nat} (ended : (m.after n).status ≠ .ready) :
    m.openCalls (n + 1) = m.openCalls n := by
  cases status : (m.after n).status with
  | ready => exact absurd status ended
  | terminated | failed => simp [openCalls, status]

theorem code_step (m : Machine ω) : m.step.split.2.code = m.code := by
  by_cases ready : m.status = .ready
  · cases next : m.next? with
    | none =>
      rw [step_end ready next]
      rfl
    | some i =>
      cases result : advance i m.state with
      | ok _ s => rw [step_ok ready next result]
      | error _ s =>
        rw [step_error ready next result]
        rfl
  · rw [step_ended ready]
    rfl

theorem code_after (m : Machine ω) (n : Nat) : (m.after n).code = m.code := by
  induction n with
  | zero => rfl
  | succ n ih => exact (code_step _).trans ih

/-- What the next step of the machine is: it has ended before, it comes to the end of the code, it
executes an instruction, or it fails to. -/
inductive Moves (m : Machine ω) (n : Nat) : Prop
  | rests (after : m.after (n + 1) = m.after n) (calls : m.openCalls (n + 1) = m.openCalls n)
  | ends (ready : (m.after n).status = .ready) (next : m.code[(m.after n).state.pc]? = none)
      (after : m.after (n + 1) = ⟨m.code, .terminated, (m.after n).state⟩)
      (calls : m.openCalls (n + 1) = m.openCalls n)
  | executes {i s} (ready : (m.after n).status = .ready)
      (next : m.code[(m.after n).state.pc]? = some i)
      (ok : advance i (m.after n).state = .ok () s)
      (after : m.after (n + 1) = ⟨m.code, if m.code.size ≤ s.pc then .terminated else .ready, s⟩)
      (calls : m.openCalls (n + 1) = i.openCalls (m.after n).state (m.openCalls n))
  | fails {i fault s} (ready : (m.after n).status = .ready)
      (next : m.code[(m.after n).state.pc]? = some i)
      (error : advance i (m.after n).state = .error fault s)
      (after : m.after (n + 1) = ⟨m.code, .failed, s⟩)
      (calls : m.openCalls (n + 1) = i.openCalls (m.after n).state (m.openCalls n))

theorem moves (m : Machine ω) (n : Nat) : m.Moves n := by
  have hcode := m.code_after n
  by_cases ready : (m.after n).status = .ready
  · cases next : (m.after n).next? with
    | none =>
      refine .ends ready (hcode ▸ next) ?_ (by simp [openCalls, next])
      rw [← hcode]
      exact congrArg (fun answer => answer.split.2) (step_end ready next)
    | some i =>
      cases result : advance i (m.after n).state with
      | ok _ s =>
        refine .executes ready (hcode ▸ next) result ?_ (openCalls_succ ready next)
        rw [← hcode]
        exact step_ok ready next result
      | error fault s =>
        refine .fails ready (hcode ▸ next) result ?_ (openCalls_succ ready next)
        rw [← hcode]
        exact congrArg (fun answer => answer.split.2) (step_error ready next result)
  · exact .rests (after_ended ready (Nat.le_succ n)) (openCalls_ended ready)

end Machine

section Keeps

variable {c : Chart} {program : Program} {code : Code}

/-- **One step** keeps the machine in order. -/
theorem Chart.Sound.keeps_step (sound : c.Sound program code) (small : code.size < addressBound)
    {m : Machine ω} {n : Nat} (hcode : m.code = code)
    (bound : (m.after n).state.stack.size < addressBound)
    (h : c.Keeps (m.after n) (m.openCalls n)) :
    c.Keeps (m.after (n + 1)) (m.openCalls (n + 1)) := by
  subst hcode
  have length : c.sites.length < addressBound := sound.length ▸ small
  cases m.moves n with
  | rests after calls =>
    rw [after, calls]
    exact h
  | ends ready next after calls =>
    obtain ⟨p, base, runs⟩ := h.runs (by rw [ready]; decide)
    rw [after, calls]
    refine Chart.Runs.keeps (m := ⟨_, .terminated, _⟩) runs fun _ => ?_
    rw [sound.length]
    exact Array.getElem?_eq_none_iff.1 next
  | executes ready next ok after calls =>
    obtain ⟨p, base, runs⟩ := h.runs (by rw [ready]; decide)
    have instr := (sound.instrs _).trans next
    have outcome := runs.step (sound.fits runs.point instr) instr bound length
    rw [ok] at outcome
    rw [after, calls]
    cases outcome with
    | next p base runs =>
      refine runs.keeps fun ended => ?_
      rw [sound.length]
      simpa using ended
  | fails ready next error after calls =>
    obtain ⟨p, base, runs⟩ := h.runs (by rw [ready]; decide)
    have instr := (sound.instrs _).trans next
    have lt : (m.after n).state.pc < c.sites.length := by
      rw [sound.length]
      exact (Array.getElem?_eq_some_iff.1 next).1
    have outcome := runs.step (sound.fits runs.point instr) instr bound length
    rw [error] at outcome
    rw [after, calls]
    cases outcome with
    | division p base instr pc live | output p base instr pc live =>
      exact ⟨pc ▸ lt, ⟨p, base, instr ▸ live⟩, fun failed => absurd rfl failed, nofun⟩

/-- **The machine is in order after any number of steps.** -/
theorem Chart.Sound.keeps_after (sound : c.Sound program code) (small : code.size < addressBound)
    (output : ω) (n : Nat) (bound : ∀ k < n,
      ((Machine.start code output).after k).state.stack.size < addressBound) :
    c.Keeps ((Machine.start code output).after n) ((Machine.start code output).openCalls n) := by
  induction n with
  | zero => exact sound.keeps_start output
  | succ n ih =>
    refine sound.keeps_step small rfl (bound n (Nat.lt_succ_self n)) (ih fun k hk => ?_)
    exact bound k (Nat.lt_succ_of_lt hk)

end Keeps

theorem exists_keeps {program : Program} {code : Code} (compiled : compile program = .ok code)
    (returns : program.ReturnsInside) (late : program.NoLateDeclare)
    (small : code.size < addressBound) (output : ω) (n : Nat)
    (bound : ∀ k ≤ n, ((Machine.start code output).after k).state.stack.size < addressBound) :
    ∃ c : Chart, c.Sound program code ∧
      c.Keeps ((Machine.start code output).after n) ((Machine.start code output).openCalls n) := by
  obtain ⟨c, sound⟩ := exists_chart compiled returns late
  exact ⟨c, sound, sound.keeps_after small output n fun k hk => bound k (Nat.le_of_lt hk)⟩

/-! ## A return out of a loop -/

/-- A function that returns from within three blocks: the frame of a loop, its body and a branch. -/
def findProgram : Program :=
  [.function "find" ["limit"]
    [.loop (.declare "i" (.int 0)) (.binary .lt (.var "i") (.var "limit"))
      (.expr (.post .increment (.var "i")))
      [.cond (.binary .eq (.var "i") (.int 1)) [.ret (some (.binary .add (.var "i") (.int 6)))]
        .none]],
    .expr (.call "print" [.call "find" [.int 3]])]

/-- The code of `findProgram`. -/
def findCode : Code :=
  #[.jump 5, .load 1 (-1), .print, .lit 0, .ret 1 1,
    .jump 66, .lit 0, .call 1 11, .load 1 2, .jumpIf 62, .ret 1 1,
    .lit 0, .lit 0, .store 2 2, .load 2 2, .load 1 (-1), .binary .lt, .not, .jumpIf 58,
    .lit 0, .call 2 24, .load 2 3, .jumpIf 49, .ret 2 0,
    .load 2 2, .lit 1, .binary .eq, .not, .jumpIf 45,
    .lit 0, .call 3 34, .load 3 2, .jumpIf 42, .ret 3 0,
    .load 2 2, .lit 6, .binary .add, .ret 4 0,
    .lit 1, .store 4 (-1), .lit 0, .ret 4 0, .pop, .pop, .jump 45,
    .lit 1, .store 3 (-1), .lit 0, .ret 3 0, .pop, .pop,
    .load 2 2, .load 2 2, .lit 1, .binary .add, .store 2 2, .pop, .jump 14,
    .lit 1, .store 2 (-1), .lit 0, .ret 2 0, .pop, .pop, .lit 0, .ret 1 1,
    .lit 3, .call 0 6, .call 0 1, .pop]

/-- A compilation is compared as an option, for which equality is decidable. -/
theorem compile_of_toOption {program : Program} {code : Code}
    (h : (compile program).toOption = some code) : compile program = .ok code := by
  cases result : compile program with
  | ok code' =>
    rw [result] at h
    exact congrArg Except.ok (Option.some.inj h)
  | error e =>
    rw [result] at h
    cases h

theorem compile_findProgram : compile findProgram = .ok findCode :=
  compile_of_toOption (by decide +kernel)

theorem size_after_findCode (n : Nat) :
    ((Machine.start findCode (#[] : Array Value)).after n).state.stack.size < addressBound := by
  have first : ∀ k ≤ 69,
      ((Machine.start findCode (#[] : Array Value)).after k).state.stack.size < addressBound := by
    decide +kernel
  by_cases le : n ≤ 69
  · exact first n le
  · rw [Machine.after_ended (n := 69) (by decide +kernel) (Nat.le_of_not_le le)]
    exact first 69 (Nat.le_refl _)

/-! ## Safety -/

/-- **Runtime safety.** After any number of steps of a compiled program the program counter lies in
the program or just behind it. The next step can fail only because a division by zero is executed,
because the output refuses a value, or because the machine has ended; and a slot that is loaded or
stored next lies on the stack, for a store below the value. -/
theorem compiled_step_safe {program : Program} {code : Code}
    (compiled : compile program = .ok code) (returns : program.ReturnsInside)
    (late : program.NoLateDeclare) (small : code.size < addressBound) (output : ω) (n : Nat)
    (bound : ∀ k ≤ n, ((Machine.start code output).after k).state.stack.size < addressBound) :
    let m := (Machine.start code output).after n
    m.state.pc ≤ code.size ∧
    (∀ e m', m.step = .error e m' →
      e.fault = .divisionByZero ∧ m.next? = some (.binary .div) ∨
      (∃ cause, e.fault = .output cause) ∧ m.next? = some .print ∨
      e.fault = .notReady ∧ m.status ≠ .ready) ∧
    (m.status = .ready → ∀ level offset,
      (m.next? = some (.load level offset) →
        ∃ a : Nat, (m.state.display.base level : Int) + offset = a ∧ a < m.state.stack.size) ∧
      (m.next? = some (.store level offset) →
        ∃ a : Nat, (m.state.display.base level : Int) + offset = a ∧
          a + 1 < m.state.stack.size)) := by
  intro m
  obtain ⟨c, sound, keeps⟩ := exists_keeps compiled returns late small output n bound
  have hcode : m.code = code := Machine.code_after _ n
  have instr {i : Instr} (next : m.next? = some i) : c.instr? m.state.pc = some i := by
    rw [sound.instrs, ← hcode]
    exact next
  refine ⟨sound.length ▸ keeps.pc_le, fun e m' error => ?_, fun ready level offset => ?_⟩
  · by_cases ready : m.status = .ready
    · obtain ⟨p, base, runs⟩ := keeps.runs (by rw [ready]; decide)
      obtain ⟨i, s, next, result⟩ := Machine.step_eq_error ready error
      have outcome := runs.step (sound.fits runs.point (instr next)) (instr next)
        (bound n (Nat.le_refl n)) (sound.length ▸ small)
      rw [result] at outcome
      generalize e.fault = fault at outcome
      cases outcome with
      | division _ _ division _ _ => exact .inl ⟨rfl, division ▸ next⟩
      | output _ _ print _ _ => exact .inr (.inl ⟨⟨_, rfl⟩, print ▸ next⟩)
    · rw [Machine.step_ended ready] at error
      cases error
      exact .inr (.inr ⟨rfl, ready⟩)
  · obtain ⟨p, base, runs⟩ := keeps.runs (by rw [ready]; decide)
    exact ⟨fun next => runs.load_inside (sound.fits runs.point (instr next)),
      fun next => runs.store_inside (sound.fits runs.point (instr next))⟩

/-- The return from within the blocks loads the variable of the loop, three frames further out. -/
theorem compiled_step_safe_find :
    let m := (Machine.start findCode (#[] : Array Value)).after 50
    m.next? = some (.load 2 2) ∧ m.state.pc ≤ findCode.size ∧
      ∃ a : Nat, (m.state.display.base 2 : Int) + 2 = a ∧ a < m.state.stack.size := by
  have safe := compiled_step_safe compile_findProgram (by decide +kernel) (by decide +kernel)
    (by decide) (#[] : Array Value) 50 fun k _ => size_after_findCode k
  have next : ((Machine.start findCode (#[] : Array Value)).after 50).next? = some (.load 2 2) := by
    decide +kernel
  exact ⟨next, safe.1, (safe.2.2 (by decide +kernel) 2 2).1 next⟩

end NestLang
