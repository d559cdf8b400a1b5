import NestLang.Proofs.Safety

/-!
# The discipline of calls

Calls and returns of a compiled program match like brackets. A return ends the call that was made
last, restores every level of the display and takes the arguments off the stack.

* `Program.paramsAt?`: the number of arguments that a body takes.
* `compiled_calls_match`: **calls and returns match.**
-/

namespace NestLang

variable {ω : Type}

/-- The number of arguments of the body at an address: the number of parameters of the function, or
`0` for a block. -/
def Program.paramsAt? (program : Program) (a : Nat) : Option Nat :=
  match program.landmark? a with
  | some (.function params) => some params
  | some .block => some 0
  | _ => none

theorem Live.header {c : Chart} {stack : Stack} {p : Point} {base : Nat} {bases : Nat → Nat}
    {calls : List (State ω)} (h : Live c stack p base bases calls) :
    ∀ k ∈ calls, ∃ level entry, c.instr? k.pc = some (.call level entry) ∧
      stack[k.stack.size]? = some (.ofAddress (k.display.base (level + 1))) ∧
      stack[k.stack.size + 1]? = some (.ofAddress (k.pc + 1)) := by
  induction h with
  | program _ _ _ => exact nofun
  | call opened _ ih =>
    intro k hk
    rcases List.mem_cons.1 hk with rfl | hk
    · obtain ⟨entry, -, instr⟩ := opened.instr
      exact ⟨_, entry, instr, opened.savedBase, opened.savedPc⟩
    · exact ih k hk

theorem Live.eq_nil {c : Chart} {stack : Stack} {p : Point} {base : Nat} {bases : Nat → Nat}
    {calls : List (State ω)} (h : Live c stack p base bases calls) (outer : p.shapes.outer = []) :
    calls = [] := by
  cases h with
  | program _ _ _ => rfl
  | call opened _ =>
    have depth := opened.depth
    rw [Levels.depth, outer] at depth
    cases depth

theorem Chart.Opened.paramsAt?_eq {c : Chart} {program : Program} {code : Code} {stack : Stack}
    {k : State ω} {level base : Nat} {p q : Point} (sound : c.Sound program code)
    (h : c.Opened stack k level base p q) :
    ∃ entry, c.instr? k.pc = some (.call level entry) ∧
      program.paramsAt? entry = some p.shapes.current.owner.params := by
  obtain ⟨entry, owner, instr⟩ := h.instr
  have kind := h.kind
  refine ⟨entry, instr, ?_⟩
  generalize p.shapes.current.owner = o at owner kind
  cases kind with
  | function landmark _ _ =>
    cases owner
    rw [sound.landmarks, ← Program.landmark?_eq_some] at landmark
    simp [Program.paramsAt?, landmark, Owner.params]
  | block landmark _ _ _ _ _ _ _ =>
    cases owner
    rw [sound.landmarks, ← Program.landmark?_eq_some] at landmark
    simp [Program.paramsAt?, landmark, Owner.params]

theorem Instr.mem_openCalls {i : Instr} {s k : State ω} {calls : List (State ω)}
    (h : k ∈ i.openCalls s calls) : k = s ∨ k ∈ calls := by
  cases i with
  | call _ _ => exact List.mem_cons.1 h
  | ret _ _ => exact .inr (List.mem_of_mem_tail h)
  | _ => exact .inr h

variable [Output ω]

theorem Machine.mem_openCalls {m : Machine ω} {n : Nat} {k : State ω} (h : k ∈ m.openCalls n) :
    ∃ j < n, (m.after j).status = .ready ∧ (m.after j).state = k := by
  induction n with
  | zero => cases h
  | succ n ih =>
    have earlier (h : k ∈ m.openCalls n) :
        ∃ j < n + 1, (m.after j).status = .ready ∧ (m.after j).state = k := by
      obtain ⟨j, hj, found⟩ := ih h
      exact ⟨j, Nat.lt_succ_of_lt hj, found⟩
    rw [Machine.openCalls] at h
    split at h
    · rename_i ready _
      rcases Instr.mem_openCalls h with rfl | h
      · exact ⟨n, Nat.lt_succ_self n, ready, rfl⟩
      · exact earlier h
    · exact earlier h

/-- **Call discipline.** At every step of a compiled program:

* every open call was executed at an earlier step, and the header of its frame still holds the base
  that the level had then and the address behind the call;
* a return ends the call made last, on the level above that of the call and with the number of
  arguments that the called body takes; then execution goes on behind the call with every level of
  the display as it was before the call, and the stack has one value in place of the arguments;
* a machine that has terminated has no open calls. -/
theorem compiled_calls_match {program : Program} {code : Code}
    (compiled : compile program = .ok code) (returns : program.ReturnsInside)
    (late : program.NoLateDeclare) (small : code.size < addressBound) (output : ω) (n : Nat)
    (bound : ∀ k ≤ n, ((Machine.start code output).after k).state.stack.size < addressBound) :
    let m₀ := Machine.start code output
    let m := m₀.after n
    (∀ k ∈ m₀.openCalls n,
      (∃ j < n, (m₀.after j).status = .ready ∧ (m₀.after j).state = k) ∧
      ∃ level target, code[k.pc]? = some (.call level target) ∧
        m.state.stack[k.stack.size]? = some (.ofAddress (k.display.base (level + 1))) ∧
        m.state.stack[k.stack.size + 1]? = some (.ofAddress (k.pc + 1))) ∧
    (m.status = .ready → ∀ level params, m.next? = some (.ret level params) →
      ∃ k l target, m₀.openCalls n = k :: m₀.openCalls (n + 1) ∧
        code[k.pc]? = some (.call l target) ∧ level = l + 1 ∧
        program.paramsAt? target = some params ∧
        (m₀.after (n + 1)).status ≠ .failed ∧ (m₀.after (n + 1)).state.pc = k.pc + 1 ∧
        (∀ i, (m₀.after (n + 1)).state.display.base i = k.display.base i) ∧
        (m₀.after (n + 1)).state.stack.size + params = k.stack.size + 1) ∧
    (m.status = .terminated → m₀.openCalls n = []) := by
  intro m₀ m
  obtain ⟨c, sound, keeps⟩ := exists_keeps compiled returns late small output n bound
  have hcode : m.code = code := Machine.code_after _ n
  refine ⟨fun k hk => ⟨Machine.mem_openCalls hk, ?_⟩, fun ready level params next => ?_,
    fun ended => ?_⟩
  · obtain ⟨p, base, live⟩ := keeps.live
    obtain ⟨level, entry, instr, header⟩ := live.header k hk
    exact ⟨level, entry, (sound.instrs _).symm.trans instr, header⟩
  · obtain ⟨p, base, runs⟩ := keeps.runs (by rw [show _ = _ from ready]; decide)
    have instr : c.instr? m.state.pc = some (.ret level params) := by
      rw [sound.instrs, ← hcode]
      exact next
    cases sound.fits runs.point instr with
    | unary operator _ => simp at operator
    | @ret shapes t mark left =>
      obtain ⟨k, calls, l, base', q, v, open_eq, opened, -, step, bases, runs'⟩ :=
        runs.ret (bound n (Nat.le_refl n)) (sound.length ▸ small) left
      obtain ⟨entry, call, params⟩ := opened.paramsAt?_eq sound
      have after : m₀.after (n + 1) = _ := Machine.step_ok ready next step
      have calls_eq : m₀.openCalls (n + 1) = calls := by
        rw [Machine.openCalls_succ ready next, open_eq]
        rfl
      refine ⟨k, l, entry, by rw [calls_eq, open_eq], (sound.instrs _).symm.trans call,
        opened.depth, params, ?_, ?_, fun i => ?_, ?_⟩
      · rw [after]
        dsimp only
        split <;> decide
      · rw [after]
        rfl
      · rw [after]
        exact congrFun bases i
      · rw [after]
        have size := runs'.size
        have before := opened.size
        dsimp only at size before ⊢
        omega
  · obtain ⟨p, base, runs⟩ := keeps.runs (by rw [show _ = _ from ended]; decide)
    have last : c.point? m.state.pc = some c.last := by
      have pc : m.state.pc = c.sites.length := Nat.le_antisymm keeps.pc_le (keeps.ended ended)
      rw [pc, Chart.point?, if_pos rfl]
    have point : p = c.last := Option.some.inj (runs.point.symm.trans last)
    exact runs.live.eq_nil (point ▸ sound.last.1)

/-- The return from within the blocks ends the call of the innermost block. -/
theorem compiled_calls_match_find :
    let m₀ := Machine.start findCode (#[] : Array Value)
    (m₀.after 53).next? = some (.ret 4 0) ∧
    ∃ k l target, m₀.openCalls 53 = k :: m₀.openCalls (53 + 1) ∧
      findCode[k.pc]? = some (.call l target) ∧ 4 = l + 1 ∧
      findProgram.paramsAt? target = some 0 ∧
      (m₀.after (53 + 1)).status ≠ .failed ∧ (m₀.after (53 + 1)).state.pc = k.pc + 1 ∧
      (∀ i, (m₀.after (53 + 1)).state.display.base i = k.display.base i) ∧
      (m₀.after (53 + 1)).state.stack.size + 0 = k.stack.size + 1 := by
  have calls := compiled_calls_match compile_findProgram (by decide +kernel) (by decide +kernel)
    (by decide) (#[] : Array Value) 53 fun k _ => size_after_findCode k
  have next : ((Machine.start findCode (#[] : Array Value)).after 53).next? = some (.ret 4 0) := by
    decide +kernel
  exact ⟨next, calls.2.1 (by decide +kernel) 4 0 next⟩

end NestLang
