import NestLang.Proofs.Calls

/-!
# Returns through blocks

A return statement inside blocks leaves one block after the other: behind the call of each block
its flag is found unset, and the next return follows. A block that comes to its end has its flag
set, and execution goes on behind it.

* `Chart.LeftBlock`: a block is left, and its flag is read.
* `Chart.Sound.unwind`: a return statement inside any number of blocks.
* `compiled_return_unwinds`: **returns reach the function, and ends of blocks do not.**
-/

namespace NestLang

variable {ω : Type}

/-! ## Leaving a block -/

theorem Inside.inFunction {entry params blocks : Nat} {shapes : Levels Shape}
    (h : Inside entry params shapes.toList blocks) : NestLang.inFunction shapes = true := by
  unfold NestLang.inFunction
  generalize shapes.toList = l at h
  induction h with
  | function owner => simp [owner, Owner.isFunction]
  | block _ _ ih => simp [ih]

theorem Live.size_le {c : Chart} {stack : Stack} {p : Point} {base : Nat} {bases : Nat → Nat}
    {calls : List (State ω)} (h : Live c stack p base bases calls) :
    ∀ k ∈ calls, k.stack.size ≤ base := by
  induction h with
  | program _ _ _ => exact nofun
  | call opened _ ih =>
    intro k hk
    have lower := opened.slots_le
    rcases List.mem_cons.1 hk with rfl | hk
    · exact Nat.le_refl _
    · have := ih k hk
      omega

variable [Output ω]

/-- The state `s` returns the value `v` from the block on a level that was called in the state `k`,
and the flag that is read behind the call is `flag`. The point behind the call is `q`. -/
structure Chart.LeftBlock (c : Chart) (s k : State ω) (level base : Nat) (q : Point)
    (calls : List (State ω)) (flag v : Value) : Prop where
  call : c.instr? k.pc = some (.call q.shapes.depth (k.pc + 4))
  size : k.stack.size = base + q.shapes.current.slots + 1
  fits : k.stack.size + 2 ≤ s.stack.size
  held : s.stack[k.stack.size - 1]? = some flag
  top : s.stack.back? = some v
  ret : advance (.ret level 0) s = .ok () (s.leave k level 0 v)
  runs : c.Runs (s.leave k level 0 v) q base calls
  load : c.instr? (k.pc + 1) = some (.load q.shapes.depth q.shapes.current.slots)
  loaded : advance (.load q.shapes.depth q.shapes.current.slots) (s.leave k level 0 v) =
    .ok () ⟨k.pc + 2, (s.leave k level 0 v).stack.push flag, (s.leave k level 0 v).display,
      s.output⟩
  jumpIf : ∃ target, c.instr? (k.pc + 2) = some (.jumpIf target)
  again : c.instr? (k.pc + 3) = some (.ret q.shapes.depth q.shapes.current.owner.params)

/-- **A return from a block** leads to the test of its flag. -/
theorem Chart.Runs.leave_block {c : Chart} {s : State ω} {shapes : Levels Shape} {t base e : Nat}
    {mark : Mark} {calls : List (State ω)} (h : c.Runs s ⟨shapes, t + 1, mark⟩ base calls)
    (bound : s.stack.size < addressBound) (length : c.sites.length < addressBound)
    (left : mark = .leaving ∨ mark = .plain ∧ inFunction shapes = true)
    (owner : shapes.current.owner = .block e) :
    ∃ k calls' base' q v, calls = k :: calls' ∧ e = k.pc + 4 ∧ shapes.outer = q.shapes.toList ∧
      q.temps = 2 ∧ q.mark = (if inFunction q.shapes then .plain else .passed) ∧
      c.LeftBlock s k shapes.depth base' q calls' (if mark = .leaving then 1 else 0) v := by
  obtain ⟨k, calls', level, base', q, v, rfl, opened, top, ret, bases, runs⟩ :=
    h.ret bound length left
  have kind := opened.kind
  have size := opened.size
  have slots := opened.slots
  have depth := opened.depth
  have lower := h.live.size_le k List.mem_cons_self
  have full := h.size
  have frame : (s.display.setBase shapes.depth (k.display.base shapes.depth)).base q.shapes.depth =
    base' := runs.live.base_eq
  obtain ⟨entry, address, call⟩ := opened.instr
  simp only [owner, Owner.params, Owner.entry?, Option.some.injEq] at kind size ret runs address
  simp only [Point.height, Frame.headerSize] at full slots
  cases kind with
  | block landmark temps outer resume flag load jumpIf again =>
    subst address
    have level_eq : level = q.shapes.depth := by
      simp only [Levels.depth] at depth outer ⊢
      rw [outer] at depth
      exact (Nat.succ.inj depth).symm
    rw [level_eq] at call
    simp only [Point.height, temps] at size
    have fits : k.stack.size + 2 ≤ s.stack.size := by omega
    have before : base' + q.shapes.current.slots = k.stack.size - 1 := by omega
    refine ⟨k, calls', base', q, v, rfl, rfl, outer, temps, resume, call, by omega, fits, flag, top,
      ret, runs, load, ?_, ⟨_, jumpIf⟩, again⟩
    refine advance_load (a := base' + q.shapes.current.slots) (by omega) ?_ (by rw [frame]; rfl) ?_
    · rw [Stack.size_take_push (by omega)]
      omega
    · rw [Stack.getElem?_take_push (by omega) (by omega), before]
      exact flag

/-! ## Steps of the machine -/

/-- After `n` steps the machine is ready in the state `s`, with these calls open. -/
structure Machine.At (m : Machine ω) (n : Nat) (s : State ω) (calls : List (State ω)) : Prop where
  ready : (m.after n).status = .ready
  state : (m.after n).state = s
  calls : m.openCalls n = calls

section At

variable {m : Machine ω} {n : Nat} {s s' : State ω} {calls : List (State ω)} {i : Instr}

theorem Machine.At.next?_eq (h : m.At n s calls) : (m.after n).next? = m.code[s.pc]? := by
  rw [Machine.next?, m.code_after, h.state]

theorem Machine.At.after_succ (h : m.At n s calls) (instr : m.code[s.pc]? = some i)
    (ok : advance i s = .ok () s') :
    m.after (n + 1) = ⟨m.code, if m.code.size ≤ s'.pc then .terminated else .ready, s'⟩ := by
  have := Machine.step_ok h.ready (h.next?_eq.trans instr) (h.state.symm ▸ ok)
  rwa [m.code_after] at this

theorem Machine.At.calls_succ (h : m.At n s calls) (instr : m.code[s.pc]? = some i) :
    m.openCalls (n + 1) = i.openCalls s calls := by
  rw [Machine.openCalls_succ h.ready (h.next?_eq.trans instr), h.state, h.calls]

theorem Machine.At.step (h : m.At n s calls) (instr : m.code[s.pc]? = some i)
    (ok : advance i s = .ok () s') (inside : s'.pc < m.code.size) :
    m.At (n + 1) s' (i.openCalls s calls) := by
  have after := h.after_succ instr ok
  rw [if_neg (Nat.not_le_of_lt inside)] at after
  exact ⟨by rw [after], by rw [after], h.calls_succ instr⟩

end At

/-- The return at step `n` leaves the block that was called in the state `b`. Then its flag is read,
from the slot just below its frame. -/
def Machine.ReadsFlag (m : Machine ω) (n : Nat) (b : State ω) (flag : Value) : Prop :=
  (∃ s calls level offset, m.At (n + 1) s calls ∧ s.pc = b.pc + 1 ∧
    m.code[s.pc]? = some (.load level offset) ∧
    (s.display.base level : Int) + offset + 1 = b.stack.size) ∧
  ∃ s calls target, m.At (n + 2) s calls ∧ s.pc = b.pc + 2 ∧
    m.code[s.pc]? = some (.jumpIf target) ∧ s.stack.back? = some flag

/-- The return at step `n` leaves the block that was called in the state `b` with its flag not set.
The jump is not taken, and another return follows. -/
def Machine.Passes (m : Machine ω) (n : Nat) (b : State ω) : Prop :=
  m.ReadsFlag n b 0 ∧ ∃ s calls level params, m.At (n + 3) s calls ∧ s.pc = b.pc + 3 ∧
    m.code[s.pc]? = some (.ret level params)

namespace Chart

variable {c : Chart} {program : Program} {code : Code}

theorem Sound.code_eq (sound : c.Sound program code) {a : Nat} {i : Instr}
    (h : c.instr? a = some i) : code[a]? = some i := (sound.instrs a).symm.trans h

theorem Sound.lt_size (sound : c.Sound program code) {a : Nat} {i : Instr}
    (h : c.instr? a = some i) : a < code.size :=
  (Array.getElem?_eq_some_iff.1 (sound.code_eq h)).1

theorem Sound.lt_of_temps (sound : c.Sound program code) {a : Nat} {q : Point}
    (point : c.point? a = some q) (temps : 1 ≤ q.temps) : a < code.size := by
  rw [← sound.length]
  refine Nat.lt_of_le_of_ne (le_of_point? point) fun last => ?_
  rw [point?, if_pos last, Option.some.injEq] at point
  rw [← point, sound.last.2] at temps
  exact absurd temps (by decide)

section Block

variable {m : Machine ω} {n level base : Nat} {s k : State ω} {calls : List (State ω)} {q : Point}
  {flag v : Value}

theorem LeftBlock.readsFlag (sound : c.Sound program m.code)
    (start : m.At n s (k :: calls)) (instr : c.instr? s.pc = some (.ret level 0))
    (left : c.LeftBlock s k level base q calls flag v) :
    m.ReadsFlag n k flag ∧ m.At (n + 2) ⟨k.pc + 2, (s.leave k level 0 v).stack.push flag,
      (s.leave k level 0 v).display, s.output⟩ calls := by
  obtain ⟨target, jumpIf⟩ := left.jumpIf
  have at₁ := start.step (sound.code_eq instr) left.ret (sound.lt_size left.load)
  have at₂ := at₁.step (sound.code_eq left.load) left.loaded (sound.lt_size jumpIf)
  have size := left.size
  refine ⟨⟨⟨_, _, _, _, at₁, rfl, sound.code_eq left.load, ?_⟩, _, _, _, at₂, rfl,
    sound.code_eq jumpIf, by simp⟩, at₂⟩
  rw [left.runs.live.base_eq]
  omega

theorem LeftBlock.passes (sound : c.Sound program m.code)
    (start : m.At n s (k :: calls)) (instr : c.instr? s.pc = some (.ret level 0))
    (left : c.LeftBlock s k level base q calls 0 v) :
    m.Passes n k ∧ m.At (n + 3) ⟨k.pc + 3, (s.leave k level 0 v).stack,
      (s.leave k level 0 v).display, s.output⟩ calls := by
  obtain ⟨target, jumpIf⟩ := left.jumpIf
  obtain ⟨reads, at₂⟩ := left.readsFlag sound start instr
  have at₃ := at₂.step (sound.code_eq jumpIf) (by rw [advance_jumpIf, if_pos rfl])
    (sound.lt_size left.again)
  exact ⟨⟨reads, _, _, _, _, at₃, rfl, sound.code_eq left.again⟩, at₃⟩

theorem LeftBlock.runs_again (sound : c.Sound program code) {shapes : Levels Shape}
    (left : c.LeftBlock s k level base ⟨shapes, 2, .plain⟩ calls flag v) :
    c.Runs ⟨k.pc + 3, (s.leave k level 0 v).stack, (s.leave k level 0 v).display, s.output⟩
      ⟨shapes, 2, .plain⟩ base calls := by
  obtain ⟨target, jumpIf⟩ := left.jumpIf
  have behindLoad := (sound.fits left.runs.point left.load).load_next
  have behindJump := (sound.fits behindLoad jumpIf).jumpIf_next
  exact left.runs.next behindJump rfl rfl (Nat.le_refl _) Iff.rfl rfl (fun _ _ => rfl)
    left.runs.size trivial

/-- **A return statement** inside some blocks of a function leaves them one after the other, and
then the function. -/
theorem Sound.unwind (sound : c.Sound program m.code) (small : m.code.size < addressBound)
    {shapes : Levels Shape} {t blocks entry params : Nat}
    (inside : Inside entry params shapes.toList blocks) (start : m.At n s calls)
    (runs : c.Runs s ⟨shapes, t + 1, .plain⟩ base calls) (bound : s.stack.size < addressBound)
    (instr : c.instr? s.pc = some (.ret shapes.depth shapes.current.owner.params))
    (top : s.stack.back? = some v) :
    ∃ bs f calls' level s', calls = bs ++ f :: calls' ∧ bs.length = blocks ∧
      c.instr? f.pc = some (.call level entry) ∧
      (∀ i b, bs[i]? = some b → m.Passes (n + 3 * i) b) ∧
      m.At (n + 3 * blocks + 1) s' calls' ∧ s'.pc = f.pc + 1 ∧
      s'.stack = (s.stack.take (f.stack.size - params)).push v := by
  have left : Mark.plain = .leaving ∨ Mark.plain = .plain ∧ inFunction shapes = true :=
    .inr ⟨rfl, inside.inFunction⟩
  generalize hl : shapes.toList = l at inside
  induction inside generalizing shapes t base n s calls with
  | function owner =>
    obtain ⟨⟨_, slots⟩, outer⟩ := shapes
    cases hl
    cases owner
    obtain ⟨f, calls', level, base', q, v', rfl, opened, top', ret, -, runs'⟩ :=
      runs.ret bound (sound.length ▸ small) left
    obtain rfl : v = v' := Option.some.inj (top.symm.trans top')
    obtain ⟨_, address, call⟩ := opened.instr
    cases address
    have at₁ := start.step (sound.code_eq instr) ret (sound.lt_of_temps opened.resume opened.temps)
    exact ⟨[], f, calls', level, _, rfl, rfl, call, nofun, at₁, rfl, rfl⟩
  | @block _ _ blocks entry' owner inside ih =>
    obtain ⟨⟨_, slots⟩, outer⟩ := shapes
    cases hl
    cases owner
    obtain ⟨k, calls', base', q, v', rfl, -, rfl, temps, mark, block⟩ :=
      runs.leave_block bound (sound.length ▸ small) left rfl
    obtain rfl : v = v' := Option.some.inj (top.symm.trans block.top)
    obtain ⟨passes, at₃⟩ := block.passes sound start instr
    have within := inside.inFunction
    obtain ⟨shapes, _, _⟩ := q
    simp only at temps mark within
    rw [within, if_pos rfl] at mark
    subst temps mark
    have fits := block.fits
    have size : ((s.stack.take k.stack.size).push v).size = k.stack.size + 1 :=
      Stack.size_take_push (by omega) v
    obtain ⟨bs, f, calls'', level, s', rfl, len, call, all, at', pc, stack⟩ :=
      ih at₃ (block.runs_again sound) (by simp only [State.leave, Nat.sub_zero, size]; omega)
        block.again (by simp [State.leave]) (.inr ⟨rfl, within⟩) rfl
    have older : f.stack.size ≤ k.stack.size := by
      have := block.runs.live.size_le f (List.mem_append_right _ List.mem_cons_self)
      have := block.size
      omega
    refine ⟨k :: bs, f, calls'', level, s', rfl, congrArg Nat.succ len, call, ?_, ?_, pc, ?_⟩
    · intro i b hb
      cases i with
      | zero =>
        cases hb
        exact passes
      | succ i =>
        have := all i b hb
        rwa [Nat.add_assoc, Nat.add_comm 3, ← Nat.mul_succ] at this
    · rwa [Nat.mul_succ, Nat.add_comm (3 * blocks), ← Nat.add_assoc n]
    · simp only [stack, State.leave, Nat.sub_zero]
      rw [Stack.take_push (by rw [Stack.size_take] <;> omega), Stack.take_take (by omega)]

/-- **The end of a block** is left through its set flag. -/
theorem LeftBlock.exits (sound : c.Sound program m.code) (start : m.At n s (k :: calls))
    (instr : c.instr? s.pc = some (.ret level 0)) (left : c.LeftBlock s k level base q calls 1 v)
    (jumpIf : c.instr? (k.pc + 2) = some (.jumpIf (s.pc + 1)))
    (pop : c.instr? (s.pc + 1) = some .pop) (pop' : c.instr? (s.pc + 2) = some .pop) :
    m.ReadsFlag n k 1 ∧
    (∃ s₃, m.At (n + 3) s₃ calls ∧ s₃.pc = s.pc + 1) ∧
    (∃ s₄, m.At (n + 4) s₄ calls ∧ s₄.pc = s.pc + 2) ∧
    m.openCalls (n + 5) = calls ∧ (m.after (n + 5)).status ≠ .failed ∧
    (m.after (n + 5)).state.pc = s.pc + 3 ∧
    (m.after (n + 5)).state.stack = s.stack.take (k.stack.size - 1) := by
  obtain ⟨reads, at₂⟩ := left.readsFlag sound start instr
  have size := left.size
  have fits := left.fits
  have top : s.stack.take k.stack.size = (s.stack.take (k.stack.size - 1)).push 1 := by
    rw [← Stack.take_succ left.held]
    congr 1
    omega
  have at₃ := at₂.step (sound.code_eq jumpIf) (by rw [advance_jumpIf, if_neg (by decide)])
    (sound.lt_size pop)
  have at₄ := at₃.step (sound.code_eq pop) (advance_pop _) (sound.lt_size pop')
  simp only [Nat.sub_zero, top] at at₄
  have after := at₄.after_succ (sound.code_eq pop') (advance_pop _)
  refine ⟨reads, ⟨_, at₃, rfl⟩, ⟨_, at₄, rfl⟩, at₄.calls_succ (sound.code_eq pop'), ?_, ?_, ?_⟩
  · rw [after]
    dsimp only
    split <;> decide
  · rw [after]
  · rw [after]

end Block

end Chart

/-- **Returns through blocks.** At every step of a compiled program:

* A return statement inside `blocks` blocks of the function at `entry` leaves those blocks one after
  the other. Behind each of them its flag is read, the jump is not taken, and another return
  follows; nothing else is executed. Then the call of the function is over, its frame and its
  arguments are gone, and the value that is returned lies on top of the stack.
* A block that has come to its end leaves with its flag set. The jump is taken, value and flag are
  removed, and execution goes on behind the block. -/
theorem compiled_return_unwinds {program : Program} {code : Code}
    (compiled : compile program = .ok code) (returns : program.ReturnsInside)
    (late : program.NoLateDeclare) (small : code.size < addressBound) (output : ω) (n : Nat)
    (bound : ∀ k ≤ n, ((Machine.start code output).after k).state.stack.size < addressBound)
    (ready : ((Machine.start code output).after n).status = .ready) :
    let m₀ := Machine.start code output
    let s := (m₀.after n).state
    (∀ blocks entry params, program.landmark? s.pc = some (.ret blocks entry params) →
      ∃ v bs f level, s.stack.back? = some v ∧ (∃ l p, code[s.pc]? = some (.ret l p)) ∧
        m₀.openCalls n = bs ++ f :: m₀.openCalls (n + 3 * blocks + 1) ∧ bs.length = blocks ∧
        code[f.pc]? = some (.call level entry) ∧
        (∀ i b, bs[i]? = some b → m₀.Passes (n + 3 * i) b) ∧
        (m₀.after (n + 3 * blocks + 1)).status = .ready ∧
        (m₀.after (n + 3 * blocks + 1)).state.pc = f.pc + 1 ∧
        (m₀.after (n + 3 * blocks + 1)).state.stack =
          (s.stack.take (f.stack.size - params)).push v) ∧
    (∀ entry, program.landmark? s.pc = some (.exit entry) →
      ∃ b level, m₀.openCalls n = b :: m₀.openCalls (n + 5) ∧
        code[b.pc]? = some (.call level entry) ∧ m₀.ReadsFlag n b 1 ∧
        code[b.pc + 2]? = some (.jumpIf (s.pc + 1)) ∧
        (m₀.after (n + 3)).state.pc = s.pc + 1 ∧ (m₀.after (n + 3)).next? = some .pop ∧
        (m₀.after (n + 4)).state.pc = s.pc + 2 ∧ (m₀.after (n + 4)).next? = some .pop ∧
        (m₀.after (n + 5)).status ≠ .failed ∧ (m₀.after (n + 5)).state.pc = s.pc + 3 ∧
        (m₀.after (n + 5)).state.stack = s.stack.take (b.stack.size - 1)) := by
  intro m₀ s
  obtain ⟨c, sound, keeps⟩ := exists_keeps compiled returns late small output n bound
  obtain ⟨p, base, runs⟩ := keeps.runs (by rw [ready]; decide)
  have start : m₀.At n s (m₀.openCalls n) := ⟨ready, rfl, rfl⟩
  have sound : c.Sound program m₀.code := sound
  refine ⟨fun blocks entry params landmark => ?_, fun entry landmark => ?_⟩
  · obtain ⟨shapes, site, inside⟩ := sound.described _ (Program.landmark?_eq_some.1 landmark)
    have instr := Chart.instr?_of_site site
    obtain rfl : p = ⟨shapes, 1, .plain⟩ :=
      Option.some.inj (runs.point.symm.trans (Chart.point?_of_site site))
    obtain ⟨_, _, v, _, _, eq, -⟩ := runs.exists_push
    have top : s.stack.back? = some v := by
      change (m₀.after n).state.stack.back? = _
      rw [eq]
      exact Array.back?_push
    obtain ⟨bs, f, calls, level, s', open_eq, len, call, passes, at', pc, stack⟩ :=
      sound.unwind small inside start runs (bound n (Nat.le_refl n)) instr top
    refine ⟨v, bs, f, level, top, ⟨_, _, sound.code_eq instr⟩, ?_, len, sound.code_eq call, passes,
      at'.ready, ?_, ?_⟩
    · rw [at'.calls, open_eq]
    · rw [at'.state, pc]
    · rw [at'.state, stack]
  · obtain ⟨shapes, site, owner, jumpIf, pop, pop'⟩ :=
      sound.described _ (Program.landmark?_eq_some.1 landmark)
    have instr := Chart.instr?_of_site site
    obtain rfl : p = ⟨shapes, 1, .leaving⟩ :=
      Option.some.inj (runs.point.symm.trans (Chart.point?_of_site site))
    obtain ⟨b, calls, base', q, v, open_eq, rfl, -, -, -, block⟩ :=
      runs.leave_block (bound n (Nat.le_refl n)) (sound.length ▸ small) (.inl rfl) owner
    have start : m₀.At n s (b :: calls) := open_eq ▸ start
    obtain ⟨reads, ⟨s₃, at₃, pc₃⟩, ⟨s₄, at₄, pc₄⟩, calls_eq, status, pc, stack⟩ :=
      block.exits sound start instr jumpIf pop pop'
    refine ⟨b, _, ?_, sound.code_eq block.call, reads, sound.code_eq jumpIf, ?_, ?_, ?_, ?_, status,
      pc, stack⟩
    · rw [calls_eq, open_eq]
    · rw [at₃.state, pc₃]
    · rw [at₃.next?_eq, pc₃]
      exact sound.code_eq pop
    · rw [at₄.state, pc₄]
    · rw [at₄.next?_eq, pc₄]
      exact sound.code_eq pop'

/-- The return from within the blocks leaves three of them and then the function. -/
theorem compiled_return_unwinds_find :
    let m₀ := Machine.start findCode (#[] : Array Value)
    let s := (m₀.after 53).state
    findProgram.landmark? s.pc = some (.ret 3 6 1) ∧
    ∃ v bs f level, s.stack.back? = some v ∧ (∃ l p, findCode[s.pc]? = some (.ret l p)) ∧
      m₀.openCalls 53 = bs ++ f :: m₀.openCalls (53 + 3 * 3 + 1) ∧ bs.length = 3 ∧
      findCode[f.pc]? = some (.call level 6) ∧
      (∀ i b, bs[i]? = some b → m₀.Passes (53 + 3 * i) b) ∧
      (m₀.after (53 + 3 * 3 + 1)).status = .ready ∧
      (m₀.after (53 + 3 * 3 + 1)).state.pc = f.pc + 1 ∧
      (m₀.after (53 + 3 * 3 + 1)).state.stack = (s.stack.take (f.stack.size - 1)).push v := by
  have unwinds := compiled_return_unwinds compile_findProgram (by decide +kernel)
    (by decide +kernel) (by decide) (#[] : Array Value) 53 (fun k _ => size_after_findCode k)
    (by decide +kernel)
  have landmark : findProgram.landmark?
      ((Machine.start findCode (#[] : Array Value)).after 53).state.pc = some (.ret 3 6 1) := by
    decide +kernel
  exact ⟨landmark, unwinds.1 3 6 1 landmark⟩

end NestLang
