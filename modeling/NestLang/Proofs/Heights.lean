import NestLang.Proofs.Calls
import NestLang.Proofs.Effects
import NestLang.Proofs.Visits

/-!
# The height of the stack

The slots that the compiler has taken are the values that lie on the stack. Where the code of a
statement starts, the innermost frame holds exactly the slots taken so far, and the code of an
expression leaves one more value than there was.

* `Machine.Within`: the machine executes a piece of code, or what was called from there.
* `Chart.Watches.evaluates`: the code of an expression is executed from its start to its end.
* `compiled_stack_height`: **static slots are the dynamic height of the stack.**
-/

namespace NestLang

variable {ω : Type}

/-! ## Frames -/

theorem Live.base_of_calls {c : Chart} {stack : Stack} {p : Point} {base : Nat} {bases : Nat → Nat}
    {calls : List (State ω)} (h : Live c stack p base bases calls) :
    base = (calls.head?.map fun k => k.stack.size).getD 0 := by
  cases h with
  | program _ _ _ => rfl
  | call _ _ => rfl

theorem Live.bases_eq_zero {c : Chart} {stack : Stack} {p : Point} {base : Nat} {bases : Nat → Nat}
    {calls : List (State ω)} (h : Live c stack p base bases calls) (none : calls = []) (n : Nat) :
    bases n = 0 := by
  subst none
  cases h
  rfl

theorem Chart.Runs.size_eq {c : Chart} {s : State ω} {p : Point} {base : Nat}
    {calls : List (State ω)} (h : c.Runs s p base calls) :
    s.stack.size = s.display.base p.shapes.depth + p.height := by
  rw [h.size, h.live.base_eq]

variable [Output ω]

/-! ## Points between statements -/

/-- Where nothing lies above the slots, the stack ends with the slots of the innermost frame. -/
def Chart.Levelled (c : Chart) (s : State ω) : Prop :=
  ∀ p, c.point? s.pc = some p → p.temps = 0 →
    s.stack.size = s.display.base p.shapes.depth + p.shapes.current.slots

omit [Output ω] in
theorem Chart.Runs.levelled {c : Chart} {s : State ω} {p : Point} {base : Nat}
    {calls : List (State ω)} (h : c.Runs s p base calls) : c.Levelled s := by
  intro q point temps
  obtain rfl := Option.some.inj (h.point.symm.trans point)
  rw [h.size_eq, Point.height, temps]
  rfl

/-- An instruction that fails leaves values above the slots, or none because the output has refused
the last one. -/
theorem Chart.Runs.levelled_of_error {c : Chart} {s s' : State ω} {p : Point} {base : Nat}
    {calls : List (State ω)} {i : Instr} {fault : Fault} (h : c.Runs s p base calls)
    (fits : c.Fits s.pc p i) (instr : c.instr? s.pc = some i)
    (bound : s.stack.size < addressBound) (length : c.sites.length < addressBound)
    (error : advance i s = .error fault s') : c.Levelled s' := by
  intro q point temps
  have outcome := h.step fits instr bound length
  rw [error] at outcome
  cases outcome with
  | division _ _ division pc _ =>
    subst division
    cases fits with
    | unary operator _ => simp at operator
    | binary next =>
      rw [pc, next] at point
      cases point
      cases temps
  | output _ _ print pc _ =>
    subst print
    cases fits with
    | unary operator _ => simp at operator
    | @print shapes t next =>
      have frame := h.live.base_eq
      obtain ⟨pc, stack, v, display, output, rfl, size⟩ := h.exists_push
      rw [advance_print] at error
      cases result : Output.print v output with
      | ok _ output' =>
        rw [result] at error
        cases error
      | error cause output' =>
        rw [result] at error
        cases error
        rw [next] at point
        cases point
        dsimp only at temps frame ⊢
        rw [frame, size, temps]
        rfl

/-! ## Runs -/

/-- For so many steps the machine is in order, and its stack can be addressed. -/
structure Chart.Watches (c : Chart) (program : Program) (m : Machine ω) (n : Nat) : Prop where
  sound : c.Sound program m.code
  small : m.code.size < addressBound
  ready : m.status = .ready
  keeps : ∀ k ≤ n, c.Keeps (m.after k) (m.openCalls k)
  bound : ∀ k ≤ n, (m.after k).state.stack.size < addressBound

namespace Chart.Watches

variable {c : Chart} {program : Program} {m : Machine ω} {k n : Nat}

theorem mono (h : c.Watches program m n) (le : k ≤ n) : c.Watches program m k where
  sound := h.sound
  small := h.small
  ready := h.ready
  keeps := fun j hj => h.keeps j (Nat.le_trans hj le)
  bound := fun j hj => h.bound j (Nat.le_trans hj le)

theorem runs (h : c.Watches program m n) (running : (m.after n).status ≠ .failed) :
    ∃ p base, c.Runs (m.after n).state p base (m.openCalls n) :=
  (h.keeps n (Nat.le_refl n)).runs running

theorem levelled (h : c.Watches program m n) : c.Levelled (m.after n).state := by
  induction n with
  | zero =>
    have running : m.status ≠ .failed := by rw [h.ready]; decide
    obtain ⟨p, base, runs⟩ := h.runs running
    exact runs.levelled
  | succ n ih =>
    have before := h.mono (Nat.le_succ n)
    cases m.moves n with
    | rests after _ | ends _ _ after _ =>
      rw [after]
      exact ih before
    | executes _ _ _ after _ =>
      obtain ⟨p, base, runs⟩ := h.runs (by rw [after]; dsimp only; split <;> decide)
      exact runs.levelled
    | fails ready next error after _ =>
      obtain ⟨p, base, runs⟩ := before.runs (by rw [ready]; decide)
      have instr := (h.sound.instrs _).trans next
      rw [after]
      exact runs.levelled_of_error (h.sound.fits runs.point instr) instr
        (before.bound n (Nat.le_refl n)) (h.sound.length ▸ h.small) error

end Chart.Watches

/-! ## The code of expressions -/

/-- After `n` steps the machine executes the code from `a` up to `b` that it has executed after `k`
steps, or what has been called from there. -/
def Machine.Within (m : Machine ω) (a b k n : Nat) : Prop :=
  ∃ inner, m.openCalls n = inner ++ m.openCalls k ∧
    a ≤ (inner.getLastD (m.after n).state).pc ∧ (inner.getLastD (m.after n).state).pc < b

/-- From step `k` to step `n` the machine executes the code from `a` up to `b`, or it has done so
until some step at which it fails or is at the end, with the same calls open as in the beginning
and one more value on the stack. -/
def Machine.Evaluates (m : Machine ω) (a b k n : Nat) : Prop :=
  (∀ j, k ≤ j → j ≤ n → m.Within a b k j) ∨
    ∃ j, k < j ∧ j ≤ n ∧ (∀ i, k ≤ i → i < j → m.Within a b k i) ∧
      ((m.after j).status ≠ .failed →
        (m.after j).state.pc = b ∧ m.openCalls j = m.openCalls k ∧
          (m.after j).state.stack.size = (m.after k).state.stack.size + 1)

/-- The step before `n` has executed a return in the code from `a` up to `b`, which has ended the
last call that was open after `k` steps. Execution goes on behind that call. -/
def Machine.Returns (m : Machine ω) (a b k n : Nat) : Prop :=
  ∃ j level params call, n = j + 1 ∧
    m.code[(m.after j).state.pc]? = some (.ret level params) ∧
    a ≤ (m.after j).state.pc ∧ (m.after j).state.pc < b ∧
    m.openCalls k = call :: m.openCalls n ∧ (m.after n).state.pc = call.pc + 1

theorem Machine.within_or_end_of_le {m : Machine ω} {a b k n : Nat}
    (calls : m.openCalls n = m.openCalls k) (first : a ≤ (m.after n).state.pc)
    (last : (m.after n).state.pc ≤ b) :
    m.Within a b k n ∨ (m.after n).state.pc = b ∧ m.openCalls n = m.openCalls k := by
  obtain atEnd | lt := Nat.eq_or_lt_of_le last
  · exact .inr ⟨atEnd, calls⟩
  · exact .inl ⟨[], calls, first, lt⟩

theorem Machine.within_or_end {m : Machine ω} {a b k n x : Nat}
    (calls : m.openCalls n = m.openCalls k) (pc : (m.after n).state.pc = x + 1) (first : a ≤ x)
    (last : x < b) :
    m.Within a b k n ∨ (m.after n).state.pc = b ∧ m.openCalls n = m.openCalls k :=
  Machine.within_or_end_of_le calls (by omega) (by omega)

theorem Machine.within_of_cons {m : Machine ω} {a b k n : Nat} {inner : List (State ω)}
    {call s : State ω} (calls : m.openCalls n = call :: inner ++ m.openCalls k)
    (first : a ≤ ((call :: inner).getLastD s).pc) (last : ((call :: inner).getLastD s).pc < b) :
    m.Within a b k n := by
  refine ⟨call :: inner, calls, ?_⟩
  rw [List.getLastD_cons] at first last ⊢
  exact ⟨first, last⟩

theorem Machine.within_of_ret {m : Machine ω} {a b k n : Nat} {inner : List (State ω)}
    {call s : State ω} (calls : m.openCalls n = inner ++ m.openCalls k)
    (pc : (m.after n).state.pc = call.pc + 1) (first : a ≤ ((call :: inner).getLastD s).pc)
    (last : ((call :: inner).getLastD s).pc < b) :
    m.Within a b k n ∨ (m.after n).state.pc = b ∧ m.openCalls n = m.openCalls k := by
  rw [List.getLastD_cons] at first last
  cases inner with
  | nil => exact Machine.within_or_end calls pc first last
  | cons outer inner => exact .inl (Machine.within_of_cons calls first last)

/-- Execution goes on at the next address, at once or when the call has ended. -/
def Instr.Passes (i : Instr) : Prop := i.isLocal = true ∨ ∃ level entry, i = .call level entry

omit [Output ω] in
theorem Instr.openCalls_eq {i : Instr} {s : State ω} {calls : List (State ω)}
    (call : ∀ level entry, i ≠ .call level entry) (ret : ∀ level params, i ≠ .ret level params) :
    i.openCalls s calls = calls := by
  cases i with
  | call level entry => exact absurd rfl (call level entry)
  | ret level params => exact absurd rfl (ret level params)
  | _ => rfl

/-- A jump leads to an address from `a` to `b`. -/
def Instr.Stays (a b : Nat) (i : Instr) : Prop :=
  ∀ target, i = .jump target ∨ i = .jumpIf target → a ≤ target ∧ target ≤ b

theorem Instr.Passes.stays {i : Instr} (passes : i.Passes) (a b : Nat) : i.Stays a b := by
  rintro target (rfl | rfl) <;> obtain isLocal | ⟨_, _, eq⟩ := passes
  · cases isLocal
  · cases eq
  · cases isLocal
  · cases eq

/-- What every step keeps or turns into something else holds to the end, or until the first step at
which the other thing holds. -/
theorem holds_or_until {P Q : Nat → Prop} {k n : Nat} (le : k ≤ n) (start : P k)
    (step : ∀ i, k ≤ i → i < n → P i → P (i + 1) ∨ Q (i + 1)) :
    (∀ j, k ≤ j → j ≤ n → P j) ∨
      ∃ j, k < j ∧ j ≤ n ∧ (∀ i, k ≤ i → i < j → P i) ∧ Q j := by
  induction le with
  | refl =>
    refine .inl fun j first last => ?_
    obtain rfl := Nat.le_antisymm last first
    exact start
  | @step n le ih =>
    obtain holds | ⟨j, after, last, reached⟩ :=
      ih fun i first before => step i first (Nat.lt_succ_of_lt before)
    · have before (i : Nat) (first : k ≤ i) (lt : i < n + 1) : P i :=
        holds i first (Nat.le_of_lt_succ lt)
      obtain next | next := step n le (Nat.lt_succ_self n) (holds n le (Nat.le_refl n))
      · refine .inl fun j first last => ?_
        obtain rfl | lt := Nat.eq_or_lt_of_le last
        · exact next
        · exact before j first lt
      · exact .inr ⟨n + 1, Nat.lt_succ_of_le le, Nat.le_refl _, before, next⟩
    · exact .inr ⟨j, after, Nat.le_succ_of_le last, reached⟩

namespace Chart.Watches

variable {c : Chart} {program : Program} {m : Machine ω} {a b k n : Nat}

theorem ret (h : c.Watches program m n) {level params : Nat}
    (next : m.code[(m.after n).state.pc]? = some (.ret level params))
    (ready : (m.after n).status = .ready) :
    ∃ call calls s, m.openCalls n = call :: calls ∧ s.pc = call.pc + 1 ∧
      advance (.ret level params) (m.after n).state = .ok () s := by
  obtain ⟨p, base, runs⟩ := h.runs (by rw [ready]; decide)
  cases h.sound.fits runs.point ((h.sound.instrs _).trans next) with
  | unary operator _ => simp at operator
  | ret left =>
    obtain ⟨call, calls, _, _, _, v, open_eq, -, -, step, -, -⟩ :=
      runs.ret (h.bound n (Nat.le_refl n)) (h.sound.length ▸ h.small) left
    exact ⟨call, calls, _, open_eq, rfl, step⟩

/-- **One step** of a machine that executes some code from which no jump leads away: it goes on in
the code, it comes to its end, or a return in the code ends the call that was open before. -/
theorem leaves_step (h : c.Watches program m n)
    (stays : ∀ x i, a ≤ x → x < b → c.instr? x = some i → i.Stays a b) (within : m.Within a b k n)
    (running : (m.after (n + 1)).status ≠ .failed) :
    m.Within a b k (n + 1) ∨
      ((m.after (n + 1)).state.pc = b ∧ m.openCalls (n + 1) = m.openCalls k) ∨
      m.Returns a b k (n + 1) := by
  obtain ⟨inner, open_eq, first, last⟩ := within
  cases m.moves n with
  | rests after calls | ends _ _ after calls =>
    refine .inl ⟨inner, calls.trans open_eq, ?_⟩
    rw [after]
    exact ⟨first, last⟩
  | fails _ _ _ after _ => exact absurd (by rw [after]) running
  | @executes i s ready next ok after calls =>
    have instr := (h.sound.instrs _).trans next
    have state : (m.after (n + 1)).state = s := by rw [after]
    rw [open_eq] at calls
    by_cases call : ∃ level entry, i = .call level entry
    · -- the outermost call stays, or this one is it
      obtain ⟨level, entry, rfl⟩ := call
      refine .inl ⟨(m.after n).state :: inner, calls, ?_⟩
      rw [List.getLastD_cons]
      exact ⟨first, last⟩
    have call := fun level entry eq => call ⟨level, entry, eq⟩
    by_cases ret : ∃ level params, i = .ret level params
    · obtain ⟨level, params, rfl⟩ := ret
      obtain ⟨caller, _, s', open_eq', pc, step⟩ := h.ret next ready
      cases ok.symm.trans step
      rw [open_eq] at open_eq'
      cases inner with
      | nil =>
        -- the return stands in the code itself
        have ended : m.openCalls k = caller :: m.openCalls (n + 1) := by
          rw [calls, open_eq']
          exact open_eq'
        exact .inr (.inr ⟨n, level, params, caller, rfl, next, first, last, ended,
          by rw [state, pc]⟩)
      | cons call inner =>
        cases open_eq'
        exact (Machine.within_of_ret calls (by rw [state, pc]) first last).imp_right .inl
    have ret := fun level params eq => ret ⟨level, params, eq⟩
    rw [Instr.openCalls_eq call ret] at calls
    cases inner with
    | nil =>
      have stays := stays _ _ first last instr
      obtain ⟨pc, -⟩ | jump | jump := advance_pc ok call ret
      · have pc : (m.after (n + 1)).state.pc = (m.after n).state.pc + 1 := by rw [state, pc]
        exact (Machine.within_or_end calls pc first last).imp_right .inl
      · obtain ⟨first, last⟩ := stays s.pc (.inl jump)
        exact (Machine.within_or_end_of_le calls (state ▸ first) (state ▸ last)).imp_right .inl
      · obtain ⟨first, last⟩ := stays s.pc (.inr jump)
        exact (Machine.within_or_end_of_le calls (state ▸ first) (state ▸ last)).imp_right .inl
    | cons outer inner => exact .inl (Machine.within_of_cons calls first last)

/-- **A machine that starts some code** from which no jump leads away executes it until it fails,
comes to the end, or leaves by a return. -/
theorem leaves_after (h : c.Watches program m n)
    (stays : ∀ x i, a ≤ x → x < b → c.instr? x = some i → i.Stays a b) (le : k ≤ n) (lt : a < b)
    (start : (m.after k).state.pc = a) :
    (∀ j, k ≤ j → j ≤ n → m.Within a b k j) ∨
      ∃ j, k < j ∧ j ≤ n ∧ (∀ i, k ≤ i → i < j → m.Within a b k i) ∧
        ((m.after j).status ≠ .failed →
          ((m.after j).state.pc = b ∧ m.openCalls j = m.openCalls k) ∨ m.Returns a b k j) := by
  refine holds_or_until le ⟨[], rfl, ?_⟩ fun i _ before within => ?_
  · rw [List.getLastD_nil, start]
    exact ⟨Nat.le_refl _, lt⟩
  · by_cases stayed : m.Within a b k (i + 1)
    · exact .inl stayed
    · refine .inr fun running => ?_
      exact ((h.mono (Nat.le_of_lt before)).leaves_step stays within running).resolve_left stayed

/-- **A machine that starts some code** without jumps and returns executes it until it fails or
comes to the end. -/
theorem within_after (h : c.Watches program m n)
    (passes : ∀ x i, a ≤ x → x < b → c.instr? x = some i → i.Passes) (le : k ≤ n) (lt : a < b)
    (start : (m.after k).state.pc = a) :
    (∀ j, k ≤ j → j ≤ n → m.Within a b k j) ∨
      ∃ j, k < j ∧ j ≤ n ∧ (∀ i, k ≤ i → i < j → m.Within a b k i) ∧
        ((m.after j).status ≠ .failed →
          (m.after j).state.pc = b ∧ m.openCalls j = m.openCalls k) := by
  have stays := fun x i first last instr => (passes x i first last instr).stays a b
  obtain within | ⟨j, after, last, inside, arrived⟩ := h.leaves_after stays le lt start
  · exact .inl within
  refine .inr ⟨j, after, last, inside, fun running => (arrived running).resolve_right ?_⟩
  -- there is no return in the code itself
  rintro ⟨i, level, params, _, rfl, ret, first, last', -, -⟩
  obtain isLocal | ⟨_, _, eq⟩ := passes _ _ first last' ((h.sound.instrs _).trans ret)
  · cases isLocal
  · cases eq

end Chart.Watches

mutual

theorem Expr.Emits.passes {ctx : Ctx} {t : Nat} {e : Expr} {sites : List Site} :
    Expr.Emits ctx t e sites → ∀ s ∈ sites, s.instr.Passes
  | .int, s, hs | .bool, s, hs | .var _ _, s, hs => by
    obtain rfl := List.mem_singleton.1 hs
    exact .inl rfl
  | .call _ operands, s, hs => by
    rcases List.mem_append.1 hs with hs | hs
    · exact operands.passes s hs
    · obtain rfl := List.mem_singleton.1 hs
      exact .inr ⟨_, _, rfl⟩
  | @Expr.Emits.unary _ _ op _ _ operand, s, hs => by
    rcases List.mem_append.1 hs with hs | hs
    · exact operand.passes s hs
    · obtain ⟨i, hi, rfl⟩ := List.mem_map.1 hs
      cases op with
      | plus => cases hi
      | not | minus =>
        obtain rfl := List.mem_singleton.1 hi
        exact .inl rfl
  | .binary left right, s, hs => by
    rcases List.mem_append.1 hs with hs | hs
    · rcases List.mem_append.1 hs with hs | hs
      · exact left.passes s hs
      · exact right.passes s hs
    · obtain rfl := List.mem_singleton.1 hs
      exact .inl rfl
  | .post _, s, hs => by
    simp only [List.mem_cons, List.not_mem_nil, or_false] at hs
    rcases hs with rfl | rfl | rfl | rfl | rfl <;> exact .inl rfl

theorem Expr.EmitsAll.passes {ctx : Ctx} {t : Nat} {es : List Expr} {sites : List Site} :
    Expr.EmitsAll ctx t es sites → ∀ s ∈ sites, s.instr.Passes
  | .nil, s, hs => by cases hs
  | .cons head tail, s, hs => by
    rcases List.mem_append.1 hs with hs | hs
    · exact head.passes s hs
    · exact tail.passes s hs

end

theorem Chart.Shows.instr_mem {c : Chart} {a x : Nat} {q : Point} {l : List Site} {i : Instr}
    (h : c.Shows a q l) (first : a ≤ x) (last : x < a + l.length) (instr : c.instr? x = some i) :
    ∃ s ∈ l, s.instr = i := by
  induction l generalizing a with
  | nil => exact absurd last (Nat.not_lt.2 first)
  | cons s l ih =>
    obtain rfl | lt := Nat.eq_or_lt_of_le first
    · refine ⟨s, List.mem_cons_self, ?_⟩
      exact Option.some.inj ((Chart.instr?_of_site h.1).symm.trans instr)
    · obtain ⟨s', hs', eq⟩ := ih h.2 lt (by rw [List.length_cons] at last; omega)
      exact ⟨s', List.mem_cons_of_mem _ hs', eq⟩

/-- **Evaluating an expression** leaves one more value on the stack. -/
theorem Chart.Watches.evaluates {c : Chart} {program : Program} {m : Machine ω} {ctx : Ctx}
    {t a k n : Nat} {e : Expr} {sites : List Site} (h : c.Watches program m n)
    (emits : Expr.Emits ctx t e sites) (stands : c.Shows a (ctx.point (t + 1)) sites) (le : k ≤ n)
    (ready : (m.after k).status = .ready) (start : (m.after k).state.pc = a) :
    m.Evaluates a (a + sites.length) k n := by
  have lt : a < a + sites.length := by
    obtain ⟨i, rest, rfl⟩ := emits.start
    exact Nat.lt_add_of_pos_right (Nat.succ_pos _)
  have passes (x : Nat) (i : Instr) (first : a ≤ x) (last : x < a + sites.length)
      (instr : c.instr? x = some i) : i.Passes := by
    obtain ⟨s, hs, rfl⟩ := stands.instr_mem first last instr
    exact emits.passes s hs
  obtain within | ⟨j, after, last, inside, arrived⟩ := h.within_after passes le lt start
  · exact .inl within
  refine .inr ⟨j, after, last, inside, fun running => ?_⟩
  obtain ⟨pc, calls⟩ := arrived running
  refine ⟨pc, calls, ?_⟩
  obtain ⟨p, base, runs⟩ := (h.mono le).runs (by rw [ready]; decide)
  obtain ⟨p', base', runs'⟩ := (h.mono last).runs running
  have point := runs.point
  have point' := runs'.point
  rw [start, emits.point (by rw [List.append_nil]; exact stands)] at point
  rw [pc, stands.next] at point'
  obtain rfl := Option.some.inj point
  obtain rfl := Option.some.inj point'
  -- both points lie in the frame of the same call
  have bases : base' = base := by
    rw [runs.live.base_of_calls, runs'.live.base_of_calls, calls]
  rw [runs.size, runs'.size, bases]
  rfl

/-! ## The end of a program -/

theorem Chart.Watches.terminated {c : Chart} {program : Program} {m : Machine ω} {ctx : Ctx}
    {n : Nat} (h : c.Watches program m n) (ended : (m.after n).status = .terminated)
    (last : c.point? m.code.size = some (ctx.point 0)) (outer : ctx.shapes.outer = []) :
    (m.after n).state.pc = m.code.size ∧ (m.after n).state.stack.size = ctx.slots ∧
      ∀ level, (m.after n).state.display.base level = 0 := by
  have keeps := h.keeps n (Nat.le_refl n)
  have pc : (m.after n).state.pc = m.code.size := by
    rw [← h.sound.length]
    exact Nat.le_antisymm keeps.pc_le (keeps.ended ended)
  obtain ⟨p, base, runs⟩ := h.runs (by rw [ended]; decide)
  have point := runs.point
  rw [pc, last] at point
  obtain rfl := Option.some.inj point
  have none := runs.live.eq_nil outer
  have bases := runs.live.bases_eq_zero none
  refine ⟨pc, ?_, bases⟩
  rw [runs.size_eq, bases, Nat.zero_add]
  rfl

theorem Part.Emits.slots_eq {body : List Stmt} {ctx ctx' : Ctx} {a : Nat} {sites : List Site}
    (h : Part.Emits ctx a (.stmts body) sites ctx') :
    ctx'.slots = ctx.slots + body.countP Stmt.isDeclare := by
  induction body generalizing ctx a sites with
  | nil =>
    cases h
    rfl
  | cons s rest ih =>
    cases h with
    | @cons _ _ _ _ _ ctx₁ _ _ head tail =>
      have slots : ctx₁.slots = ctx.slots + if s.isDeclare then 1 else 0 := by
        cases declares : s.isDeclare with
        | false => simp [Ctx.slots, head.shapes_eq declares]
        | true =>
          cases head with
          | declare _ => rfl
          | _ => cases declares
      rw [ih tail, slots, List.countP_cons]
      omega

/-- **The slots of the program** belong to its declarations in order. -/
theorem slot_of_compile {before rest : List Stmt} {name : String} {value : Expr} {code : Code}
    (compiled : compile (before ++ .declare name value :: rest) = .ok code) :
    ∃ σ σ', Stmt.compileAll before
        (Session.initial.starting (before ++ .declare name value :: rest)) = .ok () σ ∧
      (Stmt.declare name value).compile σ = .ok () σ' ∧
      σ'.scopes.resolve? name = some (.var 0 (before.countP Stmt.isDeclare : Nat)) := by
  obtain ⟨_, done, -⟩ := compileAll_of_compile compiled
  rw [Stmt.compileAll_append, bind_eq_ok] at done
  obtain ⟨_, σ, first, done⟩ := done
  rw [Stmt.compileAll, bind_eq_ok] at done
  obtain ⟨_, σ', second, -⟩ := done
  obtain ⟨sites, ctx, emits, emitted⟩ :=
    Stmt.emitsAll_of_compile before (Session.shows_starting _) first
  obtain ⟨sites', ctx', emits', emitted'⟩ := Stmt.emits_of_compile _ emitted.shows second
  refine ⟨σ, σ', first, second, ?_⟩
  have slots : ctx.slots = before.countP Stmt.isDeclare := by
    rw [emits.slots_eq]
    exact Nat.zero_add _
  have level : ctx.level = 0 := emits.level
  rw [emitted'.shows.scopes]
  cases emits' with
  | declare _ => simp [Ctx.declareVar, Scopes.resolve?_declare, slots, level]

/-! ## A return out of a block -/

/-- A program with two variables and a function that returns out of a block with a variable. -/
def sumProgram : Program :=
  [.declare "a" (.int 4),
    .function "sum" ["n"]
      [.block [.declare "s" (.binary .add (.var "n") (.var "a")), .ret (some (.var "s"))]],
    .declare "b" (.call "sum" [.var "a"])]

/-- The code of `sumProgram`. -/
def sumCode : Code :=
  #[.jump 5, .load 1 (-1), .print, .lit 0, .ret 1 1, .lit 0, .lit 4, .store 0 0,
    .jump 29, .lit 0, .call 1 14, .load 1 2, .jumpIf 25, .ret 1 1,
    .lit 0, .load 1 (-1), .load 0 0, .binary .add, .store 2 2, .load 2 2, .ret 2 0,
    .lit 1, .store 2 (-1), .lit 0, .ret 2 0, .pop, .pop, .lit 0, .ret 1 1,
    .lit 0, .load 0 0, .call 0 9, .store 0 1]

theorem compile_sumProgram : compile sumProgram = .ok sumCode :=
  compile_of_toOption (by decide +kernel)

section Sum

open CompileM

/-- Compile `sumProgram` up to the declaration in the block. Returns its address, its level and the
next free slot there. -/
def compileToSumBlock : CompileM (Nat × Nat × Nat) := do
  (Stmt.declare "a" (.int 4)).compile
  let _ ← write (.jump 0)
  let _ ← openFunction "sum" ["n"]
  let _ ← openBlock
  let σ ← get
  return (σ.buffer.position, σ.frames.depth, σ.frames.current.next)

theorem visits_sumProgram_block : ∃ σ, sumProgram.Visits
    (.part (.stmt (.declare "s" (.binary .add (.var "n") (.var "a"))))) σ ∧
    σ.buffer.position = 14 ∧ σ.frames.depth = 2 ∧ σ.frames.current.next = 2 := by
  obtain ⟨_, run⟩ : ∃ τ, compileToSumBlock (Session.initial.starting sumProgram) =
      .ok (14, 2, 2) τ := exists_of_value (by decide +kernel)
  rw [compileToSumBlock, bind_eq_ok] at run
  obtain ⟨_, _, declared, run⟩ := run
  rw [bind_eq_ok] at run
  obtain ⟨_, _, jump, run⟩ := run
  rw [bind_eq_ok] at run
  obtain ⟨_, _, opened, run⟩ := run
  rw [bind_eq_ok] at run
  obtain ⟨_, σ, block, run⟩ := run
  have values : (σ.buffer.position, σ.frames.depth, σ.frames.current.next) = (14, 2, 2) :=
    (EStateM.Result.ok.inj run).1
  simp only [Prod.mk.injEq] at values
  have tail := Program.Visits.start.call .tail declared
  have function := (tail.call .head rfl).call .function (by rw [bind_ok jump, bind_ok opened]; rfl)
  have content := ((function.call .head rfl).call .block rfl).call .content block
  exact ⟨σ, content.call .head rfl, values⟩

/-- Compile `sumProgram` up to the end of the value of the second variable. Returns the address at
which its code starts and the one behind it. -/
def compileToSumCall : CompileM (Nat × Nat) := do
  (Stmt.declare "a" (.int 4)).compile
  (Stmt.function "sum" ["n"] [.block [.declare "s" (.binary .add (.var "n") (.var "a")),
    .ret (some (.var "s"))]]).compile
  let _ ← (do
    let current ← level
    let slot ← reserve
    emit (.lit 0)
    declare "b" (.var current slot)
    return (current, slot))
  let start ← here
  (Expr.call "sum" [.var "a"]).compile
  return (start, ← here)

theorem visits_sumProgram_call : ∃ σ σ',
    sumProgram.Visits (.expr (.call "sum" [.var "a"])) σ ∧
    (Expr.call "sum" [.var "a"]).compile σ = .ok () σ' ∧
    σ.buffer.position = 30 ∧ σ'.buffer.position = 32 := by
  obtain ⟨_, run⟩ : ∃ τ, compileToSumCall (Session.initial.starting sumProgram) =
      .ok (30, 32) τ := exists_of_value (by decide +kernel)
  rw [compileToSumCall, bind_eq_ok] at run
  obtain ⟨_, _, first, run⟩ := run
  rw [bind_eq_ok] at run
  obtain ⟨_, _, second, run⟩ := run
  rw [bind_eq_ok] at run
  obtain ⟨_, σ, declared, run⟩ := run
  rw [bind_ok (here_eq σ), bind_eq_ok] at run
  obtain ⟨_, σ', called, run⟩ := run
  have values : (σ.buffer.position, σ'.buffer.position) = (30, 32) :=
    (EStateM.Result.ok.inj run).1
  simp only [Prod.mk.injEq] at values
  have tail := (Program.Visits.start.call .tail first).call .tail second
  exact ⟨σ, σ', (tail.call .head rfl).call .declared declared, called, values⟩

end Sum

/-! ## Static slots and dynamic heights -/

/-- **Static slots are the dynamic height of the stack.** At every step of a compiled program:

* where the code of a statement starts, the stack ends with the slots that the compiler had taken on
  its level when it came to the statement;
* the code of an expression, once started, is left only at its end, where the stack holds one more
  value, unless an instruction fails;
* a machine that has terminated is at the end of the program, with one value on its stack for every
  variable that the program declares outside of blocks and functions, and every level of the display
  is `0`.

The variables declared there have the slots of the program in order. -/
theorem compiled_stack_height {program : Program} {code : Code}
    (compiled : compile program = .ok code) (returns : program.ReturnsInside)
    (late : program.NoLateDeclare) (small : code.size < addressBound) (output : ω) (n : Nat)
    (bound : ∀ k ≤ n, ((Machine.start code output).after k).state.stack.size < addressBound) :
    let m₀ := Machine.start code output
    let m := m₀.after n
    (∀ s σ, program.Visits (.part (.stmt s)) σ → m.state.pc = σ.buffer.position →
      m.state.stack.size = m.state.display.base σ.frames.depth + σ.frames.current.next) ∧
    (∀ e σ, program.Visits (.expr e) σ → ∃ σ', e.compile σ = .ok () σ' ∧
      ∀ k ≤ n, (m₀.after k).status = .ready → (m₀.after k).state.pc = σ.buffer.position →
        m₀.Evaluates σ.buffer.position σ'.buffer.position k n) ∧
    (m.status = .terminated →
      m.state.pc = code.size ∧ m.state.stack.size = program.countP Stmt.isDeclare ∧
      ∀ level, m.state.display.base level = 0) ∧
    ∀ before name value rest, program = before ++ .declare name value :: rest →
      ∃ σ σ', Stmt.compileAll before (Session.initial.starting program) = .ok () σ ∧
        (Stmt.declare name value).compile σ = .ok () σ' ∧
        σ'.scopes.resolve? name = some (.var 0 (before.countP Stmt.isDeclare : Nat)) := by
  intro m₀ m
  obtain ⟨c, sites, ctx, sound, emits, stands, size⟩ := exists_chart_shows compiled returns late
  have watches : c.Watches program m₀ n := by
    refine ⟨sound, small, rfl, fun k hk => sound.keeps_after small output k fun j hj => ?_, bound⟩
    exact bound j (Nat.le_trans (Nat.le_of_lt hj) hk)
  refine ⟨fun s σ visited pc => ?_, fun e σ visited => ?_, fun ended => ?_, ?_⟩
  · obtain ⟨ctx, sites, ctx', shows, emits, stands⟩ := visited.expects emits stands
    have point := emits.point (by rw [List.append_nil]; exact stands) stands.next
    rw [← shows.atEnd, ← pc] at point
    rw [watches.levelled _ point rfl, shows.depth, shows.current]
    rfl
  · obtain ⟨σ', done⟩ := visited.compiles compiled
    obtain ⟨ctx, t, sites, shows, emits, stands⟩ := visited.expects emits stands
    obtain ⟨shows', size'⟩ := Expr.shows_of_compile shows done emits
    refine ⟨σ', done, fun k le ready pc => ?_⟩
    rw [shows'.atEnd, size', shows.atEnd]
    exact watches.evaluates emits stands le ready (pc.trans shows.atEnd)
  · have last : c.point? code.size = some (ctx.point 0) := size ▸ stands.next
    obtain ⟨pc, height, bases⟩ := watches.terminated ended last emits.outer.2.1
    refine ⟨pc, height.trans ?_, bases⟩
    rw [emits.slots_eq]
    exact Nat.zero_add _
  · rintro before name value rest rfl
    exact slot_of_compile compiled

/-- The block of the function is entered with the slots of its header taken, the call is evaluated
with all that it calls, and two values are left. -/
theorem compiled_stack_height_sum :
    let m₀ := Machine.start sumCode (#[] : Array Value)
    ((m₀.after 10).state.pc = 14 ∧
      (m₀.after 10).state.stack.size = (m₀.after 10).state.display.base 2 + 2) ∧
    ((m₀.after 6).state.pc = 30 ∧ m₀.Evaluates 30 32 6 21) ∧
    (m₀.after 21).status = .terminated ∧ (m₀.after 21).state.pc = sumCode.size ∧
      (m₀.after 21).state.stack.size = 2 ∧
      (∀ level, (m₀.after 21).state.display.base level = 0) ∧
    ∃ σ σ', Stmt.compileAll (sumProgram.take 2) (Session.initial.starting sumProgram) = .ok () σ ∧
      (Stmt.declare "b" (.call "sum" [.var "a"])).compile σ = .ok () σ' ∧
      σ'.scopes.resolve? "b" = some (.var 0 1) := by
  have returns : sumProgram.ReturnsInside := by decide +kernel
  have late : sumProgram.NoLateDeclare := by decide +kernel
  have bound : ∀ k ≤ 21,
      ((Machine.start sumCode (#[] : Array Value)).after k).state.stack.size < addressBound := by
    decide +kernel
  have early := compiled_stack_height compile_sumProgram returns late (by decide)
    (#[] : Array Value) 10 fun k hk => bound k (Nat.le_trans hk (by decide))
  have final := compiled_stack_height compile_sumProgram returns late (by decide)
    (#[] : Array Value) 21 bound
  have ended : ((Machine.start sumCode (#[] : Array Value)).after 21).status = .terminated := by
    decide +kernel
  obtain ⟨σ, visited, position, depth, next⟩ := visits_sumProgram_block
  have height := early.1 _ σ visited (by rw [position]; decide +kernel)
  rw [depth, next] at height
  obtain ⟨τ, τ', visited', done, start, stop⟩ := visits_sumProgram_call
  obtain ⟨_, done', evaluates⟩ := final.2.1 _ τ visited'
  cases done.symm.trans done'
  have evaluated := evaluates 6 (by decide) (by decide +kernel) (by rw [start]; decide +kernel)
  rw [start, stop] at evaluated
  obtain ⟨pc, size, bases⟩ := final.2.2.1 ended
  exact ⟨⟨by decide +kernel, height⟩, ⟨by decide +kernel, evaluated⟩, ended, pc,
    size.trans (by decide), bases, final.2.2.2 (sumProgram.take 2) "b" _ [] rfl⟩

end NestLang
