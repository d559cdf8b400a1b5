import NestLang.Machine.Trace
import NestLang.Proofs.Actions

/-!
# Single steps of the machine

What each instruction does to a state, given the values it finds on the stack.

* `advance_load`, `advance_call`, `advance_ret`, ...: one equation for each instruction.
* `Machine.after`: the machine after some steps.
-/

namespace NestLang

/-! ## Stack and display -/

theorem Stack.getElem?_push_of_lt {stack : Stack} {a : Nat} (h : a < stack.size) (v : Value) :
    (stack.push v)[a]? = stack[a]? := by
  rw [Array.getElem?_push, if_neg (Nat.ne_of_lt h)]

theorem Stack.getElem?_push_push_of_lt {stack : Stack} {a : Nat} (h : a < stack.size)
    (v w : Value) : ((stack.push v).push w)[a]? = stack[a]? := by
  rw [Stack.getElem?_push_of_lt (by rw [Array.size_push]; exact Nat.lt_succ_of_lt h),
    Stack.getElem?_push_of_lt h]

theorem Stack.getElem?_push_push (stack : Stack) (v w : Value) :
    ((stack.push v).push w)[stack.size]? = some v := by
  rw [Stack.getElem?_push_of_lt (by rw [Array.size_push]; exact Nat.lt_succ_self _),
    Array.getElem?_push_size]

theorem Stack.getElem?_set_push {stack : Stack} {a b : Nat} (h : b < stack.size) (v w : Value) :
    (stack.setIfInBounds a v)[b]? = ((stack.push w).setIfInBounds a v)[b]? := by
  rw [Array.getElem?_setIfInBounds, Array.getElem?_setIfInBounds, Array.size_push,
    Stack.getElem?_push_of_lt h]
  by_cases same : a = b
  · rw [if_pos same, if_pos same, if_pos (by omega), if_pos (by omega)]
  · rw [if_neg same, if_neg same]

theorem Stack.size_take {stack : Stack} {n : Nat} (h : n ≤ stack.size) :
    (stack.take n).size = n := by
  rw [Array.take_eq_extract, Array.size_extract]
  omega

theorem Stack.getElem?_take {stack : Stack} {n a : Nat} (h : n ≤ stack.size) (ha : a < n) :
    (stack.take n)[a]? = stack[a]? := by
  rw [Array.take_eq_extract, Array.getElem?_extract, if_pos (by omega), Nat.zero_add]

theorem Stack.take_push {stack : Stack} {n : Nat} (h : n ≤ stack.size) (v : Value) :
    (stack.push v).take n = stack.take n := by
  rw [Array.take_eq_extract, Array.take_eq_extract, Array.extract_push, if_pos h]

theorem Stack.take_take {stack : Stack} {m n : Nat} (h : n ≤ m) :
    (stack.take m).take n = stack.take n := by
  simp only [Array.take_eq_extract, Array.extract_extract, Nat.zero_add, Nat.min_eq_left h]

theorem Stack.take_succ {stack : Stack} {n : Nat} {v : Value} (h : stack[n]? = some v) :
    stack.take (n + 1) = (stack.take n).push v := by
  obtain ⟨inside, rfl⟩ := Array.getElem?_eq_some_iff.1 h
  rw [Array.take_eq_extract, Array.take_eq_extract,
    Array.extract_succ_right (Nat.succ_pos n) inside]

theorem Stack.getElem?_take_push {stack : Stack} {n a : Nat} (h : n ≤ stack.size) (ha : a < n)
    (v : Value) : ((stack.take n).push v)[a]? = stack[a]? := by
  rw [Stack.getElem?_push_of_lt (by rwa [Stack.size_take h]), Stack.getElem?_take h ha]

theorem Stack.size_take_push {stack : Stack} {n : Nat} (h : n ≤ stack.size) (v : Value) :
    ((stack.take n).push v).size = n + 1 := by
  rw [Array.size_push, Stack.size_take h]

theorem Display.setBase_base (d : Display) (level base : Nat) :
    (d.setBase level base).base = fun n => if n = level then base else d.base n :=
  funext (d.base_setBase level base)

/-! ## Instructions -/

section Instructions

variable {ω : Type} {pc : Nat} {stack : Stack} {display : Display} {output : ω}

theorem Exec.pop_run (v : Value) :
    Exec.pop ⟨pc, stack.push v, display, output⟩ = .ok v ⟨pc, stack, display, output⟩ := by
  simp [Exec.pop, Exec.onStack]

theorem Exec.base_run (level : Nat) : Exec.base level ⟨pc, stack, display, output⟩ =
    .ok (display.base level) ⟨pc, stack, display, output⟩ := rfl

theorem Exec.load_run {a : Nat} {v : Value} (h : stack[a]? = some v) :
    Exec.load a ⟨pc, stack, display, output⟩ = .ok v ⟨pc, stack, display, output⟩ := by
  simp [Exec.load, Exec.onStack, Stack.load, h]

theorem Exec.slot_run {level : Nat} {offset : Int} {a : Nat}
    (base : display.base level < addressBound) (bound : a < addressBound)
    (address : (display.base level : Int) + offset = a) :
    Exec.slot level offset ⟨pc, stack, display, output⟩ = .ok a ⟨pc, stack, display, output⟩ := by
  have sum : signed (display.base level) + offset = a := by rw [signed_of_lt base, address]
  have range : ¬((a : Int) < -addressBound ∨ addressBound ≤ (a : Int)) := by omega
  have sign : ¬(a : Int) < 0 := by omega
  unfold Exec.slot
  rw [bind_run, Exec.base_run]
  simp only [sum, range, sign, if_false, Int.toNat_natCast]
  rfl

variable [Output ω]

theorem advance_lit (v : Value) : advance (.lit v) ⟨pc, stack, display, output⟩ =
    .ok () ⟨pc + 1, stack.push v, display, output⟩ := rfl

theorem advance_pop (v : Value) : advance .pop ⟨pc, stack.push v, display, output⟩ =
    .ok () ⟨pc + 1, stack, display, output⟩ := by
  change (Exec.pop >>= fun _ => pure ()) ⟨pc + 1, stack.push v, display, output⟩ = _
  rw [bind_run, Exec.pop_run]
  rfl

theorem advance_load {level : Nat} {offset : Int} {a : Nat} {v : Value}
    (base : display.base level < addressBound) (bound : stack.size < addressBound)
    (address : (display.base level : Int) + offset = a) (value : stack[a]? = some v) :
    advance (.load level offset) ⟨pc, stack, display, output⟩ =
      .ok () ⟨pc + 1, stack.push v, display, output⟩ := by
  have inside : a < stack.size := (Array.getElem?_eq_some_iff.1 value).1
  change (Exec.slot level offset >>= fun a => Exec.load a >>= Exec.push)
    ⟨pc + 1, stack, display, output⟩ = _
  simp only [bind_run, Exec.slot_run base (Nat.lt_trans inside bound) address,
    Exec.load_run value]
  rfl

theorem advance_store {level : Nat} {offset : Int} {a : Nat} {v : Value}
    (base : display.base level < addressBound) (bound : stack.size < addressBound)
    (address : (display.base level : Int) + offset = a) (inside : a < stack.size) :
    advance (.store level offset) ⟨pc, stack.push v, display, output⟩ =
      .ok () ⟨pc + 1, stack.setIfInBounds a v, display, output⟩ := by
  change (Exec.pop >>= fun v => Exec.slot level offset >>= fun a => Exec.store a v)
    ⟨pc + 1, stack.push v, display, output⟩ = _
  rw [bind_run, Exec.pop_run]
  simp only [bind_run, Exec.slot_run base (Nat.lt_trans inside bound) address]
  simp [Exec.store, Exec.onStack, Stack.store, inside]

theorem advance_jump (target : Nat) : advance (.jump target) ⟨pc, stack, display, output⟩ =
    .ok () ⟨target, stack, display, output⟩ := rfl

theorem advance_jumpIf (target : Nat) (v : Value) :
    advance (.jumpIf target) ⟨pc, stack.push v, display, output⟩ =
      .ok () ⟨if v = 0 then pc + 1 else target, stack, display, output⟩ := by
  change (Exec.pop >>= fun v => if v ≠ 0 then Exec.goto target else pure ())
    ⟨pc + 1, stack.push v, display, output⟩ = _
  rw [bind_run, Exec.pop_run]
  by_cases h : v = 0
  · simp [h]
    rfl
  · simp [h]
    rfl

theorem advance_neg (v : Value) : advance .neg ⟨pc, stack.push v, display, output⟩ =
    .ok () ⟨pc + 1, stack.push (-v), display, output⟩ := by
  change (Exec.pop >>= fun v => Exec.push (-v)) ⟨pc + 1, stack.push v, display, output⟩ = _
  rw [bind_run, Exec.pop_run]
  rfl

theorem advance_not (v : Value) : advance .not ⟨pc, stack.push v, display, output⟩ =
    .ok () ⟨pc + 1, stack.push (.ofBool (v = 0)), display, output⟩ := by
  change (Exec.pop >>= fun v => Exec.push (.ofBool (v = 0)))
    ⟨pc + 1, stack.push v, display, output⟩ = _
  rw [bind_run, Exec.pop_run]
  rfl

theorem advance_binary (op : BinaryOp) (a b : Value) :
    advance (.binary op) ⟨pc, (stack.push a).push b, display, output⟩ =
      match op.apply? a b with
      | some v => .ok () ⟨pc + 1, stack.push v, display, output⟩
      | none => .error .divisionByZero ⟨pc + 1, stack, display, output⟩ := by
  change (Exec.popTwo >>= fun p => match op.apply? p.1 p.2 with
    | some v => Exec.push v
    | none => throw .divisionByZero) ⟨pc + 1, (stack.push a).push b, display, output⟩ = _
  simp only [bind_run, Exec.popTwo, Exec.onStack, Stack.popTwo_push]
  cases op.apply? a b <;> rfl

theorem advance_call {level target : Nat} (bound : level + 1 < wordCount) :
    advance (.call level target) ⟨pc, stack, display, output⟩ =
      .ok () ⟨target, (stack.push (.ofAddress (display.base (level + 1)))).push
        (.ofAddress (pc + 1)), display.setBase (level + 1) stack.size, output⟩ := by
  change Exec.enter level target ⟨pc + 1, stack, display, output⟩ = _
  unfold Exec.enter
  rw [if_neg (Nat.not_le_of_lt bound)]
  rfl

theorem advance_ret {level params base savedBase savedPc : Nat} {v : Value}
    (frame : display.base level = base) (header₁ : stack[base]? = some (.ofAddress savedBase))
    (header₂ : stack[base + 1]? = some (.ofAddress savedPc)) (bound₁ : savedBase < addressBound)
    (bound₂ : savedPc < addressBound) (arguments : params ≤ base) :
    advance (.ret level params) ⟨pc, stack.push v, display, output⟩ =
      .ok () ⟨savedPc, (stack.take (base - params)).push v, display.setBase level savedBase,
        output⟩ := by
  change Exec.leave level params ⟨pc + 1, stack.push v, display, output⟩ = _
  unfold Exec.leave
  simp only [bind_run, Exec.pop_run, Exec.base_run, frame, Exec.load_run header₁,
    Exec.load_run header₂, Exec.savedAddress, Value.address?_ofAddress bound₁,
    Value.address?_ofAddress bound₂, Nat.not_lt_of_le arguments, if_false]
  rw [← Stack.truncate_eq_take]
  rfl

theorem advance_print (v : Value) : advance .print ⟨pc, stack.push v, display, output⟩ =
    match Output.print v output with
    | .ok _ output => .ok () ⟨pc + 1, stack, display, output⟩
    | .error cause output => .error (.output cause) ⟨pc + 1, stack, display, output⟩ := by
  change (Exec.pop >>= fun v => Exec.print v) ⟨pc + 1, stack.push v, display, output⟩ = _
  rw [bind_run, Exec.pop_run]
  rfl

end Instructions

/-! ## Steps of a machine -/

namespace Machine

variable {ω : Type} [Output ω] {m : Machine ω} {i : Instr} {s : State ω}

/-- The machine after some steps, whatever they answered. -/
def after : Nat → Machine ω → Machine ω
  | 0, m => m
  | n + 1, m => (m.after n).step.split.2

theorem after_add (n k : Nat) (m : Machine ω) : m.after (n + k) = (m.after n).after k := by
  induction k with
  | zero => rfl
  | succ k ih =>
    change (m.after (n + k)).step.split.2 = _
    rw [ih]
    rfl

theorem after_succ_left (n : Nat) (m : Machine ω) : m.after (n + 1) = m.step.split.2.after n := by
  rw [Nat.add_comm, after_add]
  rfl

theorem step_ok (ready : m.status = .ready) (next : m.next? = some i)
    (ok : advance i m.state = .ok () s) :
    m.step.split.2 = ⟨m.code, if m.code.size ≤ s.pc then .terminated else .ready, s⟩ := by
  obtain ⟨code, status, state⟩ := m
  simp only at ready
  subst ready
  simp only [step, if_true, next, execute, ok]
  split <;> rfl

theorem step_error {fault : Fault} (ready : m.status = .ready) (next : m.next? = some i)
    (error : advance i m.state = .error fault s) :
    m.step = .error ⟨fault, m.state.pc⟩ ⟨m.code, .failed, s⟩ := by
  obtain ⟨code, status, state⟩ := m
  simp only at ready
  subst ready
  simp [step, next, execute, error]

theorem step_eq_error {e : RuntimeError} {m' : Machine ω} (ready : m.status = .ready)
    (h : m.step = .error e m') :
    ∃ i s, m.next? = some i ∧ advance i m.state = .error e.fault s := by
  obtain ⟨code, status, state⟩ := m
  simp only at ready
  subst ready
  simp only [step, if_true] at h
  cases next : (⟨code, .ready, state⟩ : Machine ω).next? with
  | none =>
    rw [next] at h
    cases h
  | some i =>
    simp only [next, execute] at h
    cases result : advance i state with
    | ok _ s =>
      simp only [result] at h
      split at h <;> cases h
    | error fault s =>
      simp only [result] at h
      cases h
      exact ⟨i, s, rfl, result⟩

theorem after_ended {n k : Nat} (ended : (m.after n).status ≠ .ready) (le : n ≤ k) :
    m.after k = m.after n := by
  induction le with
  | refl => rfl
  | @step k _ ih =>
    change (m.after k).step.split.2 = m.after n
    rw [ih, step, if_neg ended]
    rfl

theorem step_end (ready : m.status = .ready) (next : m.next? = none) : m.step = m.terminate := by
  simp [step, ready, next]

theorem step_ended (ended : m.status ≠ .ready) : m.step = m.refuse := by
  simp [step, ended]

end Machine

end NestLang
