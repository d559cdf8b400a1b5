import NestLang.Eval
import NestLang.Proofs.Chart
import NestLang.Proofs.Step

/-!
# Following an evaluation

Instructions executed in a row, and what it means that the machine follows an evaluation of the
program as a tree: it gets to the result, fails where the evaluation divides by zero, and goes on
for long where the evaluation runs out of fuel.

* `Chart.Steps`, `Chart.Reach`: instructions executed in a row.
* `Chart.Follows`: the machine follows an evaluation.
* `Chart.Follows.bind`: **one evaluation after the other.**
-/

namespace NestLang

namespace Chart

/-! ## Instructions in a row -/

section Steps

variable {ω : Type} [Output ω]

/-- So many instructions are executed in a row, none of which fails. -/
inductive Steps (c : Chart) : Nat → State ω → State ω → Prop
  | refl {s} : Steps c 0 s s
  | step {n s s₁ s₂ i} (instr : c.instr? s.pc = some i) (ok : advance i s = .ok () s₁)
      (rest : Steps c n s₁ s₂) : Steps c (n + 1) s s₂

/-- Some instructions lead from one state to the other. -/
def Reach (c : Chart) (s s' : State ω) : Prop := ∃ n, c.Steps n s s'

/-- Whatever is executed, the stack stays smaller than the range of addresses. -/
def Bounded (c : Chart) (s : State ω) : Prop :=
  ∀ n s', c.Steps n s s' → s'.stack.size < addressBound

variable {c : Chart} {m n : Nat} {s s₁ s₂ : State ω} {i : Instr}

theorem Steps.trans (h₁ : c.Steps m s s₁) (h₂ : c.Steps n s₁ s₂) : c.Steps (m + n) s s₂ := by
  induction h₁ with
  | refl => rwa [Nat.zero_add]
  | step instr ok _ ih =>
    rw [Nat.add_right_comm]
    exact .step instr ok (ih h₂)

theorem Steps.take (h : c.Steps (m + n) s s₂) : ∃ s₁, c.Steps m s s₁ := by
  induction m generalizing s with
  | zero => exact ⟨s, .refl⟩
  | succ m ih =>
    rw [Nat.add_right_comm] at h
    cases h with
    | step instr ok rest =>
      obtain ⟨s', h⟩ := ih rest
      exact ⟨s', .step instr ok h⟩

theorem Reach.refl : c.Reach s s := ⟨0, .refl⟩

theorem Reach.trans (h₁ : c.Reach s s₁) (h₂ : c.Reach s₁ s₂) : c.Reach s s₂ := by
  obtain ⟨m, h₁⟩ := h₁
  obtain ⟨n, h₂⟩ := h₂
  exact ⟨m + n, h₁.trans h₂⟩

theorem Reach.step (instr : c.instr? s.pc = some i) (ok : advance i s = .ok () s₁)
    (rest : c.Reach s₁ s₂) : c.Reach s s₂ := by
  obtain ⟨n, rest⟩ := rest
  exact ⟨n + 1, .step instr ok rest⟩

theorem Reach.one (instr : c.instr? s.pc = some i) (ok : advance i s = .ok () s₁) :
    c.Reach s s₁ := .step instr ok .refl

theorem Bounded.size (h : c.Bounded s) : s.stack.size < addressBound := h 0 s .refl

theorem Bounded.reach (h : c.Bounded s) (reach : c.Reach s s₁) : c.Bounded s₁ := by
  obtain ⟨m, reach⟩ := reach
  exact fun n s' steps => h (m + n) s' (reach.trans steps)

end Steps

/-! ## Following an evaluation -/

section Follows

variable {c : Chart} {α β : Type} {n k : Nat} {s s' : State (Array Value)}
  {Q R : α → Memory → State (Array Value) → Prop}

/-- From the state `s` the machine follows an evaluation with this result: it reaches a state that
is as `Q` tells, or fails with the same output, or executes at least `n` instructions. -/
def Follows (c : Chart) (n : Nat) (s : State (Array Value))
    (Q : α → Memory → State (Array Value) → Prop) : EStateM.Result Stop Memory α → Prop
  | .ok a mem => ∃ s', c.Reach s s' ∧ Q a mem s'
  | .error .divisionByZero mem => ∃ s₁ i s₂, c.Reach s s₁ ∧ c.instr? s₁.pc = some i ∧
    advance i s₁ = .error .divisionByZero s₂ ∧ s₂.output = mem.output
  | .error .outOfFuel _ => ∃ s', c.Steps n s s'
  | .error (.misused _) _ | .error .misplaced _ => False

variable {r : EStateM.Result Stop Memory α}

theorem Follows.andThen (h : c.Follows n s Q r)
    (more : ∀ a mem s', Q a mem s' → ∃ s'', c.Reach s' s'' ∧ R a mem s'') :
    c.Follows n s R r := by
  cases r with
  | ok a mem =>
    obtain ⟨s', reach, q⟩ := h
    obtain ⟨s'', reach', q'⟩ := more a mem s' q
    exact ⟨s'', reach.trans reach', q'⟩
  | error stop mem => cases stop <;> exact h

theorem Follows.mono (h : c.Follows n s Q r) (weaker : ∀ a mem s', Q a mem s' → R a mem s') :
    c.Follows n s R r :=
  h.andThen fun a mem s' q => ⟨s', .refl, weaker a mem s' q⟩

theorem Follows.reach (reach : c.Reach s s') (h : c.Follows n s' Q r) : c.Follows n s Q r := by
  cases r with
  | ok a mem =>
    obtain ⟨s₁, rest, q⟩ := h
    exact ⟨s₁, reach.trans rest, q⟩
  | error stop mem =>
    cases stop with
    | divisionByZero =>
      obtain ⟨s₁, i, s₂, rest, failing⟩ := h
      exact ⟨s₁, i, s₂, reach.trans rest, failing⟩
    | outOfFuel =>
      obtain ⟨m, steps⟩ := reach
      obtain ⟨s₁, rest⟩ := h
      have all := steps.trans rest
      rw [Nat.add_comm] at all
      exact all.take
    | misused _ | misplaced => exact h

theorem Follows.step {i : Instr} (instr : c.instr? s.pc = some i) (ok : advance i s = .ok () s')
    (h : c.Follows (n - 1) s' Q r) : c.Follows n s Q r := by
  cases r with
  | ok a mem => exact Follows.reach (.one instr ok) h
  | error stop mem =>
    cases stop with
    | outOfFuel =>
      obtain ⟨s₁, rest⟩ := h
      have all : c.Steps (n - 1 + 1) s s₁ := .step instr ok rest
      obtain ⟨k, hk⟩ : ∃ k, n - 1 + 1 = n + k := ⟨n - 1 + 1 - n, by omega⟩
      rw [hk] at all
      exact all.take
    | divisionByZero => exact Follows.reach (.one instr ok) h
    | misused _ | misplaced => exact h

/-- **One evaluation after the other.** -/
theorem Follows.bind {x : EvalM α} {f : α → EvalM β} {mem : Memory}
    {T : β → Memory → State (Array Value) → Prop} (h : c.Follows n s Q (x mem))
    (rest : ∀ a mem' s', c.Reach s s' → Q a mem' s' → c.Follows n s' T (f a mem')) :
    c.Follows n s T ((x >>= f) mem) := by
  rw [bind_run]
  cases result : x mem with
  | ok a mem' =>
    rw [result] at h
    obtain ⟨s', reach, q⟩ := h
    exact Follows.reach reach (rest a mem' s' reach q)
  | error stop mem' =>
    rw [result] at h
    cases stop <;> exact h

end Follows

end Chart

end NestLang
