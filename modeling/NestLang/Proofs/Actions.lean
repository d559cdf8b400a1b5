/-!
# Actions that may fail

The compiler, the machine and the evaluation of a program consist of actions of one kind. An action
changes a state and gives a value or fails, and in both cases the state it reached is kept. Here
such actions are taken apart into their steps.

* `bind_run`: what two actions one after the other do.
* `bind_eq_ok`, `bind_eq_error`: what has happened if they succeed, and if they fail.
-/

namespace NestLang

variable {ε σ α β : Type} {s t : σ}

theorem bind_run (x : EStateM ε σ α) (f : α → EStateM ε σ β) (s : σ) :
    (x >>= f) s = match x s with
      | .ok a t => f a t
      | .error e t => .error e t :=
  EStateM.run_bind x f

theorem bind_ok {x : EStateM ε σ α} {f : α → EStateM ε σ β} {a : α} (h : x s = .ok a t) :
    (x >>= f) s = f a t := by
  rw [bind_run, h]

/-- **An action that has succeeded** is a first step that has succeeded and the rest. -/
theorem bind_eq_ok {x : EStateM ε σ α} {f : α → EStateM ε σ β} {b : β} :
    (x >>= f) s = .ok b t ↔ ∃ a s', x s = .ok a s' ∧ f a s' = .ok b t := by
  rw [bind_run]
  cases x s with
  | ok a s' =>
    constructor
    · intro h
      exact ⟨a, s', rfl, h⟩
    · rintro ⟨_, _, ⟨⟩, h⟩
      exact h
  | error e s' => simp

/-- **An action that has failed** has failed in its first step or in the rest. -/
theorem bind_eq_error {x : EStateM ε σ α} {f : α → EStateM ε σ β} {e : ε} :
    (x >>= f) s = .error e t ↔
      x s = .error e t ∨ ∃ a s', x s = .ok a s' ∧ f a s' = .error e t := by
  rw [bind_run]
  cases x s with
  | ok a s' =>
    constructor
    · intro h
      exact .inr ⟨a, s', rfl, h⟩
    · rintro (⟨⟨⟩⟩ | ⟨_, _, ⟨⟩, h⟩)
      exact h
  | error e' s' => simp

theorem pure_run (a : α) (s : σ) : (pure a : EStateM ε σ α) s = .ok a s := rfl

theorem pure_eq_ok {a b : α} : (pure a : EStateM ε σ α) s = .ok b t ↔ a = b ∧ s = t := by
  rw [pure_run, EStateM.Result.ok.injEq]

theorem throw_ne_ok {e : ε} {a : α} : (throw e : EStateM ε σ α) s ≠ .ok a t := by
  intro h
  cases h

theorem exists_of_value {x : EStateM ε σ α} {a : α}
    (value : (match x s with | .ok b _ => some b | .error _ _ => none) = some a) :
    ∃ t, x s = .ok a t := by
  cases result : x s with
  | ok b t =>
    rw [result] at value
    cases value
    exact ⟨t, rfl⟩
  | error e t =>
    rw [result] at value
    cases value

end NestLang
