import NestLang.Proofs.Step

/-!
# What instructions leave alone

Most instructions act on the stack only. This holds also of an instruction that fails.

* `Exec.Keeps`: an action leaves a part of the state alone.
* `Instr.isLocal`: the instructions that act on the stack only.
* `keeps_exec`, `keeps_output`: what such an instruction leaves alone, and all but `print`.
* `advance_pc`: **where execution goes on.**
-/

namespace NestLang

namespace Exec

variable {ω α β γ : Type} {f : State ω → γ}

/-- The action leaves a part of the state alone, whether it succeeds or fails. -/
def Keeps (f : State ω → γ) (x : Exec ω α) : Prop :=
  ∀ s, match x s with
    | .ok _ s' | .error _ s' => f s' = f s

theorem Keeps.bind {x : Exec ω α} {g : α → Exec ω β} (first : Keeps f x)
    (rest : ∀ a, Keeps f (g a)) : Keeps f (x >>= g) := by
  intro s
  have before := first s
  rw [bind_run]
  cases hx : x s with
  | error e s' =>
    rw [hx] at before
    exact before
  | ok a s' =>
    rw [hx] at before
    have behind := rest a s'
    dsimp only
    cases hg : g a s' <;> rw [hg] at behind <;> exact behind.trans before

theorem keeps_pure (a : α) : Keeps f (pure a : Exec ω α) := fun _ => rfl

theorem keeps_throw (fault : Fault) : Keeps f (throw fault : Exec ω α) := fun _ => rfl

theorem keeps_base (level : Nat) : Keeps f (base level : Exec ω Nat) := fun _ => rfl

theorem keeps_slot (level : Nat) (offset : Int) : Keeps f (slot level offset : Exec ω Nat) := by
  refine (keeps_base level).bind fun base => ?_
  by_cases range : signed base + offset < -addressBound ∨ addressBound ≤ signed base + offset
  · simp only [if_pos range]
    exact keeps_throw _
  · simp only [if_neg range]
    by_cases negative : signed base + offset < 0
    · simp only [if_pos negative]
      exact keeps_throw _
    · simp only [if_neg negative]
      exact keeps_pure _

theorem keeps_savedAddress (v : Value) : Keeps f (savedAddress v : Exec ω Nat) := by
  unfold savedAddress
  cases v.address? with
  | some address => exact keeps_pure _
  | none => exact keeps_throw _

section Stack

variable (alone : ∀ (s : State ω) stack, f { s with stack := stack } = f s)

include alone

theorem keeps_onStack (action : EStateM Fault Stack α) : Keeps f (onStack action) := by
  intro s
  simp only [onStack]
  cases action s.stack with
  | ok a stack => exact alone s stack
  | error fault stack => exact alone s stack

theorem keeps_push (v : Value) : Keeps f (push v) := fun s => alone s _

end Stack

end Exec

/-- The instruction acts on the stack only. -/
def Instr.isLocal : Instr → Bool
  | lit _ | pop | load _ _ | store _ _ | neg | not | binary _ => true
  | jump _ | jumpIf _ | call _ _ | ret _ _ | print => false

section Instructions

open Exec

variable {ω γ : Type}

theorem keeps_enter_output (level target : Nat) :
    Keeps State.output (enter level target : Exec ω Unit) := by
  intro s
  unfold enter
  by_cases high : wordCount ≤ level + 1
  · rw [if_pos high]
    rfl
  · rw [if_neg high]
    rfl

theorem keeps_leave_output (level params : Nat) :
    Keeps State.output (leave level params : Exec ω Unit) := by
  have stack {α : Type} (action : EStateM Fault Stack α) :
      Keeps State.output (onStack action : Exec ω α) := keeps_onStack (fun _ _ => rfl) action
  refine (stack _).bind fun result => (keeps_base level).bind fun frame => ?_
  refine (stack _).bind fun savedBase => (stack _).bind fun savedPc => ?_
  refine (keeps_savedAddress _).bind fun base => Keeps.bind (fun _ => rfl) fun _ => ?_
  by_cases low : frame < params
  · simp only [if_pos low]
    exact keeps_throw _
  · simp only [if_neg low]
    refine Keeps.bind (fun _ => rfl) fun _ => (keeps_savedAddress _).bind fun address => ?_
    exact Keeps.bind (fun _ => rfl) fun _ => fun _ => rfl

variable [Output ω]

theorem keeps_exec {f : State ω → γ}
    (alone : ∀ (s : State ω) stack, f { s with stack := stack } = f s) {i : Instr}
    (isLocal : i.isLocal = true) : Keeps f (exec i) := by
  cases i with
  | lit v => exact keeps_push alone v
  | pop => exact (keeps_onStack alone _).bind fun _ => keeps_pure _
  | load level offset =>
    exact (keeps_slot level offset).bind fun _ =>
      (keeps_onStack alone _).bind fun _ => keeps_push alone _
  | store level offset =>
    exact (keeps_onStack alone _).bind fun _ =>
      (keeps_slot level offset).bind fun _ => keeps_onStack alone _
  | neg | not => exact (keeps_onStack alone _).bind fun _ => keeps_push alone _
  | binary op =>
    refine (keeps_onStack alone _).bind fun operands => ?_
    cases result : op.apply? operands.1 operands.2 with
    | some value =>
      simp only [result]
      exact keeps_push alone _
    | none =>
      simp only [result]
      exact keeps_throw _
  | jump _ | jumpIf _ | call _ _ | ret _ _ | print => cases isLocal

/-- **Only `print` changes the output.** -/
theorem keeps_output {i : Instr} (silent : i ≠ .print) :
    Keeps State.output (exec i : Exec ω Unit) := by
  cases i with
  | jump target => exact fun _ => rfl
  | jumpIf target =>
    refine (keeps_onStack (fun _ _ => rfl) _).bind fun v => ?_
    by_cases taken : v ≠ 0
    · simp only [if_pos taken]
      exact fun _ => rfl
    · simp only [if_neg taken]
      exact keeps_pure _
  | call level target => exact keeps_enter_output level target
  | ret level params => exact keeps_leave_output level params
  | print => exact absurd rfl silent
  | _ => exact keeps_exec (fun _ _ => rfl) rfl

theorem keeps_print_pc (v : Value) : Keeps State.pc (print v : Exec ω Unit) := by
  intro s
  simp only [print]
  cases Output.print v s.output <;> rfl

/-- **Where execution goes on** after an instruction other than a call or a return: behind it or at
the target of a jump. -/
theorem advance_pc {i : Instr} {s s' : State ω} (ok : advance i s = .ok () s')
    (call : ∀ level target, i ≠ .call level target) (ret : ∀ level params, i ≠ .ret level params) :
    (s'.pc = s.pc + 1 ∧ ∀ target, i ≠ .jump target) ∨ i = .jump s'.pc ∨ i = .jumpIf s'.pc := by
  have next (keeps : Keeps State.pc (exec i : Exec ω Unit)) : s'.pc = s.pc + 1 := by
    have kept := keeps { s with pc := s.pc + 1 }
    change exec i { s with pc := s.pc + 1 } = .ok () s' at ok
    rw [ok] at kept
    exact kept
  cases i with
  | jump target =>
    cases ok
    exact .inr (.inl rfl)
  | jumpIf target =>
    have kept : Keeps State.pc (Exec.pop : Exec ω Value) := keeps_onStack (fun _ _ => rfl) _
    have kept := kept { s with pc := s.pc + 1 }
    change (Exec.pop >>= fun v => if v ≠ 0 then goto target else pure ())
      { s with pc := s.pc + 1 } = .ok () s' at ok
    rw [bind_run] at ok
    cases popped : Exec.pop { s with pc := s.pc + 1 } with
    | error fault s₁ =>
      rw [popped] at ok
      cases ok
    | ok v s₁ =>
      rw [popped] at ok kept
      by_cases taken : v ≠ 0
      · simp only [if_pos taken] at ok
        cases ok
        exact .inr (.inr rfl)
      · simp only [if_neg taken] at ok
        cases ok
        exact .inl ⟨kept, nofun⟩
  | call level target => exact absurd rfl (call level target)
  | ret level params => exact absurd rfl (ret level params)
  | print =>
    exact .inl ⟨next ((keeps_onStack (fun _ _ => rfl) _).bind keeps_print_pc), nofun⟩
  | _ => exact .inl ⟨next (keeps_exec (fun _ _ => rfl) rfl), nofun⟩

end Instructions

end NestLang
