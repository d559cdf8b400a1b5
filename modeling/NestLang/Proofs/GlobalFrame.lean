import NestLang.Proofs.Addressing
import NestLang.Proofs.Typing

/-!
# The frame of the program

The frame of the program has no header, and its base is `0` from the start. A return statement that
stands outside of all functions is compiled all the same, and what it executes takes the lowest
values on the stack for a header. Up to that moment the frame of the program stays where it is.

* `Stmt.withoutReturns`: the same statement, but a return outside of functions only drops its value.
* `Parallel`: two layouts are the same but for some addresses.
* `Part.Emits.withoutReturns`: **the layouts with and without these returns are parallel.**
* `Machine.after_recoded`: machines with parallel code go along until such an address is reached.
* `global_frame_stays`: **the frame of the program stays in its place until such a return.**
-/

namespace NestLang

/-! ## Returns outside of functions -/

mutual

/-- The statement without its returns outside of functions. Their values are computed and
dropped. -/
def Stmt.withoutReturns : Stmt → Stmt
  | .ret none => .expr (.int 0)
  | .ret (some value) => .expr value
  | .cond test body alternative =>
    .cond test (Stmt.withoutReturnsAll body) alternative.withoutReturns
  | .loop first test after body =>
    .loop first.withoutReturns test after.withoutReturns (Stmt.withoutReturnsAll body)
  | .block body => .block (Stmt.withoutReturnsAll body)
  | .declare name value => .declare name value
  | .assign name value => .assign name value
  | .function name params body => .function name params body
  | .expr value => .expr value
  | .empty => .empty

/-- Some statements without their returns outside of functions. -/
def Stmt.withoutReturnsAll : List Stmt → List Stmt
  | [] => []
  | s :: rest => s.withoutReturns :: Stmt.withoutReturnsAll rest

/-- An alternative without its returns outside of functions. -/
def Else.withoutReturns : Else → Else
  | .none => .none
  | .block body => .block (Stmt.withoutReturnsAll body)
  | .cond test body alternative =>
    .cond test (Stmt.withoutReturnsAll body) alternative.withoutReturns

end

/-- A return statement that stands outside of all functions gives its value back at the address. -/
def Program.isStrayReturn (program : Program) (a : Nat) : Bool :=
  match program.landmark? a with
  | some (.ret _ 0 _) => true
  | _ => false

/-- A part without its returns outside of functions. -/
def Part.withoutReturns : Part → Part
  | .stmt s => .stmt s.withoutReturns
  | .stmts body => .stmts (Stmt.withoutReturnsAll body)
  | .otherwise alternative => .otherwise alternative.withoutReturns
  | .passes first test after body =>
    .passes first.withoutReturns test after.withoutReturns (Stmt.withoutReturnsAll body)
  | .block content => .block content.withoutReturns

mutual

theorem Stmt.returnsInside_true : ∀ s : Stmt, s.returnsInside true = true
  | .ret _ | .declare _ _ | .assign _ _ | .expr _ | .empty => rfl
  | .function _ _ body => Stmt.returnsInsideAll_true body
  | .block body => Stmt.returnsInsideAll_true body
  | .cond _ body alternative => by
    simp only [Stmt.returnsInside, Stmt.returnsInsideAll_true body, alternative.returnsInside_true,
      Bool.and_self]
  | .loop first _ after body => by
    simp only [Stmt.returnsInside, first.returnsInside_true, after.returnsInside_true,
      Stmt.returnsInsideAll_true body, Bool.and_self]

theorem Stmt.returnsInsideAll_true : ∀ body : List Stmt, Stmt.returnsInsideAll true body = true
  | [] => rfl
  | s :: rest => by
    simp only [Stmt.returnsInsideAll, s.returnsInside_true, Stmt.returnsInsideAll_true rest,
      Bool.and_self]

theorem Else.returnsInside_true : ∀ alternative : Else, alternative.returnsInside true = true
  | .none => rfl
  | .block body => Stmt.returnsInsideAll_true body
  | .cond _ body alternative => by
    simp only [Else.returnsInside, Stmt.returnsInsideAll_true body, alternative.returnsInside_true,
      Bool.and_self]

end

mutual

theorem Stmt.returnsInside_withoutReturns :
    ∀ s : Stmt, s.withoutReturns.returnsInside false = true
  | .ret none | .ret (some _) | .declare _ _ | .assign _ _ | .expr _ | .empty => rfl
  | .function _ _ body => Stmt.returnsInsideAll_true body
  | .block body => Stmt.returnsInsideAll_withoutReturns body
  | .cond _ body alternative => by
    simp only [Stmt.withoutReturns, Stmt.returnsInside,
      Stmt.returnsInsideAll_withoutReturns body, alternative.returnsInside_withoutReturns,
      Bool.and_self]
  | .loop first _ after body => by
    simp only [Stmt.withoutReturns, Stmt.returnsInside, first.returnsInside_withoutReturns,
      after.returnsInside_withoutReturns, Stmt.returnsInsideAll_withoutReturns body, Bool.and_self]

theorem Stmt.returnsInsideAll_withoutReturns :
    ∀ body : List Stmt, Stmt.returnsInsideAll false (Stmt.withoutReturnsAll body) = true
  | [] => rfl
  | s :: rest => by
    simp only [Stmt.withoutReturnsAll, Stmt.returnsInsideAll, s.returnsInside_withoutReturns,
      Stmt.returnsInsideAll_withoutReturns rest, Bool.and_self]

theorem Else.returnsInside_withoutReturns :
    ∀ alternative : Else, alternative.withoutReturns.returnsInside false = true
  | .none => rfl
  | .block body => Stmt.returnsInsideAll_withoutReturns body
  | .cond _ body alternative => by
    simp only [Else.withoutReturns, Else.returnsInside,
      Stmt.returnsInsideAll_withoutReturns body, alternative.returnsInside_withoutReturns,
      Bool.and_self]

end

theorem Stmt.isDeclare_withoutReturns (s : Stmt) : s.withoutReturns.isDeclare = s.isDeclare := by
  cases s with
  | ret value => cases value <;> rfl
  | _ => rfl

mutual

theorem Stmt.noLateDeclare_withoutReturns :
    ∀ s : Stmt, s.withoutReturns.noLateDeclare = s.noLateDeclare
  | .ret none | .ret (some _) | .declare _ _ | .assign _ _ | .expr _ | .empty => rfl
  | .function _ _ _ => rfl
  | .block body => Stmt.noLateDeclareAll_withoutReturns body
  | .cond _ body alternative => by
    simp only [Stmt.withoutReturns, Stmt.noLateDeclare,
      Stmt.noLateDeclareAll_withoutReturns body, alternative.noLateDeclare_withoutReturns]
  | .loop first _ after body => by
    simp only [Stmt.withoutReturns, Stmt.noLateDeclare, first.noLateDeclare_withoutReturns,
      after.noLateDeclare_withoutReturns, after.isDeclare_withoutReturns,
      Stmt.noLateDeclareAll_withoutReturns body]

theorem Stmt.noLateDeclareAll_withoutReturns :
    ∀ body : List Stmt, Stmt.noLateDeclareAll (Stmt.withoutReturnsAll body) =
      Stmt.noLateDeclareAll body
  | [] => rfl
  | s :: rest => by
    simp only [Stmt.withoutReturnsAll, Stmt.noLateDeclareAll, s.noLateDeclare_withoutReturns,
      Stmt.noLateDeclareAll_withoutReturns rest]

theorem Else.noLateDeclare_withoutReturns :
    ∀ alternative : Else, alternative.withoutReturns.noLateDeclare = alternative.noLateDeclare
  | .none => rfl
  | .block body => Stmt.noLateDeclareAll_withoutReturns body
  | .cond _ body alternative => by
    simp only [Else.withoutReturns, Else.noLateDeclare,
      Stmt.noLateDeclareAll_withoutReturns body, alternative.noLateDeclare_withoutReturns]

end

/-! ## Layouts that differ at some addresses -/

/-- Two layouts from an address on are the same but for the addresses with `P`. -/
def Parallel (P : Nat → Prop) : Nat → List Site → List Site → Prop
  | _, [], [] => True
  | a, s :: l, s' :: l' => (s' = s ∨ P a) ∧ Parallel P (a + 1) l l'
  | _, _, _ => False

namespace Parallel

variable {P : Nat → Prop} {a : Nat} {l l' r r' : List Site}

theorem refl (a : Nat) (l : List Site) : Parallel P a l l := by
  induction l generalizing a with
  | nil => trivial
  | cons s l ih => exact ⟨.inl rfl, ih (a + 1)⟩

theorem length_eq (h : Parallel P a l l') : l'.length = l.length := by
  induction l generalizing a l' with
  | nil =>
    cases l' with
    | nil => rfl
    | cons s' l' => exact h.elim
  | cons s l ih =>
    cases l' with
    | nil => exact h.elim
    | cons s' l' => exact congrArg (· + 1) (ih h.2)

theorem append (h : Parallel P a l l') (h' : Parallel P (a + l.length) r r') :
    Parallel P a (l ++ r) (l' ++ r') := by
  induction l generalizing a l' with
  | nil =>
    cases l' with
    | nil => exact h'
    | cons s' l' => exact h.elim
  | cons s l ih =>
    cases l' with
    | nil => exact h.elim
    | cons s' l' =>
      refine ⟨h.1, ih h.2 ?_⟩
      rwa [List.length_cons, Nat.add_comm l.length, ← Nat.add_assoc] at h'

theorem getElem? (h : Parallel P a l l') {k : Nat} (same : ¬P (a + k)) : l'[k]? = l[k]? := by
  induction l generalizing a l' k with
  | nil =>
    cases l' with
    | nil => rfl
    | cons s' l' => exact h.elim
  | cons s l ih =>
    cases l' with
    | nil => exact h.elim
    | cons s' l' =>
      cases k with
      | zero => exact congrArg some (h.1.resolve_right same)
      | succ k =>
        refine ih h.2 ?_
        rwa [Nat.add_assoc, Nat.add_comm 1]

end Parallel

/-- **The layouts with and without the returns outside of functions are parallel.** They differ
where these returns give their values back. -/
theorem Part.Emits.withoutReturns {ctx ctx' : Ctx} {a : Nat} {part : Part} {sites : List Site}
    (h : Part.Emits ctx a part sites ctx') (blocks : Nat) {P : Nat → Prop}
    (rets : ∀ x ∈ part.landmarks ⟨blocks, 0, 0⟩ a, ∀ blocks, x.2 = .ret blocks 0 0 → P x.1) :
    ∃ sites', Part.Emits ctx a part.withoutReturns sites' ctx' ∧ Parallel P a sites sites' := by
  -- jumps and calls refer to addresses, but these depend on lengths only, which stay the same
  induction h generalizing blocks with
  | nil => exact ⟨_, .nil, .refl _ _⟩
  | empty => exact ⟨_, .empty, .refl _ _⟩
  | noElse => exact ⟨_, .noElse, .refl _ _⟩
  | declare value => exact ⟨_, .declare value, .refl _ _⟩
  | assign resolved slot value => exact ⟨_, .assign resolved slot value, .refl _ _⟩
  | expr value => exact ⟨_, .expr value, .refl _ _⟩
  | function content _ => exact ⟨_, .function content, .refl _ _⟩
  | ret =>
    refine ⟨_, .expr .int, .inl rfl, .inr ?_, trivial⟩
    exact rets _ List.mem_cons_self blocks rfl
  | retValue value =>
    refine ⟨_, .expr value, .append (.refl _ _) ⟨.inr ?_, trivial⟩⟩
    rw [value.length_eq]
    exact rets _ List.mem_cons_self blocks rfl
  | loop _ ih =>
    obtain ⟨sites', emits, parallel⟩ := ih blocks rets
    exact ⟨sites', .loop emits, parallel⟩
  | blockStmt _ ih =>
    obtain ⟨sites', emits, parallel⟩ := ih blocks rets
    exact ⟨sites', .blockStmt emits, parallel⟩
  | elseBlock _ ih =>
    obtain ⟨sites', emits, parallel⟩ := ih blocks rets
    exact ⟨sites', .elseBlock emits, parallel⟩
  | elseCond _ ih =>
    obtain ⟨sites', emits, parallel⟩ := ih blocks rets
    exact ⟨sites', .elseCond emits, parallel⟩
  | @cons ctx a s rest sites₁ ctx₁ sites₂ ctx₂ head tail ih₁ ih₂ =>
    have length : sites₁.length = s.codeLength := head.length_eq
    obtain ⟨sites₁', emits₁, parallel₁⟩ := ih₁ blocks fun x hx =>
      rets x (List.mem_append_left _ hx)
    obtain ⟨sites₂', emits₂, parallel₂⟩ := ih₂ blocks fun x hx =>
      rets x (List.mem_append_right _ (length ▸ hx))
    rw [← parallel₁.length_eq] at emits₂
    exact ⟨_, .cons emits₁ emits₂, parallel₁.append parallel₂⟩
  | @cond ctx a test body alternative sites₁ sites₂ sites₃ condition branch other ih₁ ih₂ =>
    have length₁ : sites₁.length = test.codeLength := condition.length_eq
    have length₂ : sites₂.length = blockLength (Stmt.codeLengthAll body) := branch.length_eq
    obtain ⟨sites₂', emits₂, parallel₂⟩ := ih₁ blocks fun x hx =>
      rets x (List.mem_append_left _ (length₁ ▸ hx))
    obtain ⟨sites₃', emits₃, parallel₃⟩ := ih₂ blocks fun x hx =>
      rets x (List.mem_append_right _ (length₁ ▸ length₂ ▸ hx))
    rw [← parallel₂.length_eq] at emits₃
    refine ⟨_, .cond condition emits₂ emits₃, .append (.refl _ _) ⟨.inl rfl, .inl ?_, ?_⟩⟩
    · rw [parallel₂.length_eq]
    · refine parallel₂.append ⟨.inl ?_, parallel₃⟩
      rw [parallel₂.length_eq, parallel₃.length_eq]
  | @passes ctx a first test after body sites₁ ctx₁ sites₂ sites₃ sites₄ ctx₂ head condition pass
      update ih₁ ih₂ ih₃ =>
    have length₁ : sites₁.length = first.codeLength := head.length_eq
    have length₂ : sites₂.length = test.codeLength := condition.length_eq
    have length₃ : sites₃.length = blockLength (Stmt.codeLengthAll body) := pass.length_eq
    obtain ⟨sites₁', emits₁, parallel₁⟩ := ih₁ blocks fun x hx =>
      rets x (List.mem_append_left _ hx)
    obtain ⟨sites₃', emits₃, parallel₃⟩ := ih₂ blocks fun x hx =>
      rets x (List.mem_append_right _ (List.mem_append_left _ (length₁ ▸ length₂ ▸ hx)))
    obtain ⟨sites₄', emits₄, parallel₄⟩ := ih₃ blocks fun x hx =>
      rets x (List.mem_append_right _ (List.mem_append_right _
        (length₁ ▸ length₂ ▸ length₃ ▸ hx)))
    rw [← parallel₁.length_eq] at emits₃ emits₄
    rw [← parallel₃.length_eq] at emits₄
    refine ⟨_, .passes emits₁ condition emits₃ emits₄, parallel₁.append ?_⟩
    refine .append (.refl _ _) ⟨.inl rfl, .inl ?_, parallel₃.append ?_⟩
    · rw [parallel₁.length_eq, parallel₃.length_eq, parallel₄.length_eq]
    · refine parallel₄.append ⟨.inl ?_, trivial⟩
      rw [parallel₁.length_eq]
  | @block ctx a content sites inner body ih =>
    obtain ⟨sites', emits, parallel⟩ := ih (blocks + 1) fun x hx =>
      rets x (List.mem_cons_of_mem _ (List.mem_append_left _ hx))
    refine ⟨_, .block emits, ?_⟩
    rw [parallel.length_eq]
    exact .append (.refl _ _) (parallel.append (.refl _ _))

/-- The program without its returns outside of functions has a chart, for code that differs from
that of the program only where these returns give their values back. -/
theorem exists_chart_withoutReturns {program : Program} {code : Code}
    (compiled : compile program = .ok code) (late : program.NoLateDeclare) :
    ∃ (c : Chart) (code' : Code), c.Sound (Stmt.withoutReturnsAll program) code' ∧
      code'.size = code.size ∧
      ∀ a, program.isStrayReturn a = false → code'[a]? = code[a]? := by
  obtain ⟨sites, ctx, emits, hcode⟩ := emits_of_compile compiled
  obtain ⟨sites', emits', parallel⟩ := emits.withoutReturns 0
    (P := fun a => program.isStrayReturn a = true) fun x hx blocks ret => by
      have landmark : program.landmark? x.1 = some (.ret blocks 0 0) :=
        Program.landmark?_eq_some.2 (ret ▸ List.mem_cons_of_mem _ hx)
      simp only [Program.isStrayReturn, landmark]
  have parallel : Parallel (fun a => program.isStrayReturn a = true) 0 (printSites ++ sites)
      (printSites ++ sites') := .append (.refl _ _) parallel
  let code' : Code := (Site.code (printSites ++ sites')).toArray
  have late' : Program.NoLateDeclare (Stmt.withoutReturnsAll program) :=
    (Stmt.noLateDeclareAll_withoutReturns program).trans late
  have hcode' : code'.toList = Site.code (printSites ++ sites') := rfl
  obtain ⟨c, sound, -⟩ := emits'.exists_chart hcode'
    (Stmt.returnsInsideAll_withoutReturns program) late'
  refine ⟨c, code', sound, ?_, fun a here => ?_⟩
  · rw [← Array.length_toList, ← Array.length_toList, hcode, Site.length_code, Site.length_code]
    exact parallel.length_eq
  · have same : (printSites ++ sites')[a]? = (printSites ++ sites)[a]? := by
      refine parallel.getElem? ?_
      rw [Nat.zero_add, here]
      decide
    rw [← Array.getElem?_toList, ← Array.getElem?_toList, hcode]
    simp only [Site.code, List.getElem?_map, code', same]

/-! ## Machines with parallel code -/

section Machines

variable {ω : Type}

theorem Live.base_zero {c : Chart} {stack : Stack} {p : Point} {base : Nat} {bases : Nat → Nat}
    {calls : List (State ω)} (h : Live c stack p base bases calls) : bases 0 = 0 := by
  induction h with
  | program _ _ _ => rfl
  | @call _ _ _ level k _ _ _ ih =>
    show (if 0 = level + 1 then k.stack.size else k.display.base 0) = 0
    rw [if_neg (Nat.zero_ne_add_one level)]
    exact ih

/-- Only a return from level 0 moves the frame of the program, to the address that it finds where
a frame has its header. -/
theorem Rebases.ret_of_moved {s : State ω} {i : Instr} {display : Display}
    (h : Rebases s i display) (moved : display.base 0 ≠ s.display.base 0) :
    ∃ params v, i = .ret 0 params ∧ s.stack[s.display.base 0]? = some v ∧
      v.address? = some (display.base 0) := by
  cases h with
  | keeps => exact absurd rfl moved
  | opens level target =>
    rw [Display.base_setBase, if_neg (Nat.zero_ne_add_one level)] at moved
    exact absurd rfl moved
  | @closes level params v base saved address =>
    by_cases lowest : 0 = level
    · subst lowest
      rw [Display.base_setBase, if_pos rfl]
      exact ⟨params, v, rfl, saved, address⟩
    · rw [Display.base_setBase, if_neg lowest] at moved
      exact absurd rfl moved

/-- The machine with other code. -/
def Machine.recoded (m : Machine ω) (code : Code) : Machine ω := ⟨code, m.status, m.state⟩

variable [Output ω]

/-- **One step** with other code is the same, if the next instruction is. -/
theorem Machine.step_recoded {m : Machine ω} {code : Code} (size : code.size = m.code.size)
    (same : m.status = .ready → code[m.state.pc]? = m.next?) :
    (m.recoded code).step.split.2 = m.step.split.2.recoded code := by
  by_cases ready : m.status = .ready
  · have next := same ready
    cases instr : m.next? with
    | none =>
      rw [step_end ready instr, step_end (m := m.recoded code) ready (next.trans instr)]
      rfl
    | some i =>
      cases result : advance i m.state with
      | ok _ s =>
        rw [step_ok ready instr result,
          step_ok (m := m.recoded code) ready (next.trans instr) result]
        simp only [recoded, size]
      | error fault s =>
        rw [step_error ready instr result,
          step_error (m := m.recoded code) ready (next.trans instr) result]
        rfl
  · rw [step_ended ready, step_ended (m := m.recoded code) ready]
    rfl

/-- **Machines whose code differs at some addresses go along** as long as no instruction at such an
address is executed. -/
theorem Machine.after_recoded {code code' : Code} {P : Nat → Bool} (size : code'.size = code.size)
    (same : ∀ a, P a = false → code'[a]? = code[a]?) (output : ω) (n : Nat)
    (avoids : ∀ k < n, ((Machine.start code output).after k).status = .ready →
      P ((Machine.start code output).after k).state.pc = false) :
    (Machine.start code' output).after n = ((Machine.start code output).after n).recoded code' := by
  induction n with
  | zero => rfl
  | succ n ih =>
    have hcode : ((Machine.start code output).after n).code = code := Machine.code_after _ n
    have before := ih fun k hk => avoids k (Nat.lt_succ_of_lt hk)
    change ((Machine.start code' output).after n).step.split.2 = _
    rw [before]
    apply step_recoded
    · rw [hcode]
      exact size
    · intro ready
      rw [same _ (avoids n (Nat.lt_succ_self n) ready), next?, hcode]

theorem Machine.ret_of_moved {m : Machine ω} {n : Nat}
    (moved : (m.after (n + 1)).state.display.base 0 ≠ (m.after n).state.display.base 0) :
    ∃ params v, (m.after n).next? = some (.ret 0 params) ∧
      (m.after n).state.stack[(m.after n).state.display.base 0]? = some v ∧
      v.address? = some ((m.after (n + 1)).state.display.base 0) := by
  rcases m.display_after n with same | ⟨i, next, rebases⟩
  · rw [same] at moved
    exact absurd rfl moved
  · obtain ⟨params, v, rfl, saved, address⟩ := rebases.ret_of_moved moved
    exact ⟨params, v, next, saved, address⟩

/-- **Up to a return outside of all functions** the frame of the program has the base `0`. -/
theorem base_zero_of_unreturned {program : Program} {code : Code}
    (compiled : compile program = .ok code) (late : program.NoLateDeclare)
    (small : code.size < addressBound) (output : ω) (n : Nat)
    (bound : ∀ k ≤ n, ((Machine.start code output).after k).state.stack.size < addressBound)
    (unreturned : ∀ k < n, ((Machine.start code output).after k).status = .ready →
      program.isStrayReturn ((Machine.start code output).after k).state.pc = false) :
    ((Machine.start code output).after n).state.display.base 0 = 0 := by
  obtain ⟨c, code', sound, size, same⟩ := exists_chart_withoutReturns compiled late
  -- the machine without these returns is in order, and both go along up to here
  have along (k : Nat) (le : k ≤ n) : (Machine.start code' output).after k =
      ((Machine.start code output).after k).recoded code' :=
    Machine.after_recoded size same output k fun j hj => unreturned j (Nat.lt_of_lt_of_le hj le)
  have keeps := sound.keeps_after (size ▸ small) output n fun k hk => by
    rw [along k (Nat.le_of_lt hk)]
    exact bound k (Nat.le_of_lt hk)
  obtain ⟨p, base, live⟩ := keeps.live
  have zero := live.base_zero
  rw [along n (Nat.le_refl n)] at zero
  exact zero

end Machines

/-! ## The frame of the program -/

/-- **The frame of the program stays in its place until a return outside of all functions.** As
long as no such return has given its value back, the base of level 0 is `0`, so that a global
variable is found at its offset. If all returns stand inside functions, that is so for ever.
In any case level 0 gets another base only through a return from that level, which takes what lies
at the base for the saved address. -/
theorem global_frame_stays {ω : Type} [Output ω] {program : Program} {code : Code}
    (compiled : compile program = .ok code) (output : ω) (n : Nat) :
    let m := Machine.start code output
    (program.NoLateDeclare → code.size < addressBound →
      (∀ k ≤ n, (m.after k).state.stack.size < addressBound) →
      (program.ReturnsInside ∨ ∀ k < n, (m.after k).status = .ready →
        program.isStrayReturn (m.after k).state.pc = false) →
      (m.after n).state.display.base 0 = 0 ∧
      ∀ offset < addressBound,
        Exec.slot 0 offset (m.after n).state = .ok offset (m.after n).state) ∧
    ((m.after (n + 1)).state.display.base 0 ≠ (m.after n).state.display.base 0 →
      ∃ params v, (m.after n).next? = some (.ret 0 params) ∧
        (m.after n).state.stack[(m.after n).state.display.base 0]? = some v ∧
        v.address? = some ((m.after (n + 1)).state.display.base 0)) := by
  intro m
  refine ⟨fun late small bound returns => ?_, Machine.ret_of_moved⟩
  have zero : (m.after n).state.display.base 0 = 0 := by
    rcases returns with inside | unreturned
    · obtain ⟨c, -, keeps⟩ := exists_keeps compiled inside late small output n bound
      obtain ⟨p, base, live⟩ := keeps.live
      exact live.base_zero
    · exact base_zero_of_unreturned compiled late small output n bound unreturned
  refine ⟨zero, fun offset below => ?_⟩
  generalize (m.after n).state = s at zero
  obtain ⟨pc, stack, display, output⟩ := s
  change display.base 0 = 0 at zero
  apply Exec.slot_run
  · rw [zero]
    decide
  · exact below
  · rw [zero]
    exact Int.zero_add _

/-- A program that returns outside of all functions, when it has two variables. -/
def returningProgram : Program :=
  [.declare "a" (.int 1), .declare "b" (.int 13), .ret (some (.int 42)),
    .expr (.call "print" [.var "a"])]

/-- The code of `returningProgram`. -/
def returningCode : Code :=
  #[.jump 5, .load 1 (-1), .print, .lit 0, .ret 1 1,
    .lit 0, .lit 1, .store 0 0, .lit 0, .lit 13, .store 0 1,
    .lit 42, .ret 0 0, .load 0 0, .call 0 1, .pop]

theorem compile_returningProgram : compile returningProgram = .ok returningCode :=
  compile_of_toOption (by decide +kernel)

/-- Before the return the second variable is found at its offset, and the return finds the first one
where a frame has its header. -/
theorem global_frame_stays_returning :
    let m := Machine.start returningCode (#[] : Array Value)
    (m.after 8).state.display.base 0 = 0 ∧
    Exec.slot 0 (1 : Nat) (m.after 8).state = .ok 1 (m.after 8).state ∧
    ∃ params v, (m.after 8).next? = some (.ret 0 params) ∧
      (m.after 8).state.stack[(m.after 8).state.display.base 0]? = some v ∧
      v.address? = some ((m.after (8 + 1)).state.display.base 0) := by
  obtain ⟨stays, moves⟩ := global_frame_stays compile_returningProgram (#[] : Array Value) 8
  obtain ⟨zero, slot⟩ := stays (by decide +kernel) (by decide) (by decide +kernel)
    (.inr (by decide +kernel))
  exact ⟨zero, slot 1 (by decide), moves (by decide +kernel)⟩

/-- **A return outside of all functions moves the frame of the program.** Behind it the variable
with offset `0` is looked for in slot `1`, which the stack does not have any more. -/
theorem global_frame_moves :
    let m := Machine.start returningCode (#[] : Array Value)
    compile returningProgram = .ok returningCode ∧
    (m.after 9).status = .ready ∧ (m.after 9).next? = some (.load 0 0) ∧
    (m.after 9).state.display.base 0 = 1 ∧ (m.after 9).state.stack = #[42] ∧
    (m.after 10).status = .failed :=
  ⟨compile_returningProgram, by decide +kernel, by decide +kernel, by decide +kernel,
    by decide +kernel, by decide +kernel⟩

end NestLang
