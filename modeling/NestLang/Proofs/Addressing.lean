import NestLang.Proofs.Effects
import NestLang.Proofs.Safety

/-!
# Exact addresses

Bases and return addresses are stored in signed words, and a word that a program has computed can
come back as a base. Still no address wraps around, whatever the instructions are: an entry of the
display is the size of a stack or was read from a word that is not negative, so it is stored, and
added to an offset, as the number it is.

* `sumAddress`: the slot that a base and an offset denote, in whole numbers.
* `advance_load_eq`, `advance_store_eq`, `advance_ret_eq`: the slots that are used and the numbers
  that are reported.
* `Rebases`, `advance_display`: **what an instruction does to the display.**
* `Machine.base_lt_after`: every entry of the display is a number that a word can store.
* `addresses_exact`: addresses are exact on all runs of all code.
-/

namespace NestLang

variable {ω : Type}

/-! ## Words and addresses -/

theorem Value.lt_of_address? {v : Value} {a : Nat} (h : v.address? = some a) :
    a < addressBound := by
  unfold Value.address? at h
  by_cases negative : v < 0
  · rw [if_pos negative] at h
    cases h
  · rw [if_neg negative] at h
    cases h
    have below := v.toInt_lt
    unfold addressBound
    omega

theorem Value.toInt_ofAddress {a : Nat} (h : a < addressBound) : (Value.ofAddress a).toInt = a :=
  signed_of_lt h

theorem Value.toInt_sub_ofAddress {a b : Nat} (ha : a < addressBound) (hb : b < addressBound) :
    (Value.ofAddress a - Value.ofAddress b).toInt = (a : Int) - b := by
  rw [Int64.toInt_sub, toInt_ofAddress ha, toInt_ofAddress hb]
  unfold addressBound at ha hb
  exact Int.bmod_eq_of_le (by omega) (by omega)

/-- The address that a base and an offset denote, or the number that is reported instead: a negative
sum is reported as itself, and a sum that no signed word stores as the offset. -/
def sumAddress (base : Nat) (offset : Int) : Except Int Nat :=
  if (base : Int) + offset < 0 then .error (base + offset)
  else if addressBound ≤ (base : Int) + offset then .error offset
  else .ok ((base : Int) + offset).toNat

theorem sumAddress_lt {base a : Nat} {offset : Int} (h : sumAddress base offset = .ok a) :
    a < addressBound := by
  unfold sumAddress at h
  by_cases negative : (base : Int) + offset < 0
  · rw [if_pos negative] at h
    cases h
  · rw [if_neg negative] at h
    by_cases above : addressBound ≤ (base : Int) + offset
    · rw [if_pos above] at h
      cases h
    · rw [if_neg above] at h
      cases h
      omega

/-! ## Instructions -/

section Instructions

variable {pc : Nat} {stack : Stack} {display : Display} {output : ω} {level params : Nat}
  {offset : Int}

theorem Exec.load_above {a : Nat} (h : stack[a]? = none) :
    Exec.load a ⟨pc, stack, display, output⟩ =
      .error (.invalidAddress (signed a)) ⟨pc, stack, display, output⟩ := by
  simp [Exec.load, Exec.onStack, Stack.load, h]

theorem Exec.slot_eq (base : display.base level < addressBound) (word : -addressBound ≤ offset) :
    Exec.slot level offset ⟨pc, stack, display, output⟩ =
      match sumAddress (display.base level) offset with
      | .ok a => .ok a ⟨pc, stack, display, output⟩
      | .error reported => .error (.invalidAddress reported) ⟨pc, stack, display, output⟩ := by
  have low : ¬(display.base level : Int) + offset < -addressBound := by omega
  unfold Exec.slot sumAddress
  rw [bind_run, Exec.base_run]
  simp only [signed_of_lt base]
  by_cases above : addressBound ≤ (display.base level : Int) + offset
  · have positive : ¬(display.base level : Int) + offset < 0 := by
      unfold addressBound at above
      omega
    simp only [if_pos (Or.inr above), if_neg positive, if_pos above]
    rfl
  · simp only [if_neg (not_or.2 ⟨low, above⟩), if_neg above]
    by_cases negative : (display.base level : Int) + offset < 0
    · simp only [if_pos negative]
      rfl
    · simp only [if_neg negative]
      rfl

variable [Output ω]

theorem advance_load_eq (base : display.base level < addressBound)
    (word : -addressBound ≤ offset) :
    advance (.load level offset) ⟨pc, stack, display, output⟩ =
      match sumAddress (display.base level) offset with
      | .error reported => .error (.invalidAddress reported) ⟨pc + 1, stack, display, output⟩
      | .ok a =>
        match stack[a]? with
        | some v => .ok () ⟨pc + 1, stack.push v, display, output⟩
        | none => .error (.invalidAddress a) ⟨pc + 1, stack, display, output⟩ := by
  change (Exec.slot level offset >>= fun a => Exec.load a >>= Exec.push)
    ⟨pc + 1, stack, display, output⟩ = _
  rw [bind_run, Exec.slot_eq base word]
  cases sum : sumAddress (display.base level) offset with
  | error reported => rfl
  | ok a =>
    dsimp only
    rw [bind_run]
    cases value : stack[a]? with
    | some v =>
      rw [Exec.load_run value]
      rfl
    | none => rw [Exec.load_above value, signed_of_lt (sumAddress_lt sum)]

theorem advance_store_eq (v : Value) (base : display.base level < addressBound)
    (word : -addressBound ≤ offset) :
    advance (.store level offset) ⟨pc, stack.push v, display, output⟩ =
      match sumAddress (display.base level) offset with
      | .error reported => .error (.invalidAddress reported) ⟨pc + 1, stack, display, output⟩
      | .ok a =>
        if a < stack.size then .ok () ⟨pc + 1, stack.setIfInBounds a v, display, output⟩
        else .error (.invalidAddress a) ⟨pc + 1, stack, display, output⟩ := by
  change (Exec.pop >>= fun v => Exec.slot level offset >>= fun a => Exec.store a v)
    ⟨pc + 1, stack.push v, display, output⟩ = _
  rw [bind_run, Exec.pop_run]
  dsimp only
  rw [bind_run, Exec.slot_eq base word]
  cases sum : sumAddress (display.base level) offset with
  | error reported => rfl
  | ok a =>
    by_cases inside : a < stack.size
    · simp [Exec.store, Exec.onStack, Stack.store, inside]
    · simp [Exec.store, Exec.onStack, Stack.store, inside, signed_of_lt (sumAddress_lt sum)]

/-- **A return in full**, whatever the header of the frame holds. -/
theorem advance_ret_eq (level params : Nat) (v : Value) :
    advance (.ret level params) ⟨pc, stack.push v, display, output⟩ =
      match stack[display.base level]?, stack[display.base level + 1]? with
      | none, _ => .error (.invalidAddress (signed (display.base level)))
          ⟨pc + 1, stack, display, output⟩
      | some _, none => .error (.invalidAddress (signed (display.base level + 1)))
          ⟨pc + 1, stack, display, output⟩
      | some savedBase, some savedPc =>
        match savedBase.address? with
        | none => .error (.invalidAddress savedBase.toInt) ⟨pc + 1, stack, display, output⟩
        | some outer =>
          if display.base level < params then
            .error (.invalidAddress
                (Value.ofAddress (display.base level) - Value.ofAddress params).toInt)
              ⟨pc + 1, stack, display.setBase level outer, output⟩
          else
            match savedPc.address? with
            | none => .error (.invalidAddress savedPc.toInt)
                ⟨pc + 1, stack.truncate (display.base level - params),
                  display.setBase level outer, output⟩
            | some back => .ok ()
                ⟨back, (stack.truncate (display.base level - params)).push v,
                  display.setBase level outer, output⟩ := by
  change Exec.leave level params ⟨pc + 1, stack.push v, display, output⟩ = _
  unfold Exec.leave
  simp only [bind_run, Exec.pop_run, Exec.base_run]
  cases header₁ : stack[display.base level]? with
  | none => simp only [Exec.load_above header₁]
  | some savedBase =>
    simp only [Exec.load_run header₁]
    cases header₂ : stack[display.base level + 1]? with
    | none => simp only [Exec.load_above header₂]
    | some savedPc =>
      simp only [Exec.load_run header₂, Exec.savedAddress]
      cases savedBase.address? with
      | none => rfl
      | some outer =>
        by_cases low : display.base level < params
        · simp only [if_pos low]
          rfl
        · simp only [if_neg low]
          cases savedPc.address? <;> rfl

end Instructions

/-! ## The display -/

/-- What an instruction can do to the display: leave it alone, enter the size of the stack for the
frame that a call opens, or enter the address that the frame of a return has saved. -/
inductive Rebases (s : State ω) : Instr → Display → Prop
  | keeps (i : Instr) : Rebases s i s.display
  | opens (level target : Nat) :
      Rebases s (.call level target) (s.display.setBase (level + 1) s.stack.size)
  | closes (level params : Nat) {v : Value} {base : Nat}
      (saved : s.stack[s.display.base level]? = some v) (address : v.address? = some base) :
      Rebases s (.ret level params) (s.display.setBase level base)

theorem Rebases.base_lt {s : State ω} {i : Instr} {display : Display} (h : Rebases s i display)
    (bound : s.stack.size < addressBound) (bases : ∀ level, s.display.base level < addressBound)
    (level : Nat) : display.base level < addressBound := by
  have changed {base : Nat} (level' : Nat) (small : base < addressBound) :
      (s.display.setBase level' base).base level < addressBound := by
    rw [Display.base_setBase]
    by_cases same : level = level'
    · rw [if_pos same]
      exact small
    · rw [if_neg same]
      exact bases level
  cases h with
  | keeps => exact bases level
  | opens level' target => exact changed _ bound
  | closes level' params saved address => exact changed _ (Value.lt_of_address? address)

variable [Output ω]

theorem ret_display (level params : Nat) (s : State ω) :
    match advance (.ret level params) s with
    | .ok _ s' | .error _ s' => Rebases s (.ret level params) s'.display := by
  obtain ⟨pc, stack, display, output⟩ := s
  by_cases empty : stack = #[]
  · subst empty
    exact .keeps _
  · obtain ⟨rest, v, rfl⟩ := Array.exists_push_of_ne_empty empty
    rw [advance_ret_eq]
    cases header₁ : rest[display.base level]? with
    | none => exact .keeps _
    | some savedBase =>
      cases rest[display.base level + 1]? with
      | none => exact .keeps _
      | some savedPc =>
        cases address : savedBase.address? with
        | none =>
          simp only [address]
          exact .keeps _
        | some outer =>
          have inside := (Array.getElem?_eq_some_iff.1 header₁).1
          have closes : Rebases (⟨pc, rest.push v, display, output⟩ : State ω) (.ret level params)
              (display.setBase level outer) :=
            .closes level params ((Stack.getElem?_push_of_lt inside v).trans header₁) address
          simp only [address]
          by_cases low : display.base level < params
          · simp only [if_pos low]
            exact closes
          · simp only [if_neg low]
            cases savedPc.address? <;> exact closes

/-- **An instruction does nothing else to the display**, whether it succeeds or fails. -/
theorem advance_display (i : Instr) (s : State ω) :
    match advance i s with
    | .ok _ s' | .error _ s' => Rebases s i s'.display := by
  have alone (keeps : Exec.Keeps State.display (exec i : Exec ω Unit)) :
      match advance i s with
      | .ok _ s' | .error _ s' => Rebases s i s'.display := by
    have kept := keeps { s with pc := s.pc + 1 }
    change match exec i { s with pc := s.pc + 1 } with
      | .ok _ s' | .error _ s' => Rebases s i s'.display
    cases result : exec i { s with pc := s.pc + 1 } with
    | ok _ s' | error _ s' =>
      rw [result] at kept
      dsimp only at kept ⊢
      rw [kept]
      exact .keeps i
  cases i with
  | jump target => exact .keeps _
  | jumpIf target =>
    refine alone ((Exec.keeps_onStack (fun _ _ => rfl) _).bind fun v => ?_)
    by_cases taken : v ≠ 0
    · simp only [if_pos taken]
      exact fun _ => rfl
    · simp only [if_neg taken]
      exact Exec.keeps_pure _
  | print =>
    refine alone ((Exec.keeps_onStack (fun _ _ => rfl) _).bind fun v s => ?_)
    simp only [Exec.print]
    cases Output.print v s.output <;> rfl
  | call level target =>
    change match Exec.enter level target { s with pc := s.pc + 1 } with
      | .ok _ s' | .error _ s' => Rebases s (.call level target) s'.display
    unfold Exec.enter
    by_cases high : wordCount ≤ level + 1
    · rw [if_pos high]
      exact .keeps _
    · rw [if_neg high]
      exact .opens level target
  | ret level params => exact ret_display level params s
  | _ => exact alone (keeps_exec (fun _ _ => rfl) rfl)

theorem Machine.display_after (m : Machine ω) (n : Nat) :
    (m.after (n + 1)).state.display = (m.after n).state.display ∨
      ∃ i, (m.after n).next? = some i ∧
        Rebases (m.after n).state i (m.after (n + 1)).state.display := by
  have hcode : (m.after n).code = m.code := Machine.code_after _ n
  cases m.moves n with
  | rests after => exact .inl (by rw [after])
  | ends _ _ after => exact .inl (by rw [after])
  | @executes i s _ next result after | @fails i _ s _ next result after =>
    have rebases := advance_display i (m.after n).state
    rw [result] at rebases
    refine .inr ⟨i, ?_, ?_⟩
    · rw [next?, hcode]
      exact next
    · rw [after]
      exact rebases

/-- **Every entry of the display is a number that a word can store**, after any number of steps of
any code. -/
theorem Machine.base_lt_after (code : Code) (output : ω) (n : Nat)
    (bound : ∀ k < n, ((Machine.start code output).after k).state.stack.size < addressBound)
    (level : Nat) :
    ((Machine.start code output).after n).state.display.base level < addressBound := by
  induction n generalizing level with
  | zero =>
    have unset : Display.base #[] level = 0 := by simp [Display.base]
    exact unset ▸ (by decide : 0 < addressBound)
  | succ n ih =>
    have bases := ih fun k hk => bound k (Nat.lt_succ_of_lt hk)
    rcases (Machine.start code output).display_after n with same | ⟨i, -, rebases⟩
    · rw [same]
      exact bases level
    · exact rebases.base_lt (bound n (Nat.lt_succ_self n)) bases level

/-! ## Exactness -/

/-- The operands are as words write them: an offset is a signed word, and a number of parameters is
an address. -/
def Instr.Ranged : Instr → Prop
  | .load _ offset | .store _ offset => -addressBound ≤ offset ∧ offset < addressBound
  | .ret _ params => params < addressBound
  | _ => True

instance : DecidablePred Instr.Ranged := fun i =>
  match i with
  | .load _ offset | .store _ offset =>
    inferInstanceAs (Decidable (-addressBound ≤ offset ∧ offset < addressBound))
  | .ret _ params => inferInstanceAs (Decidable (params < addressBound))
  | .lit _ | .pop | .jump _ | .jumpIf _ | .neg | .not | .binary _ | .call _ _ | .print =>
    inferInstanceAs (Decidable True)

/-- What an instruction does with addresses in a state, in whole numbers. A load or a store uses the
slot at the sum, or reports that there is none. A call saves the numbers themselves. A return looks
for the second word of the header just above the base, and reports the difference between the base
and the number of parameters as it is; neither of the two leaves the range of a signed word. -/
def Instr.Exact (s : State ω) : Instr → Prop
  | .load level offset =>
    advance (.load level offset) s =
      match sumAddress (s.display.base level) offset with
      | .error reported => .error (.invalidAddress reported) { s with pc := s.pc + 1 }
      | .ok a =>
        match s.stack[a]? with
        | some v => .ok () { s with pc := s.pc + 1, stack := s.stack.push v }
        | none => .error (.invalidAddress a) { s with pc := s.pc + 1 }
  | .store level offset =>
    ∀ rest v, s.stack = rest.push v →
      advance (.store level offset) s =
        match sumAddress (s.display.base level) offset with
        | .error reported =>
          .error (.invalidAddress reported) { s with pc := s.pc + 1, stack := rest }
        | .ok a =>
          if a < rest.size then
            .ok () { s with pc := s.pc + 1, stack := rest.setIfInBounds a v }
          else .error (.invalidAddress a) { s with pc := s.pc + 1, stack := rest }
  | .call level target =>
    level + 1 < wordCount →
      ∃ savedBase savedPc : Value,
        savedBase.toInt = s.display.base (level + 1) ∧ savedPc.toInt = s.pc + 1 ∧
        advance (.call level target) s = .ok () { s with
          pc := target
          stack := (s.stack.push savedBase).push savedPc
          display := s.display.setBase (level + 1) s.stack.size }
  | .ret level params =>
    ∀ rest v, s.stack = rest.push v →
      let base := s.display.base level
      (rest.size ≤ base → advance (.ret level params) s =
        .error (.invalidAddress base) { s with pc := s.pc + 1, stack := rest }) ∧
      (base < rest.size → base + 1 < addressBound) ∧
      (base + 1 = rest.size → advance (.ret level params) s =
        .error (.invalidAddress ((base : Int) + 1)) { s with pc := s.pc + 1, stack := rest }) ∧
      (-addressBound ≤ (base : Int) - params ∧ (base : Int) - params < addressBound) ∧
      ∀ outer, rest[base]?.bind Value.address? = some outer → base + 1 < rest.size →
        base < params → advance (.ret level params) s =
          .error (.invalidAddress ((base : Int) - params)) { s with
            pc := s.pc + 1
            stack := rest
            display := s.display.setBase level outer }
  | _ => True

section Exact

variable {s : State ω} (bases : ∀ level, s.display.base level < addressBound)
  (size : s.stack.size < addressBound)

include bases

theorem exact_call (level target : Nat) (pc : s.pc + 1 < addressBound) :
    (Instr.call level target).Exact s := fun high =>
  ⟨.ofAddress (s.display.base (level + 1)), .ofAddress (s.pc + 1),
    Value.toInt_ofAddress (bases _), Value.toInt_ofAddress pc, advance_call high⟩

include size

theorem exact_ret {level params : Nat} (ranged : params < addressBound) :
    (Instr.ret level params).Exact s := by
  obtain ⟨pc, stack, display, output⟩ := s
  intro rest v pushed base
  change stack = rest.push v at pushed
  subst pushed
  have small : rest.size < addressBound := by
    have pushed : (rest.push v).size < addressBound := size
    rw [Array.size_push] at pushed
    exact Nat.lt_of_succ_lt pushed
  have start : base < addressBound := bases level
  have frame : display.base level = base := rfl
  clear_value base
  refine ⟨fun above => ?_, fun inside => Nat.lt_of_le_of_lt inside small, fun last => ?_,
    by omega, fun outer saved inside low => ?_⟩
  · rw [advance_ret_eq, frame, Array.getElem?_eq_none above, signed_of_lt start]
  · have first : rest[base]? = some rest[base] := Array.getElem?_eq_getElem (by omega)
    have second : rest[base + 1]? = none := Array.getElem?_eq_none (by omega)
    rw [advance_ret_eq, frame, first, second]
    simp only [signed_of_lt (last ▸ small : base + 1 < addressBound), Int.natCast_succ]
  · have first : rest[base]? = some rest[base] := Array.getElem?_eq_getElem (by omega)
    have second : rest[base + 1]? = some rest[base + 1] := Array.getElem?_eq_getElem inside
    rw [first] at saved
    change rest[base].address? = some outer at saved
    rw [advance_ret_eq, frame, first, second]
    simp only [saved, if_pos low, Value.toInt_sub_ofAddress start ranged]

theorem Instr.Ranged.exact {i : Instr} (ranged : i.Ranged) (pc : s.pc + 1 < addressBound) :
    i.Exact s := by
  cases i with
  | load level offset => exact advance_load_eq (bases level) ranged.1
  | store level offset =>
    intro rest v pushed
    obtain ⟨pc, stack, display, output⟩ := s
    change stack = rest.push v at pushed
    subst pushed
    exact advance_store_eq v (bases level) ranged.1
  | call level target => exact exact_call bases level target pc
  | ret level params => exact exact_ret bases size ranged
  | _ => exact trivial

end Exact

/-- **Addresses are exact on all runs of all code**, as long as code and stack are smaller than the
range of addresses that a word can store: no entry of the display leaves that range, and the next
instruction does with addresses what it does in whole numbers. -/
theorem addresses_exact {code : Code} (ranged : ∀ i ∈ code, i.Ranged)
    (small : code.size < addressBound) (output : ω) (n : Nat)
    (bound : ∀ k ≤ n, ((Machine.start code output).after k).state.stack.size < addressBound) :
    let m := (Machine.start code output).after n
    (∀ level, m.state.display.base level < addressBound) ∧
      ∀ i, m.next? = some i → i.Exact m.state := by
  intro m
  have bases := Machine.base_lt_after code output n fun k hk => bound k (Nat.le_of_lt hk)
  refine ⟨bases, fun i next => ?_⟩
  have hcode : m.code = code := Machine.code_after _ n
  have next : code[m.state.pc]? = some i := hcode ▸ next
  have inside := (Array.getElem?_eq_some_iff.1 next).1
  exact (ranged i (Array.mem_of_getElem? next)).exact bases (bound n (Nat.le_refl n))
    (Nat.lt_of_le_of_lt inside small)

/-- A return that restores the largest word as the base of level 0, and loads relative to it. -/
def farCode : Code :=
  #[.lit Int64.maxValue, .lit 4, .lit 7, .ret 0 0, .load 0 (1 - addressBound), .load 0 1]

/-- The two loads are at the ends of the range: the first finds the lowest slot, and the second is
one above the range, where a word would wrap around. -/
theorem addresses_exact_far :
    let m := Machine.start farCode (#[] : Array Value)
    (m.after 5).state.display.base 0 = addressBound - 1 ∧
    sumAddress (addressBound - 1) (1 - addressBound) = .ok 0 ∧
    sumAddress (addressBound - 1) 1 = .error 1 ∧
    (Instr.load 0 (1 - addressBound)).Exact (m.after 4).state ∧
    (Instr.load 0 1).Exact (m.after 5).state := by
  have small : ∀ k ≤ 5,
      ((Machine.start farCode (#[] : Array Value)).after k).state.stack.size < addressBound := by
    decide +kernel
  have ranged : ∀ i ∈ farCode, i.Ranged := by decide +kernel
  have far (n : Nat) (le : n ≤ 5) := addresses_exact ranged (by decide) (#[] : Array Value) n
    fun k hk => small k (Nat.le_trans hk le)
  refine ⟨by decide +kernel, rfl, rfl, ?_, ?_⟩
  · exact (far 4 (by decide)).2 (.load 0 (1 - addressBound)) (by decide +kernel)
  · exact (far 5 (by decide)).2 (.load 0 1) (by decide +kernel)

end NestLang
