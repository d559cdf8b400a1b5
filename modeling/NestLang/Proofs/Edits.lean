import NestLang.Code.Buffer

/-!
# Scripts of changes

A script may write behind the end of the program from within an overwrite, so that afterwards the
position lies before the end and later writes replace what is there. To speak about what happens
inside of overwrites too, a script is taken apart into single operations.

* `Edit.Op`, `Edit.opsAll`: the single operations of a script.
* `Edit.Moment`: a buffer in the midst of a script, with the writes that were made so far.
* `Edit.after_opsAll`: the operations one by one do what the script does.
* `Edit.Moment.Sound`: **the buffer holds what was written, and the position lies within it or at
  its end.**
* `script_keeps_order`: this is so at every moment of a script.
-/

namespace NestLang

/-! ## One write -/

section Write

variable {b : Buffer} (inside : b.position ≤ b.code.size) (i : Instr)

include inside

/-- **A write changes one instruction**, that at the position. -/
theorem Buffer.getElem?_write (address : Nat) : (Buffer.write i b).2.code[address]? =
    if address = b.position then some i else b.code[address]? := by
  by_cases atEnd : b.position = b.code.size
  · rw [Buffer.write_end i b atEnd, Array.getElem?_push, atEnd]
  · have before : b.position < b.code.size := Nat.lt_of_le_of_ne inside atEnd
    unfold Buffer.write
    simp only [if_neg atEnd, Array.getElem?_setIfInBounds]
    by_cases here : address = b.position
    · rw [if_pos here, if_pos here.symm, if_pos (here ▸ before)]
    · rw [if_neg here, if_neg (Ne.symm here)]

theorem Buffer.size_write : (Buffer.write i b).2.code.size = max b.code.size (b.position + 1) := by
  unfold Buffer.write
  by_cases atEnd : b.position = b.code.size
  · simp only [if_pos atEnd, Array.size_push]
    omega
  · simp only [if_neg atEnd, Array.size_setIfInBounds]
    omega

end Write

namespace Edit

/-! ## Single operations -/

/-- A single operation of a script: an instruction is written, an overwrite begins, or the innermost
overwrite ends. -/
inductive Op
  | write (i : Instr)
  | enter (position : Nat)
  | leave

mutual

/-- The operations of a change. -/
def ops : Edit → List Op
  | .write i => [.write i]
  | .overwrite position edits => .enter position :: (opsAll edits ++ [.leave])

/-- The operations of some changes in order. -/
def opsAll : List Edit → List Op
  | [] => []
  | e :: es => e.ops ++ opsAll es

end

/-- The change is one instruction that is written. -/
def isWrite : Edit → Bool
  | .write _ => true
  | .overwrite _ _ => false

/-- A moment in a script: the buffer, the positions to which the open overwrites will return, the
innermost first, and the writes so far, the last one first, each with the address it has
returned. -/
structure Moment where
  buffer : Buffer
  returns : List Nat
  writes : List (Nat × Instr)

namespace Moment

/-- The moment before a script is run on the empty buffer. -/
def start : Moment := ⟨.empty, [], []⟩

/-- The moment after one more operation. -/
def next (m : Moment) : Op → Moment
  | .write i =>
    let (address, buffer) := Buffer.write i m.buffer
    ⟨buffer, m.returns, (address, i) :: m.writes⟩
  | .enter position => ⟨⟨m.buffer.code, position⟩, m.buffer.position :: m.returns, m.writes⟩
  | .leave => ⟨⟨m.buffer.code, m.returns.headD m.buffer.position⟩, m.returns.tail, m.writes⟩

/-- The moment after some more operations. -/
def after (m : Moment) (ops : List Op) : Moment := ops.foldl next m

/-- One more than the largest address written so far, `0` if there is none. -/
def extent (m : Moment) : Nat := ((m.writes.map Prod.fst).max?.map (· + 1)).getD 0

/-- An overwrite may only begin before the end of the program. -/
def Allows (m : Moment) : Op → Prop
  | .enter position => position < m.buffer.code.size
  | .write _ | .leave => True

/-- The operations may be made one after the other. -/
def Admits (m : Moment) : List Op → Prop
  | [] => True
  | op :: ops => m.Allows op ∧ (m.next op).Admits ops

instance (m : Moment) (op : Op) : Decidable (m.Allows op) :=
  match op with
  | .enter position => inferInstanceAs (Decidable (position < m.buffer.code.size))
  | .write _ | .leave => inferInstanceAs (Decidable True)

instance decidableAdmits (m : Moment) : (ops : List Op) → Decidable (m.Admits ops)
  | [] => inferInstanceAs (Decidable True)
  | op :: ops =>
    have := decidableAdmits (m.next op) ops
    inferInstanceAs (Decidable (m.Allows op ∧ (m.next op).Admits ops))

variable {m : Moment} {op : Op} {before after : List Op}

theorem after_cons (m : Moment) (op : Op) (ops : List Op) :
    m.after (op :: ops) = (m.next op).after ops := rfl

theorem after_append (m : Moment) (before after : List Op) :
    m.after (before ++ after) = (m.after before).after after := List.foldl_append

theorem Admits.append (h : m.Admits (before ++ after)) :
    m.Admits before ∧ (m.after before).Admits after := by
  induction before generalizing m with
  | nil => exact ⟨trivial, h⟩
  | cons op before ih =>
    have rest := ih h.2
    exact ⟨⟨h.1, rest.1⟩, rest.2⟩

end Moment

/-! ## The operations do what the script does -/

mutual

theorem after_ops (m : Moment) : (e : Edit) →
    (m.after e.ops).buffer = (e.apply m.buffer).2 ∧ (m.after e.ops).returns = m.returns
  | .write _ => ⟨rfl, rfl⟩
  | .overwrite position edits => by
    have inner := after_opsAll none (m.next (.enter position)) edits
    rw [ops, Moment.after_cons, Moment.after_append]
    refine ⟨?_, ?_⟩
    · change (⟨_, List.headD _ _⟩ : Buffer) = _
      rw [inner.1, inner.2]
      rfl
    · change List.tail _ = _
      rw [inner.2]
      rfl

/-- **The operations of a script** one by one leave the buffer that the script leaves. -/
theorem after_opsAll (last : Option Nat) (m : Moment) : (es : List Edit) →
    (m.after (opsAll es)).buffer = (applyAll last es m.buffer).2 ∧
      (m.after (opsAll es)).returns = m.returns
  | [] => ⟨rfl, rfl⟩
  | e :: es => by
    have head := after_ops m e
    have tail := after_opsAll (some (e.apply m.buffer).1) (m.after e.ops) es
    rw [opsAll, Moment.after_append]
    refine ⟨?_, tail.2.trans head.2⟩
    rw [tail.1, head.1]
    rfl

end

theorem position_apply (e : Edit) (b : Buffer) :
    (e.apply b).2.position = b.position + if e.isWrite then 1 else 0 := by
  cases e with
  | write i => rfl
  | overwrite position edits => rfl

/-- **The position counts the writes outside of all overwrites.** -/
theorem position_applyAll (last : Option Nat) (es : List Edit) (b : Buffer) :
    (applyAll last es b).2.position = b.position + es.countP isWrite := by
  induction es generalizing last b with
  | nil => rfl
  | cons e es ih =>
    change (applyAll (some (e.apply b).1) es (e.apply b).2).2.position = _
    rw [ih, position_apply, List.countP_cons]
    omega

/-! ## What holds at every moment -/

/-- Position and positions to return to lie within the program or at its end, and the program holds
at each address the instruction that was written there last. -/
structure Moment.Sound (m : Moment) : Prop where
  position : m.buffer.position ≤ m.buffer.code.size
  returns : ∀ position ∈ m.returns, position ≤ m.buffer.code.size
  size : m.buffer.code.size = m.extent
  cells : ∀ address, m.buffer.code[address]? = m.writes.lookup address

namespace Moment

variable {m : Moment} {op : Op} {ops : List Op}

theorem sound_start : start.Sound where
  position := Nat.le_refl 0
  returns _ mem := absurd mem List.not_mem_nil
  size := rfl
  cells _ := rfl

theorem extent_cons (buffer : Buffer) (returns : List Nat) (address : Nat) (i : Instr)
    (writes : List (Nat × Instr)) : extent ⟨buffer, returns, (address, i) :: writes⟩ =
      max (extent ⟨buffer, returns, writes⟩) (address + 1) := by
  unfold extent
  rw [List.map_cons, List.max?_cons]
  cases (writes.map Prod.fst).max? with
  | none => simp
  | some largest =>
    simp only [Option.elim_some, Option.map_some, Option.getD_some]
    omega

theorem size_le_next (m : Moment) (op : Op) (sound : m.Sound) :
    m.buffer.code.size ≤ (m.next op).buffer.code.size := by
  cases op with
  | write i =>
    change _ ≤ (Buffer.write i m.buffer).2.code.size
    rw [Buffer.size_write sound.position]
    exact Nat.le_max_left _ _
  | enter position => exact Nat.le_refl _
  | leave => exact Nat.le_refl _

/-- **One operation** keeps the buffer in order. -/
theorem Sound.next (sound : m.Sound) (allowed : m.Allows op) : (m.next op).Sound := by
  have longer := size_le_next m op sound
  cases op with
  | write i =>
    have size : (Buffer.write i m.buffer).2.code.size = _ := Buffer.size_write sound.position i
    refine ⟨?_, fun position mem => Nat.le_trans (sound.returns position mem) longer, ?_, ?_⟩
    · change m.buffer.position + 1 ≤ (Buffer.write i m.buffer).2.code.size
      rw [size]
      exact Nat.le_max_right _ _
    · refine size.trans ?_
      rw [sound.size]
      exact (extent_cons _ _ _ _ _).symm
    · intro address
      refine (Buffer.getElem?_write sound.position i address).trans ?_
      change _ = List.lookup address ((m.buffer.position, i) :: m.writes)
      rw [List.lookup_cons, sound.cells]
      by_cases here : address = m.buffer.position
      · rw [if_pos here, here, BEq.rfl]
      · rw [if_neg here, beq_false_of_ne here]
  | enter position =>
    refine ⟨Nat.le_of_lt allowed, fun position mem => ?_, sound.size, sound.cells⟩
    rcases List.mem_cons.1 mem with rfl | mem
    · exact sound.position
    · exact sound.returns position mem
  | leave =>
    refine ⟨?_, fun position mem => sound.returns position (List.mem_of_mem_tail mem), sound.size,
      sound.cells⟩
    change m.returns.headD m.buffer.position ≤ m.buffer.code.size
    cases returns : m.returns with
    | nil => exact sound.position
    | cons position rest => exact sound.returns position (returns ▸ List.mem_cons_self)

/-- **Any operations** keep the buffer in order, and the program does not get shorter. -/
theorem Sound.after (sound : m.Sound) (admitted : m.Admits ops) :
    (m.after ops).Sound ∧ m.buffer.code.size ≤ (m.after ops).buffer.code.size := by
  induction ops generalizing m with
  | nil => exact ⟨sound, Nat.le_refl _⟩
  | cons op ops ih =>
    have rest := ih (sound.next admitted.1) admitted.2
    exact ⟨rest.1, Nat.le_trans (size_le_next m op sound) rest.2⟩

end Moment

end Edit

open Edit

/-- **Scripts keep a buffer in order.** Let a script be run on the empty buffer, in which every
overwrite begins before the end that the program has then. At every moment of it, also inside of
overwrites:

* the position lies within the program or at its end, and the program does not get shorter later;
* the program is one longer than the largest address written so far, and each address holds the
  instruction that was written there last;
* a write returns the position, which is the only address it changes;
* where the operations of some changes begin, these changes are made to the buffer.

After each change outside of all overwrites the position is the number of writes among the changes
made there. -/
theorem script_keeps_order {script : List Edit} (admitted : Moment.start.Admits (opsAll script)) :
    (∀ before between after, before ++ between ++ after = opsAll script →
      let m := Moment.start.after before
      m.buffer.position ≤ m.buffer.code.size ∧
      m.buffer.code.size ≤ (m.after between).buffer.code.size ∧
      m.buffer.code.size = m.extent ∧
      (∀ address, m.buffer.code[address]? = m.writes.lookup address) ∧
      (∀ i rest, between = .write i :: rest →
        (Buffer.write i m.buffer).1 = m.buffer.position ∧
        ∀ address, (Buffer.write i m.buffer).2.code[address]? =
          if address = m.buffer.position then some i else m.buffer.code[address]?) ∧
      ∀ edits, between = opsAll edits →
        (m.after between).buffer = (applyAll none edits m.buffer).2) ∧
    ∀ done rest, done ++ rest = script →
      (applyAll none done .empty).2.position = done.countP isWrite := by
  refine ⟨fun before between after split => ?_, fun done rest _ => ?_⟩
  · intro m
    rw [← split] at admitted
    have parts := admitted.append.1.append
    have sound : m.Sound := (Moment.sound_start.after parts.1).1
    have longer := (sound.after parts.2).2
    refine ⟨sound.position, longer, sound.size, sound.cells, ?_, ?_⟩
    · intro i rest _
      exact ⟨rfl, Buffer.getElem?_write sound.position i⟩
    · rintro edits rfl
      exact (after_opsAll none m edits).1
  · rw [position_applyAll]
    exact Nat.zero_add _

/-- An overwrite that extends the program by one instruction, with another overwrite inside. -/
def nestedScript : List Edit :=
  [.write (.lit 1), .write (.lit 2),
    .overwrite 1 [.write .neg, .overwrite 0 [.write .not], .write .pop], .write .print]

/-- Inside of the outer overwrite the program has got its third instruction. Behind it the position
is `2` again, so the last write replaces that one. -/
theorem script_keeps_order_nested :
    Moment.start.Admits (opsAll nestedScript) ∧
    (applyAll none (nestedScript.take 3) .empty).2.position = 2 ∧
    (applyAll none nestedScript .empty).2 = ⟨#[.not, .neg, .print], 3⟩ ∧
    let inner := Moment.start.after ((opsAll nestedScript).take 8)
    inner.extent = 3 ∧ inner.buffer.position ≤ inner.buffer.code.size ∧
      inner.buffer.code.size = inner.extent ∧
      ∀ address, inner.buffer.code[address]? = inner.writes.lookup address := by
  have admitted : Moment.start.Admits (opsAll nestedScript) := by decide
  have order := script_keeps_order admitted
  have inner := order.1 ((opsAll nestedScript).take 8) [] ((opsAll nestedScript).drop 8) rfl
  have behind := order.2 (nestedScript.take 3) (nestedScript.drop 3) rfl
  exact ⟨admitted, behind, by decide, by decide, inner.1, inner.2.2.1, inner.2.2.2.1⟩

end NestLang
