import NestLang.Code.Basic

/-!
# Writing compiled programs

A buffer is a compiled program with a position at which the next instruction is written. Jumps to
addresses that are not known yet are written with a placeholder and overwritten later: `overwrite`
moves the position back, lets some instructions be written there and returns to where it was.

* `Buffer.write`: write one instruction at the position.
* `Buffer.overwrite`: write at an earlier position.
* `Edit`: what can be done to a buffer, as data; overwrites may be nested.
-/

namespace NestLang

/-- A compiled program under construction, with the position of the next write. -/
structure Buffer where
  code : Code
  position : Nat
  deriving DecidableEq

namespace Buffer

/-- The buffer that holds no instruction. -/
def empty : Buffer := ⟨#[], 0⟩

/-- Write an instruction at the position and move the position behind it. At the end the program
grows by one instruction, elsewhere one instruction is replaced. Returns the address written. -/
def write (i : Instr) : StateM Buffer Nat := fun b =>
  let code := if b.position = b.code.size then b.code.push i else b.code.setIfInBounds b.position i
  (b.position, ⟨code, b.position + 1⟩)

/-- Do some writes at another position and return to the position before. -/
def overwrite {α : Type} (position : Nat) (writes : StateM Buffer α) : StateM Buffer α := fun b =>
  let (a, b') := writes ⟨b.code, position⟩
  (a, ⟨b'.code, b.position⟩)

theorem write_end (i : Instr) (b : Buffer) (h : b.position = b.code.size) :
    write i b = (b.code.size, ⟨b.code.push i, b.code.size + 1⟩) := by
  simp [write, h]

theorem overwrite_write (position : Nat) (i : Instr) (b : Buffer) (h : position < b.code.size) :
    overwrite position (write i) b = (position, ⟨b.code.set position i, b.position⟩) := by
  have hne : position ≠ b.code.size := Nat.ne_of_lt h
  simp [overwrite, write, hne, Array.setIfInBounds, h]

end Buffer

/-- A change to a buffer: one instruction written, or some changes made at another position. -/
inductive Edit
  | write (i : Instr)
  | overwrite (position : Nat) (edits : List Edit)

mutual

/-- Make a change. Returns the address of its last write. -/
def Edit.apply : Edit → StateM Buffer Nat
  | .write i => Buffer.write i
  | .overwrite position edits => Buffer.overwrite position (Edit.applyAll none edits)

/-- Make some changes in order. Returns what the last of them returned, or else `last`, or else
the position. -/
def Edit.applyAll (last : Option Nat) : List Edit → StateM Buffer Nat
  | [] => fun b => (last.getD b.position, b)
  | e :: es => do
    let address ← e.apply
    Edit.applyAll (some address) es

end

end NestLang
