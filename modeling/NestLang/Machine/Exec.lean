import NestLang.Code.Basic
import NestLang.Machine.Display
import NestLang.Machine.Output
import NestLang.Machine.Stack

/-!
# Executing one instruction

`State` is what instructions act on. A frame is opened by `Instr.call` and starts with a header of
two slots: the base that its level had before and the address to return to. The slots of local
variables and intermediate results follow, and the arguments of a call lie just below the header.

* `exec`: the effect of every instruction. An instruction that fails keeps what it changed before.
* `advance`: move the program counter past an instruction, then execute it.
-/

namespace NestLang

/-- What instructions act on: program counter, stack, display and output. -/
structure State (ω : Type) where
  pc : Nat
  stack : Stack
  display : Display
  output : ω
  deriving DecidableEq

/-- An action on the state that may fail. The state it reached is kept also when it fails. -/
abbrev Exec (ω : Type) := EStateM Fault (State ω)

namespace Exec

variable {ω : Type}

/-- An action on the stack, as an action on the state. -/
@[inline] def onStack {α : Type} (action : EStateM Fault Stack α) : Exec ω α :=
  fun ⟨pc, stack, display, output⟩ =>
    match action stack with
    | .ok a stack => .ok a ⟨pc, stack, display, output⟩
    | .error fault stack => .error fault ⟨pc, stack, display, output⟩

/-- Put a value on the stack. -/
def push (v : Value) : Exec ω Unit := modify fun s => { s with stack := s.stack.push v }

/-- Take the top value. -/
def pop : Exec ω Value := onStack Stack.popTop

/-- Take the two top values, the lower one first. -/
def popTwo : Exec ω (Value × Value) := onStack Stack.popTwo

/-- The value of a slot. -/
def load (address : Nat) : Exec ω Value := onStack (Stack.load address)

/-- Change the value of a slot. -/
def store (address : Nat) (v : Value) : Exec ω Unit := onStack (Stack.store address v)

/-- Remove the values above the lowest `size`. -/
def truncate (size : Nat) : Exec ω Unit :=
  modify fun s => { s with stack := s.stack.truncate size }

/-- Go on at an address. -/
def goto (address : Nat) : Exec ω Unit := modify fun s => { s with pc := address }

/-- The base of a level. -/
def base (level : Nat) : Exec ω Nat := return (← get).display.base level

/-- Set the base of a level. -/
def setBase (level base : Nat) : Exec ω Unit :=
  modify fun s => { s with display := s.display.setBase level base }

/-- The slot at an offset from the base of a level. Base and offset are signed words. A sum that is
no signed word is reported as the offset, and a negative sum as itself. -/
def slot (level : Nat) (offset : Int) : Exec ω Nat := do
  let address := signed (← base level) + offset
  if address < -addressBound ∨ addressBound ≤ address then throw (.invalidAddress offset)
  if address < 0 then throw (.invalidAddress address)
  return address.toNat

/-- The address stored in a word of a frame header. -/
def savedAddress (v : Value) : Exec ω Nat :=
  match v.address? with
  | some address => return address
  | none => throw (.invalidAddress v.toInt)

/-- Open a frame one level above `level` on top of the stack, with its header, and go on at
`target`. The highest level of all has none above it. -/
def enter (level target : Nat) : Exec ω Unit := do
  if wordCount ≤ level + 1 then throw (.invalidAddress (signed level))
  let savedBase ← base (level + 1)
  let savedPc := (← get).pc
  setBase (level + 1) (← get).stack.size
  push (.ofAddress savedBase)
  push (.ofAddress savedPc)
  goto target

/-- Close the frame of a level: restore base and program counter from its header, remove it with
the `params` arguments below it, and leave the top value on the stack. -/
def leave (level params : Nat) : Exec ω Unit := do
  let result ← pop
  let frame ← base level
  let savedBase ← load frame
  let savedPc ← load (frame + 1)
  setBase level (← savedAddress savedBase)
  if frame < params then
    throw (.invalidAddress (Value.ofAddress frame - Value.ofAddress params).toInt)
  truncate (frame - params)
  goto (← savedAddress savedPc)
  push result

/-- Print a value. -/
def print [Output ω] (v : Value) : Exec ω Unit := fun ⟨pc, stack, display, output⟩ =>
  match Output.print v output with
  | .ok _ output => .ok () ⟨pc, stack, display, output⟩
  | .error cause output => .error (.output cause) ⟨pc, stack, display, output⟩

end Exec

open Exec in
/-- The effect of an instruction, once the program counter has moved past it. -/
def exec {ω : Type} [Output ω] : Instr → Exec ω Unit
  | .lit value => push value
  | .pop => do let _ ← pop
  | .load level offset => do push (← load (← slot level offset))
  | .store level offset => do
    let value ← pop
    store (← slot level offset) value
  | .jump target => goto target
  | .jumpIf target => do if (← pop) ≠ 0 then goto target
  | .neg => do push (-(← pop))
  | .not => do push (.ofBool ((← pop) = 0))
  | .binary op => do
    let (a, b) ← popTwo
    match op.apply? a b with
    | some value => push value
    | none => throw .divisionByZero
  | .call level target => enter level target
  | .ret level params => leave level params
  | .print => do print (← pop)

/-- Move the program counter past an instruction and execute it. -/
def advance {ω : Type} [Output ω] (i : Instr) : Exec ω Unit := do
  modify fun s => { s with pc := s.pc + 1 }
  exec i

end NestLang
