import NestLang.Code.Buffer
import NestLang.Compile.Error
import NestLang.Compile.Frame
import NestLang.Event
import NestLang.Scope

/-!
# Compiling step by step

A session is the state of the compiler: the instructions written so far, what the names in scope
stand for, and how the frames of the open levels are laid out. One session may compile several
programs one after the other. A compilation that fails keeps the session as it was at that point.

* `Session.empty`: the session in which nothing is declared and no instruction is written.
* `CompileM`: actions on a session that may fail.
-/

namespace NestLang

/-- The state of the compiler. -/
structure Session where
  buffer : Buffer
  scopes : Scopes Decl
  frames : Levels Frame
  log : Array Event

/-- The session in which no instruction is written and only the outermost level is open. -/
def Session.empty : Session where
  buffer := .empty
  scopes := .root []
  frames := .root .root
  log := #[]

/-- An action of the compiler. It may fail, and then the session it reached is kept. -/
abbrev CompileM := EStateM CompileError Session

namespace CompileM

/-- Do something to the buffer. -/
@[inline] def onBuffer {α : Type} (action : StateM Buffer α) : CompileM α :=
  fun ⟨buffer, scopes, frames, log⟩ =>
    let (a, buffer) := action buffer
    .ok a ⟨buffer, scopes, frames, log⟩

/-- Write an instruction. Returns its address. -/
def write (i : Instr) : CompileM Nat := onBuffer (Buffer.write i)

/-- Write an instruction. -/
def emit (i : Instr) : CompileM Unit := do let _ ← write i

/-- Replace the instruction at an address. -/
def patch (address : Nat) (i : Instr) : CompileM Unit := do
  let _ ← onBuffer (Buffer.overwrite address (Buffer.write i))

/-- The address of the next instruction. -/
def here : CompileM Nat := return (← get).buffer.position

/-- The number of the innermost level. -/
def level : CompileM Nat := return (← get).frames.depth

/-- The number of arguments below the frame of the innermost level. -/
def params : CompileM Nat := return (← get).frames.current.params

/-- Take the next free slot of the innermost level. Returns its offset. -/
def reserve : CompileM Nat := do
  let slot := (← get).frames.current.next
  modify fun s => { s with frames := s.frames.modify fun f => { f with next := f.next + 1 } }
  return slot

/-- Give back the slot of the innermost level that was taken last. -/
def release : CompileM Unit :=
  modify fun s => { s with frames := s.frames.modify fun f => { f with next := f.next - 1 } }

/-- Declare a name on the innermost level. -/
def declare (name : String) (meaning : Decl) : CompileM Unit :=
  modify fun s => { s with scopes := s.scopes.declare name meaning }

/-- What a name stands for. -/
def resolve? (name : String) : CompileM (Option Decl) := return (← get).scopes.resolve? name

/-- Report an event. -/
def record (e : Event) : CompileM Unit := modify fun s => { s with log := s.log.push e }

/-- Open a level with an empty scope. -/
def openLevel (frame : Frame) : CompileM Unit :=
  modify fun s => { s with scopes := s.scopes.enter [], frames := s.frames.enter frame }

/-- Close the innermost level with its scope. -/
def closeLevel (kind : LevelKind) : CompileM Unit := do
  match (← get).frames.leave? with
  | some frames => modify fun s => { s with scopes := s.scopes.leave, frames := frames }
  | none => throw (.levelMissing kind)

end CompileM

end NestLang
