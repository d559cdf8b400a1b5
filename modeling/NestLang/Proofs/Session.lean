import NestLang.Compile.Block
import NestLang.Proofs.Actions

/-!
# What the actions of the compiler do

Equations for the actions of the compiler on a session whose position is at the end of the code,
which is where a compilation always is.

* `Buffer.written`: a buffer with some more instructions at its end.
* `CompileM.patch_written`: a patch replaces one of the instructions written since.
-/

namespace NestLang

namespace Buffer

/-- The next instruction is written at the end of the code. -/
def AtEnd (b : Buffer) : Prop := b.position = b.code.size

/-- The buffer with some more instructions at the end. -/
def written (b : Buffer) (is : List Instr) : Buffer :=
  ⟨b.code ++ is.toArray, b.code.size + is.length⟩

theorem atEnd_written (b : Buffer) (is : List Instr) : (b.written is).AtEnd := by
  simp [AtEnd, written]

@[simp] theorem position_written (b : Buffer) (is : List Instr) :
    (b.written is).position = b.code.size + is.length := rfl

@[simp] theorem size_written (b : Buffer) (is : List Instr) :
    (b.written is).code.size = b.code.size + is.length := by
  simp [written]

@[simp] theorem toList_written (b : Buffer) (is : List Instr) :
    (b.written is).code.toList = b.code.toList ++ is := by
  simp [written]

@[simp] theorem written_written (b : Buffer) (is js : List Instr) :
    (b.written is).written js = b.written (is ++ js) := by
  simp [written, Nat.add_assoc]

theorem AtEnd.written_nil {b : Buffer} (h : b.AtEnd) : b.written [] = b := by
  obtain ⟨code, position⟩ := b
  have h' : position = code.size := h
  simp [written, h']

theorem AtEnd.write {b : Buffer} (h : b.AtEnd) (i : Instr) :
    Buffer.write i b = (b.code.size, b.written [i]) := by
  rw [Buffer.write_end i b h]
  simp [written]

/-- **Overwriting one of the instructions written since** replaces it. -/
theorem overwrite_written (b : Buffer) (is js : List Instr) (i j : Instr) :
    overwrite (b.code.size + is.length) (Buffer.write j) (b.written (is ++ i :: js)) =
      (b.code.size + is.length, b.written (is ++ j :: js)) := by
  have hset : (b.written (is ++ i :: js)).code.set (b.code.size + is.length) j (by simp) =
      (b.written (is ++ j :: js)).code := by
    apply Array.toList_inj.mp
    simp [written]
  rw [overwrite_write _ _ _ (by simp), hset]
  simp [written]

end Buffer

namespace CompileM

section Actions

variable {b : Buffer} {scopes : Scopes Decl} {frames : Levels Frame} {log : Array Event}

theorem write_eq (h : b.AtEnd) (i : Instr) : write i ⟨b, scopes, frames, log⟩ =
    .ok b.code.size ⟨b.written [i], scopes, frames, log⟩ := by
  simp [write, onBuffer, h.write i]

theorem emit_eq (h : b.AtEnd) (i : Instr) : emit i ⟨b, scopes, frames, log⟩ =
    .ok () ⟨b.written [i], scopes, frames, log⟩ := by
  simp only [emit, bind_run, write_eq h, pure_run]

variable (b scopes frames log) in
/-- **A patch** replaces one of the instructions written since. -/
theorem patch_written (is js : List Instr) (i j : Instr) :
    patch (b.code.size + is.length) j ⟨b.written (is ++ i :: js), scopes, frames, log⟩ =
      .ok () ⟨b.written (is ++ j :: js), scopes, frames, log⟩ := by
  simp only [patch, bind_run, onBuffer, Buffer.overwrite_written b is js i j, pure_run]

theorem here_eq (σ : Session) : here σ = .ok σ.buffer.position σ := rfl

theorem level_eq (σ : Session) : level σ = .ok σ.frames.depth σ := rfl

theorem params_eq (σ : Session) : params σ = .ok σ.frames.current.params σ := rfl

theorem reserve_eq (σ : Session) : reserve σ = .ok σ.frames.current.next
    { σ with frames := σ.frames.modify fun f => { f with next := f.next + 1 } } := rfl

theorem release_eq (σ : Session) : release σ = .ok ()
    { σ with frames := σ.frames.modify fun f => { f with next := f.next - 1 } } := rfl

theorem declare_eq (name : String) (meaning : Decl) (σ : Session) :
    declare name meaning σ = .ok () { σ with scopes := σ.scopes.declare name meaning } := rfl

theorem resolve?_eq (name : String) (σ : Session) :
    resolve? name σ = .ok (σ.scopes.resolve? name) σ := rfl

theorem get_eq (σ : Session) : (get : CompileM Session) σ = .ok σ σ := rfl

theorem record_eq (e : Event) (σ : Session) :
    record e σ = .ok () { σ with log := σ.log.push e } := rfl

theorem openLevel_eq (frame : Frame) (σ : Session) : openLevel frame σ = .ok ()
    { σ with scopes := σ.scopes.enter [], frames := σ.frames.enter frame } := rfl

theorem closeLevel_eq (kind : LevelKind) (current outer : Frame) (rest : List Frame) :
    closeLevel kind ⟨b, scopes, ⟨current, outer :: rest⟩, log⟩ =
      .ok () ⟨b, scopes.leave, ⟨outer, rest⟩, log⟩ := rfl

theorem emitReturn_eq (h : b.AtEnd) : emitReturn ⟨b, scopes, frames, log⟩ =
    .ok () ⟨b.written [.ret frames.depth frames.current.params], scopes, frames, log⟩ := by
  simp only [emitReturn, bind_run, level_eq, params_eq, emit_eq h]

end Actions

end CompileM

end NestLang
