/-!
# Where names live

Variables and parameters live in slots of stack frames, and functions at addresses of the program.
While a level is open, its frame is laid out slot by slot.
-/

namespace NestLang

/-- What a declared name stands for. -/
inductive Decl
  /-- A variable, in the slot at an offset from the base of its level. -/
  | var (level : Nat) (offset : Int)
  /-- A parameter, in the slot at a negative offset from the base of its level. -/
  | param (level : Nat) (offset : Int)
  /-- A function declared on a level, by the address of its body and its number of parameters. -/
  | func (level entry params : Nat)
  deriving DecidableEq

/-- The layout of the frame of a level: the offset of the next free slot, and the number of
arguments below the frame. -/
structure Frame where
  next : Nat
  params : Nat
  deriving DecidableEq

namespace Frame

/-- The number of slots at the base of a frame that its opening has filled. -/
def headerSize : Nat := 2

/-- The frame of the outermost level, which no call has opened, has no header. -/
def root : Frame := ⟨0, 0⟩

/-- A frame that a call has opened. -/
def opened (params : Nat) : Frame := ⟨headerSize, params⟩

end Frame

end NestLang
