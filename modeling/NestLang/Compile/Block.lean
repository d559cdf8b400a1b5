import NestLang.Compile.Session

/-!
# Code around code

What surrounds the code of a branch, of a function body and of a block. Jumps lead forward over
code that is not written yet, so they are written first and get their target afterwards.

* `forward`: a jump over some code.
* `branch`: a conditional with its alternative.
* `inFunction`, `inBlock`: what surrounds the body of a function and of a block.
* `Session.initial`: the session at the start, with the function `print`.
-/

namespace NestLang

namespace CompileM

/-- Write a jump over whatever `rest` writes. The target is put in when it is known; until then it
is `0`. -/
def forward {α : Type} (jump : Nat → Instr) (rest : CompileM α) : CompileM α := do
  let address ← write (jump 0)
  let a ← rest
  patch address (jump (← here))
  return a

/-- Write a conditional. The branch ends with a jump over the alternative, also if that is empty. -/
def branch (test body alternative : CompileM Unit) : CompileM Unit := do
  test
  emit .not
  let skip ← forward .jumpIf do
    body
    write (.jump 0)
  alternative
  patch skip (.jump (← here))

/-- Write a return from the frame of the innermost level, which gives the top value. -/
def emitReturn : CompileM Unit := do emit (.ret (← level) (← params))

/-- Declare the parameters of a function on its level. The last one lies just below the frame. -/
def declareParams (level : Nat) : List String → CompileM Unit
  | [] => return
  | name :: names => do
    declare name (.param level (-(names.length + 1 : Nat)))
    declareParams level names

/-- Write a function around its body. The code before it jumps over it, the function is known in
its own body, and where the body ends without a return the function returns `0`. -/
def inFunction (name : String) (names : List String) (body : CompileM Unit) : CompileM Unit :=
  forward .jump do
    let outer ← level
    let entry ← here
    record (.functionDeclared name outer entry)
    declare name (.func outer entry names.length)
    openLevel (.opened names.length)
    let inner ← level
    declareParams inner names
    body
    emit (.lit 0)
    emit (.ret inner names.length)
    closeLevel .function

/-- Write what comes before the body of a block. The block is called like a function, with a flag
in a slot of the level around it that is `0` until the body has come to its end. After the call the
flag tells whether to go on behind the block or, because a return has left it, to return once more.
Returns the address of the jump behind the block, which has no target yet. -/
def openBlock : CompileM Nat := do
  let outer ← level
  let flag ← reserve
  emit (.lit 0)
  let call ← write (.call outer 0)
  emit (.load outer flag)
  let skip ← write (.jumpIf 0)
  emitReturn
  let entry ← here
  patch call (.call outer entry)
  openLevel (.opened 0)
  record (.blockOpened (outer + 1) entry)
  return skip

/-- Write what comes after the body of a block: set the flag, which lies just below the frame of
the block, and return. Behind the block its value and its flag are removed. -/
def closeBlock (skip : Nat) : CompileM Unit := do
  let inner ← level
  emit (.lit 1)
  emit (.store inner (-1))
  emit (.lit 0)
  emit (.ret inner 0)
  closeLevel .block
  patch skip (.jumpIf (← here))
  emit .pop
  emit .pop
  release
  record (.blockClosed inner)

/-- Write a block around its body. -/
def inBlock (body : CompileM Unit) : CompileM Unit := do
  let skip ← openBlock
  body
  closeBlock skip

/-- Write the function `print`, which prints its argument and returns `0`. No level is opened for
its body, as no name is looked up in it, and nothing is reported. -/
def definePrint : CompileM Unit :=
  forward .jump do
    let entry ← here
    declare "print" (.func 0 entry 1)
    emit (.load 1 (-1))
    emit .print
    emit (.lit 0)
    emit (.ret 1 1)

end CompileM

/-- The session at the start. It has one function, `print`. -/
def Session.initial : Session :=
  match CompileM.definePrint .empty with
  | .ok _ σ | .error _ σ => σ

/-- The jump at address `0` leads around the code of `print`. -/
theorem Session.initial_eq : Session.initial =
    { buffer := ⟨#[.jump 5, .load 1 (-1), .print, .lit 0, .ret 1 1], 5⟩
      scopes := .root [("print", .func 0 1 1)]
      frames := .root .root
      log := #[] } := rfl

end NestLang
