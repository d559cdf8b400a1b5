import NestLang.Compile.Tree
import NestLang.Proofs.Regular

/-!
# The layout of compiled code

What the code of each construct looks like, said without a buffer and without patching. Every
instruction comes with the point of the program it stands at: the frames that are open there, as
the compiler lays them out, and how many values lie above the slots of the innermost one.

* `Shape`, `Point`, `Site`: an open frame, a point of the program, an instruction at its point.
* `Ctx`: the names and the frames at a point between two statements.
* `Part`: the pieces of a program that are compiled one by one.
* `Expr.Emits`, `Part.Emits`: the code of an expression and of a part.
-/

namespace NestLang

/-! ## Frames and points -/

/-- What a frame is open for: the program, or a body of a function or of a block, told by the
address of its code. -/
inductive Owner
  | program
  | function (entry params : Nat)
  | block (entry : Nat)
  deriving DecidableEq

/-- The number of arguments below the frame. -/
def Owner.params : Owner → Nat
  | .function _ params => params
  | .program | .block _ => 0

/-- The number of slots that opening the frame has filled. -/
def Owner.header : Owner → Nat
  | .program => 0
  | .function _ _ | .block _ => Frame.headerSize

/-- The frame belongs to a function. -/
def Owner.isFunction : Owner → Bool
  | .function _ _ => true
  | .program | .block _ => false

/-- An open frame: what it is open for, and the number of slots taken by its header and its
variables. -/
structure Shape where
  owner : Owner
  slots : Nat
  deriving DecidableEq

namespace Shape

/-- The frame of the whole program at its start. -/
def program : Shape := ⟨.program, 0⟩

/-- A frame that a call has just opened. -/
def opened (owner : Owner) : Shape := ⟨owner, Frame.headerSize⟩

/-- The frame with one more variable. -/
def grow (s : Shape) : Shape := ⟨s.owner, s.slots + 1⟩

/-- The layout of the frame in the compiler. -/
def frame (s : Shape) : Frame := ⟨s.slots, s.owner.params⟩

/-- The offset is that of a variable or of an argument of the frame. -/
def Holds (s : Shape) (offset : Int) : Prop :=
  (s.owner.header ≤ offset ∧ offset < s.slots) ∨ (-s.owner.params ≤ offset ∧ offset < 0)

end Shape

/-- Some open frame belongs to a function. -/
def inFunction (shapes : Levels Shape) : Bool := shapes.toList.any fun s => s.owner.isFunction

/-- What is known at a point beyond the number of values on the stack. -/
inductive Mark
  /-- Nothing more. -/
  | plain
  /-- The top value. -/
  | known (v : Value)
  /-- The flag of the innermost block is set, and the block is about to be left. -/
  | leaving
  /-- The value below the top one is the flag of a block that was left at its end. -/
  | passed
  deriving DecidableEq

/-- A point of the program: the open frames, and the number of values above the slots of the
innermost one. -/
structure Point where
  shapes : Levels Shape
  temps : Nat
  mark : Mark

/-- The size of the innermost frame, counted from its base. -/
def Point.height (p : Point) : Nat := p.shapes.current.slots + p.temps

/-- An instruction with the point it stands at. An instruction without one is never executed. -/
structure Site where
  instr : Instr
  point? : Option Point

/-- The instructions of some sites. -/
def Site.code (sites : List Site) : List Instr := sites.map Site.instr

/-! ## Names and frames between two statements -/

/-- The names that are declared, and the frames that are open. -/
structure Ctx where
  scopes : Scopes Decl
  shapes : Levels Shape

/-- Declare parameters in order. The last one lies just below the frame. -/
def Scopes.declareParams (level : Nat) : List String → Scopes Decl → Scopes Decl
  | [], s => s
  | name :: names, s =>
    declareParams level names (s.declare name (.param level (-(names.length + 1 : Nat))))

namespace Ctx

/-- At the start of a program only `print` is declared. -/
def initial : Ctx := ⟨.root [("print", .func 0 1 1)], .root .program⟩

/-- The number of the innermost level. -/
def level (ctx : Ctx) : Nat := ctx.shapes.depth

/-- The offset of the next free slot. -/
def slots (ctx : Ctx) : Nat := ctx.shapes.current.slots

/-- The number of arguments below the innermost frame. -/
def params (ctx : Ctx) : Nat := ctx.shapes.current.owner.params

/-- A point with so many values above the slots. -/
def point (ctx : Ctx) (temps : Nat) : Point := ⟨ctx.shapes, temps, .plain⟩

/-- An instruction at such a point. -/
def site (ctx : Ctx) (temps : Nat) (i : Instr) : Site := ⟨i, some (ctx.point temps)⟩

/-- An instruction at such a point at which more is known. -/
def marked (ctx : Ctx) (temps : Nat) (mark : Mark) (i : Instr) : Site :=
  ⟨i, some ⟨ctx.shapes, temps, mark⟩⟩

/-- After the declaration of a variable. -/
def declareVar (ctx : Ctx) (name : String) : Ctx :=
  ⟨ctx.scopes.declare name (.var ctx.level ctx.slots), ctx.shapes.modify Shape.grow⟩

/-- After the declaration of a function. -/
def declareFunc (ctx : Ctx) (name : String) (entry params : Nat) : Ctx :=
  ⟨ctx.scopes.declare name (.func ctx.level entry params), ctx.shapes⟩

/-- At the start of a block whose body has its code at `entry`. -/
def enterBlock (ctx : Ctx) (entry : Nat) : Ctx :=
  ⟨ctx.scopes.enter [], ctx.shapes.enter (.opened (.block entry))⟩

/-- At the start of the body of a function, which has its code at `entry`. -/
def enterFunc (ctx : Ctx) (entry : Nat) (names : List String) : Ctx :=
  ⟨Scopes.declareParams (ctx.level + 1) names (ctx.scopes.enter []),
    ctx.shapes.enter (.opened (.function entry names.length))⟩

/-- What comes before the body of a block at address `a`, where `size` is the length of the code of
the body. The last instruction is reached only if a return can leave the block. -/
def openSites (ctx : Ctx) (a size : Nat) : List Site :=
  [ctx.site 0 (.lit 0),
    ctx.marked 1 (.known 0) (.call ctx.level (a + 5)),
    ctx.marked 2 (if inFunction ctx.shapes then .plain else .passed) (.load ctx.level ctx.slots),
    ctx.marked 3 (if inFunction ctx.shapes then .plain else .known 1) (.jumpIf (a + 5 + size + 4)),
    ⟨.ret ctx.level ctx.params, if inFunction ctx.shapes then some (ctx.point 2) else none⟩]

/-- What comes after the body of a block. -/
def closeSites (ctx : Ctx) : List Site :=
  [ctx.site 0 (.lit 1),
    ctx.marked 1 (.known 1) (.store ctx.level (-1)),
    ctx.marked 0 .leaving (.lit 0),
    ctx.marked 1 .leaving (.ret ctx.level 0)]

end Ctx

/-! ## Parts of a program -/

/-- The pieces of a program that are compiled one by one: a statement, some statements, an
alternative, what stands in the frame of a loop, and a block around one of these. -/
inductive Part
  | stmt (s : Stmt)
  | stmts (body : List Stmt)
  | otherwise (alternative : Else)
  | passes (first : Stmt) (test : Expr) (after : Stmt) (body : List Stmt)
  | block (content : Part)

/-- Every return in the part stands inside a function. -/
def Part.returnsInside (inside : Bool) : Part → Bool
  | .stmt s => s.returnsInside inside
  | .stmts body => Stmt.returnsInsideAll inside body
  | .otherwise alternative => alternative.returnsInside inside
  | .passes first _ after body =>
    first.returnsInside inside && after.returnsInside inside && Stmt.returnsInsideAll inside body
  | .block content => content.returnsInside inside

/-- No loop in the part declares a variable after each pass. -/
def Part.noLateDeclare : Part → Bool
  | .stmt s => s.noLateDeclare
  | .stmts body => Stmt.noLateDeclareAll body
  | .otherwise alternative => alternative.noLateDeclare
  | .passes first _ after body =>
    first.noLateDeclare && after.noLateDeclare && !after.isDeclare && Stmt.noLateDeclareAll body
  | .block content => content.noLateDeclare

/-! ## The code of expressions -/

/-- The slot of a variable or a parameter. -/
def Decl.slot? : Decl → Option (Nat × Int)
  | .var level offset | .param level offset => some (level, offset)
  | .func _ _ _ => none

/-- The instructions of a unary operator. -/
def UnaryOp.instrs : UnaryOp → List Instr
  | .not => [.not]
  | .minus => [.neg]
  | .plus => []

mutual

/-- The code of an expression, with `t` values above the slots at its start. -/
inductive Expr.Emits (ctx : Ctx) : Nat → Expr → List Site → Prop
  | int {t v} : Expr.Emits ctx t (.int v) [ctx.site t (.lit v)]
  | bool {t b} : Expr.Emits ctx t (.bool b) [ctx.site t (.lit (.ofBool b))]
  | var {t name decl level offset} (resolved : ctx.scopes.resolve? name = some decl)
      (slot : decl.slot? = some (level, offset)) :
      Expr.Emits ctx t (.var name) [ctx.site t (.load level offset)]
  | call {t name args level entry sites}
      (resolved : ctx.scopes.resolve? name = some (.func level entry args.length))
      (operands : Expr.EmitsAll ctx t args sites) :
      Expr.Emits ctx t (.call name args)
        (sites ++ [ctx.site (t + args.length) (.call level entry)])
  | unary {t op e sites} (operand : Expr.Emits ctx t e sites) :
      Expr.Emits ctx t (.unary op e) (sites ++ op.instrs.map (ctx.site (t + 1)))
  | binary {t op l r sites₁ sites₂} (left : Expr.Emits ctx t l sites₁)
      (right : Expr.Emits ctx (t + 1) r sites₂) :
      Expr.Emits ctx t (.binary op l r) (sites₁ ++ sites₂ ++ [ctx.site (t + 2) (.binary op)])
  | post {t op name level offset} (resolved : ctx.scopes.resolve? name = some (.var level offset)) :
      Expr.Emits ctx t (.post op (.var name))
        [ctx.site t (.load level offset), ctx.site (t + 1) (.load level offset),
          ctx.site (t + 2) (.lit op.delta), ctx.site (t + 3) (.binary .add),
          ctx.site (t + 2) (.store level offset)]

/-- The code of some expressions from left to right. -/
inductive Expr.EmitsAll (ctx : Ctx) : Nat → List Expr → List Site → Prop
  | nil {t} : Expr.EmitsAll ctx t [] []
  | cons {t e es sites₁ sites₂} (head : Expr.Emits ctx t e sites₁)
      (tail : Expr.EmitsAll ctx (t + 1) es sites₂) :
      Expr.EmitsAll ctx t (e :: es) (sites₁ ++ sites₂)

end

/-! ## The code of parts -/

/-- The body of `print`. -/
def Ctx.print : Ctx := Ctx.initial.enterFunc 1 ["value"]

/-- The code of `print`, at the start of every program. -/
def printSites : List Site :=
  [Ctx.initial.site 0 (.jump 5), Ctx.print.site 0 (.load 1 (-1)), Ctx.print.site 1 .print,
    Ctx.print.site 0 (.lit 0), Ctx.print.site 1 (.ret 1 1)]

/-- The code of a part at an address. The second context is that behind the part. -/
inductive Part.Emits : Ctx → Nat → Part → List Site → Ctx → Prop
  | nil {ctx a} : Emits ctx a (.stmts []) [] ctx
  | cons {ctx a s rest sites₁ ctx₁ sites₂ ctx₂} (head : Emits ctx a (.stmt s) sites₁ ctx₁)
      (tail : Emits ctx₁ (a + sites₁.length) (.stmts rest) sites₂ ctx₂) :
      Emits ctx a (.stmts (s :: rest)) (sites₁ ++ sites₂) ctx₂
  | declare {ctx a name e sites} (value : Expr.Emits (ctx.declareVar name) 0 e sites) :
      Emits ctx a (.stmt (.declare name e))
        (ctx.site 0 (.lit 0) ::
          (sites ++ [(ctx.declareVar name).site 1 (.store ctx.level ctx.slots)]))
        (ctx.declareVar name)
  | assign {ctx a name e decl level offset sites}
      (resolved : ctx.scopes.resolve? name = some decl) (slot : decl.slot? = some (level, offset))
      (value : Expr.Emits ctx 0 e sites) :
      Emits ctx a (.stmt (.assign name e)) (sites ++ [ctx.site 1 (.store level offset)]) ctx
  | function {ctx a name names body sites inner}
      (content : Emits ((ctx.declareFunc name (a + 1) names.length).enterFunc (a + 1) names) (a + 1)
        (.stmts body) sites inner) :
      Emits ctx a (.stmt (.function name names body))
        (ctx.site 0 (.jump (a + 1 + sites.length + 2)) ::
          (sites ++ [inner.site 0 (.lit 0), inner.site 1 (.ret (ctx.level + 1) names.length)]))
        (ctx.declareFunc name (a + 1) names.length)
  | ret {ctx a} :
      Emits ctx a (.stmt (.ret none))
        [ctx.site 0 (.lit 0), ctx.site 1 (.ret ctx.level ctx.params)] ctx
  | retValue {ctx a e sites} (value : Expr.Emits ctx 0 e sites) :
      Emits ctx a (.stmt (.ret (some e))) (sites ++ [ctx.site 1 (.ret ctx.level ctx.params)]) ctx
  | cond {ctx a test body alternative sites₁ sites₂ sites₃}
      (condition : Expr.Emits ctx 0 test sites₁)
      (branch : Emits ctx (a + sites₁.length + 2) (.block (.stmts body)) sites₂ ctx)
      (other : Emits ctx (a + sites₁.length + 2 + sites₂.length + 1) (.otherwise alternative)
        sites₃ ctx) :
      Emits ctx a (.stmt (.cond test body alternative))
        (sites₁ ++ ctx.site 1 .not ::
          ctx.site 1 (.jumpIf (a + sites₁.length + 2 + sites₂.length + 1)) ::
          (sites₂ ++ ctx.site 0
            (.jump (a + sites₁.length + 2 + sites₂.length + 1 + sites₃.length)) :: sites₃)) ctx
  | loop {ctx a first test after body sites}
      (frame : Emits ctx a (.block (.passes first test after body)) sites ctx) :
      Emits ctx a (.stmt (.loop first test after body)) sites ctx
  | blockStmt {ctx a body sites} (content : Emits ctx a (.block (.stmts body)) sites ctx) :
      Emits ctx a (.stmt (.block body)) sites ctx
  | expr {ctx a e sites} (value : Expr.Emits ctx 0 e sites) :
      Emits ctx a (.stmt (.expr e)) (sites ++ [ctx.site 1 .pop]) ctx
  | empty {ctx a} : Emits ctx a (.stmt .empty) [] ctx
  | noElse {ctx a} : Emits ctx a (.otherwise .none) [] ctx
  | elseBlock {ctx a body sites} (content : Emits ctx a (.block (.stmts body)) sites ctx) :
      Emits ctx a (.otherwise (.block body)) sites ctx
  | elseCond {ctx a test body alternative sites}
      (content : Emits ctx a (.stmt (.cond test body alternative)) sites ctx) :
      Emits ctx a (.otherwise (.cond test body alternative)) sites ctx
  | passes {ctx a first test after body sites₁ ctx₁ sites₂ sites₃ sites₄ ctx₂}
      (header : Emits ctx a (.stmt first) sites₁ ctx₁)
      (condition : Expr.Emits ctx₁ 0 test sites₂)
      (pass : Emits ctx₁ (a + sites₁.length + sites₂.length + 2) (.block (.stmts body)) sites₃ ctx₁)
      (update : Emits ctx₁ (a + sites₁.length + sites₂.length + 2 + sites₃.length) (.stmt after)
        sites₄ ctx₂) :
      Emits ctx a (.passes first test after body)
        (sites₁ ++ (sites₂ ++ ctx₁.site 1 .not ::
          ctx₁.site 1 (.jumpIf
            (a + sites₁.length + sites₂.length + 2 + sites₃.length + sites₄.length + 1)) ::
          (sites₃ ++ (sites₄ ++ [ctx₂.site 0 (.jump (a + sites₁.length))])))) ctx₂
  | block {ctx a content sites inner}
      (body : Emits (ctx.enterBlock (a + 5)) (a + 5) content sites inner) :
      Emits ctx a (.block content)
        (ctx.openSites a sites.length ++
          (sites ++ (inner.closeSites ++ [ctx.site 2 .pop, ctx.site 1 .pop]))) ctx

theorem Scopes.outer_declareParams (level : Nat) (names : List String) (s : Scopes Decl) :
    (Scopes.declareParams level names s).outer = s.outer := by
  induction names generalizing s with
  | nil => rfl
  | cons name names ih =>
    rw [Scopes.declareParams, ih]
    rfl

/-- **A part leaves the levels around its own alone**, and its own frame only grows. -/
theorem Part.Emits.outer {ctx ctx' : Ctx} {a : Nat} {part : Part} {sites : List Site}
    (h : Part.Emits ctx a part sites ctx') :
    ctx'.scopes.outer = ctx.scopes.outer ∧ ctx'.shapes.outer = ctx.shapes.outer ∧
      ctx'.shapes.current.owner = ctx.shapes.current.owner ∧ ctx.slots ≤ ctx'.slots := by
  induction h with
  | cons _ _ ih₁ ih₂ =>
    exact ⟨ih₂.1.trans ih₁.1, ih₂.2.1.trans ih₁.2.1, ih₂.2.2.1.trans ih₁.2.2.1,
      Nat.le_trans ih₁.2.2.2 ih₂.2.2.2⟩
  | declare _ => exact ⟨rfl, rfl, rfl, Nat.le_succ _⟩
  | function _ _ => exact ⟨rfl, rfl, rfl, Nat.le_refl _⟩
  | passes _ _ _ _ ih₁ _ ih₂ =>
    exact ⟨ih₂.1.trans ih₁.1, ih₂.2.1.trans ih₁.2.1, ih₂.2.2.1.trans ih₁.2.2.1,
      Nat.le_trans ih₁.2.2.2 ih₂.2.2.2⟩
  | _ => exact ⟨rfl, rfl, rfl, Nat.le_refl _⟩

theorem Part.Emits.level {ctx ctx' : Ctx} {a : Nat} {part : Part} {sites : List Site}
    (h : Part.Emits ctx a part sites ctx') : ctx'.level = ctx.level :=
  congrArg List.length h.outer.2.1

end NestLang
