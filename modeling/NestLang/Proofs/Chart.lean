import NestLang.Proofs.Landmarks
import NestLang.Proofs.Layout

/-!
# Charts of compiled code

A chart tells for every address of a program which frames are open there and how many values lie on
the stack. In a consistent chart every instruction fits: it leads from the point it stands at to the
points at which execution can go on.

* `Names`, `Below`: the slots that code may use, and the frames a function may be called in.
* `Chart`: the sites of a whole program.
* `Chart.Fits`: what an instruction needs at its point and where it leads.
* `Chart.Allows`: the names in scope can be used.
* `Part.Emits.length_eq`, `Part.Emits.point`: the length of code, and the point it starts at.
-/

namespace NestLang

/-! ## Slots and frames -/

/-- The offset is that of a variable or an argument of the frame of the level. -/
inductive Names : List Shape → Nat → Int → Prop
  | here {s outer offset} (holds : s.Holds offset) : Names (s :: outer) outer.length offset
  | outer {s outer level offset} (names : Names outer level offset) :
      Names (s :: outer) level offset

/-- The frames on the left are open on the right also, where the innermost of them may have got more
variables and other frames may have been opened. -/
inductive Below : List Shape → List Shape → Prop
  | grown {s s' outer} (owner : s'.owner = s.owner) (slots : s.slots ≤ s'.slots) :
      Below (s :: outer) (s' :: outer)
  | enter {shapes shapes' s} (below : Below shapes shapes') : Below shapes (s :: shapes')

theorem Below.refl (shapes : Levels Shape) : Below shapes.toList shapes.toList :=
  .grown rfl (Nat.le_refl _)

theorem Below.trans {l₁ l₂ l₃ : List Shape} (h₁ : Below l₁ l₂) (h₂ : Below l₂ l₃) :
    Below l₁ l₃ := by
  induction h₂ with
  | grown owner slots =>
    cases h₁ with
    | grown owner' slots' => exact .grown (owner.trans owner') (Nat.le_trans slots' slots)
    | enter below => exact .enter below
  | enter _ ih => exact .enter (ih h₁)

theorem Below.length_le {l₁ l₂ : List Shape} (h : Below l₁ l₂) : l₁.length ≤ l₂.length := by
  induction h with
  | grown _ _ => exact Nat.le_refl _
  | enter _ ih => exact Nat.le_succ_of_le ih

theorem Shape.Holds.mono {s s' : Shape} {offset : Int} (h : s.Holds offset)
    (owner : s'.owner = s.owner) (slots : s.slots ≤ s'.slots) : s'.Holds offset := by
  unfold Shape.Holds at *
  rw [owner]
  omega

theorem Names.mono {l₁ l₂ : List Shape} {level : Nat} {offset : Int} (h : Names l₁ level offset)
    (below : Below l₁ l₂) : Names l₂ level offset := by
  induction below with
  | grown owner slots =>
    cases h with
    | here holds => exact .here (holds.mono owner slots)
    | outer names => exact .outer names
  | enter _ ih => exact .outer (ih h)

theorem Names.level_lt {shapes : List Shape} {level : Nat} {offset : Int}
    (h : Names shapes level offset) : level < shapes.length := by
  induction h with
  | here _ => exact Nat.lt_succ_self _
  | outer _ ih => exact Nat.lt_succ_of_lt ih

theorem Names.current_or_outer {shapes : Levels Shape} {level : Nat} {offset : Int}
    (h : Names shapes.toList level offset) :
    level = shapes.depth ∧ shapes.current.Holds offset ∨
      level < shapes.depth ∧ Names shapes.outer level offset := by
  cases h with
  | here holds => exact .inl ⟨rfl, holds⟩
  | outer names => exact .inr ⟨names.level_lt, names⟩

/-! ## Charts -/

/-- The sites of a whole program, the point behind it, and its landmarks. -/
structure Chart where
  sites : List Site
  last : Point
  landmarks : List (Nat × Landmark)

namespace Chart

/-- The point at an address. -/
def point? (c : Chart) (a : Nat) : Option Point :=
  if a = c.sites.length then some c.last else c.sites[a]?.bind Site.point?

/-- The instruction at an address. -/
def instr? (c : Chart) (a : Nat) : Option Instr := c.sites[a]?.map Site.instr

/-- The sites stand at an address of the chart, with a point behind them. -/
def Shows (c : Chart) (a : Nat) (q : Point) : List Site → Prop
  | [] => c.point? a = some q
  | s :: rest => c.sites[a]? = some s ∧ c.Shows (a + 1) q rest

/-- What an instruction needs at its point, and the points it leads to. -/
inductive Fits (c : Chart) (a : Nat) : Point → Instr → Prop
  | lit {shapes t v mark} (known : mark = .plain ∨ mark = .known v)
      (next : c.point? (a + 1) = some ⟨shapes, t + 1, mark⟩) :
      Fits c a ⟨shapes, t, .plain⟩ (.lit v)
  | declare {shapes v} (next : c.point? (a + 1) = some ⟨shapes.modify Shape.grow, 0, .plain⟩) :
      Fits c a ⟨shapes, 0, .plain⟩ (.lit v)
  | leave {shapes t v} (next : c.point? (a + 1) = some ⟨shapes, t + 1, .leaving⟩) :
      Fits c a ⟨shapes, t, .leaving⟩ (.lit v)
  | pop {shapes t} (next : c.point? (a + 1) = some ⟨shapes, t, .plain⟩) :
      Fits c a ⟨shapes, t + 1, .plain⟩ .pop
  | load {shapes t level offset} (names : Names shapes.toList level offset)
      (next : c.point? (a + 1) = some ⟨shapes, t + 1, .plain⟩) :
      Fits c a ⟨shapes, t, .plain⟩ (.load level offset)
  /-- After the call of a block its flag lies below the top value. -/
  | loadFlag {shapes mark mark'}
      (known : mark = .plain ∧ mark' = .plain ∨ mark = .passed ∧ mark' = .known 1)
      (next : c.point? (a + 1) = some ⟨shapes, 3, mark'⟩) :
      Fits c a ⟨shapes, 2, mark⟩ (.load shapes.depth shapes.current.slots)
  | store {shapes t level offset} (names : Names shapes.toList level offset)
      (next : c.point? (a + 1) = some ⟨shapes, t, .plain⟩) :
      Fits c a ⟨shapes, t + 1, .plain⟩ (.store level offset)
  /-- The flag of the innermost block is set. -/
  | storeFlag {shapes entry} (owner : shapes.current.owner = .block entry)
      (next : c.point? (a + 1) = some ⟨shapes, 0, .leaving⟩) :
      Fits c a ⟨shapes, 1, .known 1⟩ (.store shapes.depth (-1))
  | jump {shapes t target} (next : c.point? target = some ⟨shapes, t, .plain⟩) :
      Fits c a ⟨shapes, t, .plain⟩ (.jump target)
  | jumpIf {shapes t target} (next : c.point? (a + 1) = some ⟨shapes, t, .plain⟩)
      (jump : c.point? target = some ⟨shapes, t, .plain⟩) :
      Fits c a ⟨shapes, t + 1, .plain⟩ (.jumpIf target)
  /-- The jump is always taken. -/
  | skip {shapes t target} (jump : c.point? target = some ⟨shapes, t, .plain⟩) :
      Fits c a ⟨shapes, t + 1, .known 1⟩ (.jumpIf target)
  | unary {shapes t i} (operator : i = .neg ∨ i = .not)
      (next : c.point? (a + 1) = some ⟨shapes, t + 1, .plain⟩) :
      Fits c a ⟨shapes, t + 1, .plain⟩ i
  | binary {shapes t op} (next : c.point? (a + 1) = some ⟨shapes, t + 1, .plain⟩) :
      Fits c a ⟨shapes, t + 2, .plain⟩ (.binary op)
  | print {shapes t} (next : c.point? (a + 1) = some ⟨shapes, t, .plain⟩) :
      Fits c a ⟨shapes, t + 1, .plain⟩ .print
  /-- The frames around the function are open. -/
  | callFunction {shapes t level entry params outer}
      (landmark : (entry, .function params) ∈ c.landmarks)
      (body : c.point? entry = some ⟨⟨.opened (.function entry params), outer⟩, 0, .plain⟩)
      (depth : outer.length = level + 1) (below : Below outer shapes.toList)
      (next : c.point? (a + 1) = some ⟨shapes, t + 1, .plain⟩) :
      Fits c a ⟨shapes, t + params, .plain⟩ (.call level entry)
  /-- Behind the call of a block stands what happens if a return leaves it. -/
  | callBlock {shapes target} (landmark : (a + 4, .block) ∈ c.landmarks)
      (body : c.point? (a + 4) = some ⟨shapes.enter (.opened (.block (a + 4))), 0, .plain⟩)
      (next : c.point? (a + 1) =
        some ⟨shapes, 2, if inFunction shapes then .plain else .passed⟩)
      (load : c.instr? (a + 1) = some (.load shapes.depth shapes.current.slots))
      (jumpIf : c.instr? (a + 2) = some (.jumpIf target))
      (ret : c.instr? (a + 3) = some (.ret shapes.depth shapes.current.owner.params)) :
      Fits c a ⟨shapes, 1, .known 0⟩ (.call shapes.depth (a + 4))
  | ret {shapes t mark} (left : mark = .leaving ∨ mark = .plain ∧ inFunction shapes = true) :
      Fits c a ⟨shapes, t + 1, mark⟩ (.ret shapes.depth shapes.current.owner.params)

/-- All instructions at an address fit. -/
def Typed (c : Chart) (a : Nat) : List Site → Prop
  | [] => True
  | s :: rest => (∀ p, s.point? = some p → c.Fits a p s.instr) ∧ c.Typed (a + 1) rest

/-- What a name stands for can be used where these frames are open. -/
def Declared (c : Chart) (shapes : Levels Shape) : Decl → Prop
  | .var level offset | .param level offset => Names shapes.toList level offset
  | .func level entry params => (entry, .function params) ∈ c.landmarks ∧
    ∃ outer, c.point? entry = some ⟨⟨.opened (.function entry params), outer⟩, 0, .plain⟩ ∧
      outer.length = level + 1 ∧ Below outer shapes.toList

/-- All names can be used. -/
def Allows (c : Chart) (ctx : Ctx) : Prop :=
  ∀ name decl, ctx.scopes.resolve? name = some decl → c.Declared ctx.shapes decl

variable {c : Chart} {ctx : Ctx} {a t : Nat} {p q : Point} {i : Instr} {s : Site}
  {l r : List Site}

theorem point?_of_site (h : c.sites[a]? = some ⟨i, some p⟩) : c.point? a = some p := by
  have lt : a < c.sites.length := (List.getElem?_eq_some_iff.1 h).1
  simp [point?, Nat.ne_of_lt lt, h]

theorem instr?_of_site (h : c.sites[a]? = some s) : c.instr? a = some s.instr := by
  simp [instr?, h]

theorem Fits.load_next {shapes : Levels Shape} {level : Nat} {offset : Int}
    (h : c.Fits a ⟨shapes, t, .plain⟩ (.load level offset)) :
    c.point? (a + 1) = some ⟨shapes, t + 1, .plain⟩ := by
  cases h with
  | load _ next => exact next
  | loadFlag known next =>
    obtain ⟨-, rfl⟩ | ⟨passed, -⟩ := known
    · exact next
    · cases passed
  | unary operator _ => simp at operator

theorem Fits.jumpIf_next {shapes : Levels Shape} {target : Nat}
    (h : c.Fits a ⟨shapes, t, .plain⟩ (.jumpIf target)) :
    c.point? (a + 1) = some ⟨shapes, t - 1, .plain⟩ := by
  cases h with
  | jumpIf next _ => exact next
  | unary operator _ => simp at operator

theorem Fits.jump_next {target : Nat} (h : c.Fits a p (.jump target)) :
    c.point? target = some p := by
  cases h with
  | jump next => exact next
  | unary operator _ => simp at operator

theorem Shows.left (h : c.Shows a q (l ++ r)) (hp : c.point? (a + l.length) = some p) :
    c.Shows a p l := by
  induction l generalizing a with
  | nil => exact hp
  | cons s l ih => exact ⟨h.1, ih h.2 (by rw [← hp, List.length_cons]; congr 1; omega)⟩

theorem Shows.right (h : c.Shows a q (l ++ r)) : c.Shows (a + l.length) q r := by
  induction l generalizing a with
  | nil => exact h
  | cons s l ih =>
    have := ih h.2
    rwa [Nat.add_right_comm] at this

theorem Shows.next (h : c.Shows a q l) : c.point? (a + l.length) = some q := by
  rw [← List.append_nil l] at h
  exact h.right

theorem typed_append : c.Typed a (l ++ r) ↔ c.Typed a l ∧ c.Typed (a + l.length) r := by
  induction l generalizing a with
  | nil => simp [Typed]
  | cons s l ih =>
    have len : a + (l.length + 1) = a + 1 + l.length := by omega
    simp [Typed, ih, len, and_assoc]

theorem typed_site :
    c.Typed a (ctx.site t i :: r) ↔ c.Fits a (ctx.point t) i ∧ c.Typed (a + 1) r := by
  simp [Typed, Ctx.site]

theorem typed_marked {mark : Mark} :
    c.Typed a (ctx.marked t mark i :: r) ↔
      c.Fits a ⟨ctx.shapes, t, mark⟩ i ∧ c.Typed (a + 1) r := by
  simp [Typed, Ctx.marked]

theorem Declared.mono {shapes shapes' : Levels Shape} {decl : Decl} (h : c.Declared shapes decl)
    (below : Below shapes.toList shapes'.toList) : c.Declared shapes' decl := by
  cases decl with
  | var level offset => exact Names.mono h below
  | param level offset => exact Names.mono h below
  | func level entry params =>
    obtain ⟨landmark, outer, body, depth, below'⟩ := h
    exact ⟨landmark, outer, body, depth, below'.trans below⟩

/-! ## Names in scope -/

theorem Allows.enterBlock (h : c.Allows ctx) (entry : Nat) : c.Allows (ctx.enterBlock entry) :=
  fun name decl resolved => (h name decl resolved).mono (.enter (.refl _))

theorem Allows.declare {shapes : Levels Shape} {scopes : Scopes Decl} {name : String} {decl : Decl}
    (h : c.Allows ⟨scopes, shapes⟩) (declared : c.Declared shapes decl) :
    c.Allows ⟨scopes.declare name decl, shapes⟩ := by
  intro other decl' resolved
  simp only [Scopes.resolve?_declare] at resolved
  split at resolved
  · cases resolved
    exact declared
  · exact h other decl' resolved

theorem Allows.declareVar (h : c.Allows ctx) (name : String)
    (header : ctx.shapes.current.owner.header ≤ ctx.slots) : c.Allows (ctx.declareVar name) := by
  refine Allows.declare (fun name decl resolved => (h name decl resolved).mono ?_) ?_
  · exact .grown rfl (Nat.le_succ _)
  · refine Names.here (.inl ⟨?_, ?_⟩)
    · exact Int.ofNat_le.2 header
    · exact Int.ofNat_lt.2 (Nat.lt_succ_self _)

theorem Allows.declareParams {shapes : Levels Shape} {level : Nat} (names : List String)
    {scopes : Scopes Decl} (h : c.Allows ⟨scopes, shapes⟩)
    (params : ∀ k < names.length, c.Declared shapes (.param level (-(k + 1 : Nat)))) :
    c.Allows ⟨Scopes.declareParams level names scopes, shapes⟩ := by
  induction names generalizing scopes with
  | nil => exact h
  | cons name names ih =>
    refine ih (h.declare (params _ (Nat.lt_succ_self _))) fun k hk => ?_
    exact params k (Nat.lt_succ_of_lt hk)

theorem Allows.enterFunc (h : c.Allows ctx) (entry : Nat) (names : List String) :
    c.Allows (ctx.enterFunc entry names) := by
  refine Allows.declareParams names (fun name decl resolved => ?_) fun k hk => ?_
  · exact (h name decl resolved).mono (.enter (.refl _))
  · refine Names.here (.inr ⟨?_, ?_⟩)
    · change -((names.length : Nat) : Int) ≤ _
      omega
    · omega

theorem Allows.names {name : String} {decl : Decl} {level : Nat} {offset : Int} (h : c.Allows ctx)
    (resolved : ctx.scopes.resolve? name = some decl)
    (slot : decl.slot? = some (level, offset)) : Names ctx.shapes.toList level offset := by
  have declared := h name decl resolved
  cases decl with
  | var level' offset' | param level' offset' =>
    cases slot
    exact declared
  | func _ _ _ => cases slot

end Chart

/-! ## Lengths and landmarks of parts -/

/-- The number of instructions of a part. -/
def Part.codeLength : Part → Nat
  | .stmt s => s.codeLength
  | .stmts body => Stmt.codeLengthAll body
  | .otherwise alternative => alternative.codeLength
  | .passes first test after body =>
    first.codeLength + test.codeLength + 2 + blockLength (Stmt.codeLengthAll body) +
      after.codeLength + 1
  | .block content => blockLength content.codeLength

/-- The landmarks of a part at an address. -/
def Part.landmarks : Part → Surrounding → Nat → List (Nat × Landmark)
  | .stmt s, r, a => s.landmarks r a
  | .stmts body, r, a => Stmt.landmarksAll r a body
  | .otherwise alternative, r, a => alternative.landmarks r a
  | .passes first test after body, r, a =>
    first.landmarks r a ++
      (blockLandmarks r (a + first.codeLength + test.codeLength + 2) (Stmt.codeLengthAll body)
          (fun r a => Stmt.landmarksAll r a body) ++
        after.landmarks r (a + first.codeLength + test.codeLength + 2 +
          blockLength (Stmt.codeLengthAll body)))
  | .block content, r, a => blockLandmarks r a content.codeLength fun r a => content.landmarks r a

mutual

theorem Expr.Emits.length_eq {ctx : Ctx} {t : Nat} {e : Expr} {sites : List Site} :
    Expr.Emits ctx t e sites → sites.length = e.codeLength
  | .int | .bool | .var _ _ | .post _ => rfl
  | .call _ operands => by
    simp [Expr.codeLength, operands.length_eq]
  | @Expr.Emits.unary _ _ op _ _ operand => by
    cases op <;> simp [Expr.codeLength, UnaryOp.codeLength, UnaryOp.instrs, operand.length_eq]
  | .binary left right => by
    simp [Expr.codeLength, left.length_eq, right.length_eq, Nat.add_assoc]

theorem Expr.EmitsAll.length_eq {ctx : Ctx} {t : Nat} {es : List Expr} {sites : List Site} :
    Expr.EmitsAll ctx t es sites → sites.length = Expr.codeLengthAll es
  | .nil => rfl
  | .cons head tail => by
    simp [Expr.codeLengthAll, head.length_eq, tail.length_eq]

end

/-- **The length of code** is told by the part alone. -/
theorem Part.Emits.length_eq {ctx ctx' : Ctx} {a : Nat} {part : Part} {sites : List Site}
    (h : Part.Emits ctx a part sites ctx') : sites.length = part.codeLength := by
  induction h with
  | nil => rfl
  | empty => rfl
  | noElse => rfl
  | ret => rfl
  | cons _ _ ih₁ ih₂ =>
    rw [List.length_append, ih₁, ih₂]
    rfl
  | declare value =>
    simp [Part.codeLength, Stmt.codeLength, value.length_eq]
  | assign _ _ value =>
    simp [Part.codeLength, Stmt.codeLength, value.length_eq]
  | function _ ih =>
    simp [Part.codeLength, Stmt.codeLength, ih]
  | retValue value =>
    simp [Part.codeLength, Stmt.codeLength, value.length_eq]
  | cond condition _ _ ih₁ ih₂ =>
    simp only [List.length_append, List.length_cons, ih₁, ih₂, condition.length_eq,
      Part.codeLength, Stmt.codeLength]
    omega
  | loop _ ih => exact ih
  | blockStmt _ ih => exact ih
  | elseBlock _ ih => exact ih
  | elseCond _ ih => exact ih
  | expr value =>
    simp [Part.codeLength, Stmt.codeLength, value.length_eq]
  | passes _ condition _ _ ih₁ ih₂ ih₃ =>
    simp only [List.length_append, List.length_cons, List.length_nil, ih₁, ih₂, ih₃,
      condition.length_eq, Part.codeLength]
    omega
  | block _ ih =>
    simp [Part.codeLength, blockLength, Ctx.openSites, Ctx.closeSites, ih]
    omega

/-! ## Where code starts -/

section Start

variable {c : Chart} {ctx : Ctx}

mutual

theorem Expr.Emits.start {t : Nat} {e : Expr} {sites : List Site} :
    Expr.Emits ctx t e sites → ∃ i rest, sites = ctx.site t i :: rest
  | .int | .bool | .var _ _ | .post _ => ⟨_, _, rfl⟩
  | .call _ operands => by
    obtain ⟨rfl, hargs⟩ | ⟨i, rest, rfl⟩ := operands.start
    · exact ⟨_, _, by rw [hargs]; rfl⟩
    · exact ⟨_, _, rfl⟩
  | .unary operand => by
    obtain ⟨i, rest, rfl⟩ := operand.start
    exact ⟨_, _, rfl⟩
  | .binary left _ => by
    obtain ⟨i, rest, rfl⟩ := left.start
    exact ⟨_, _, rfl⟩

theorem Expr.EmitsAll.start {t : Nat} {es : List Expr} {sites : List Site} :
    Expr.EmitsAll ctx t es sites →
      sites = [] ∧ es.length = 0 ∨ ∃ i rest, sites = ctx.site t i :: rest
  | .nil => .inl ⟨rfl, rfl⟩
  | .cons head _ => by
    obtain ⟨i, rest, rfl⟩ := head.start
    exact .inr ⟨_, _, rfl⟩

end

theorem Part.Emits.start {ctx' : Ctx} {a : Nat} {part : Part} {sites : List Site}
    (h : Part.Emits ctx a part sites ctx') :
    sites = [] ∧ ctx' = ctx ∨ ∃ i rest, sites = ctx.site 0 i :: rest := by
  induction h with
  | nil => exact .inl ⟨rfl, rfl⟩
  | empty => exact .inl ⟨rfl, rfl⟩
  | noElse => exact .inl ⟨rfl, rfl⟩
  | cons _ _ ih₁ ih₂ =>
    obtain ⟨rfl, rfl⟩ | ⟨i, rest, rfl⟩ := ih₁
    · exact ih₂
    · exact .inr ⟨_, _, rfl⟩
  | assign _ _ value =>
    obtain ⟨i, rest, rfl⟩ := value.start
    exact .inr ⟨_, _, rfl⟩
  | retValue value =>
    obtain ⟨i, rest, rfl⟩ := value.start
    exact .inr ⟨_, _, rfl⟩
  | expr value =>
    obtain ⟨i, rest, rfl⟩ := value.start
    exact .inr ⟨_, _, rfl⟩
  | cond condition _ _ _ _ =>
    obtain ⟨i, rest, rfl⟩ := condition.start
    exact .inr ⟨_, _, rfl⟩
  | passes _ condition _ _ ih _ _ =>
    obtain ⟨rfl, rfl⟩ | ⟨i, rest, rfl⟩ := ih
    · obtain ⟨i, rest, rfl⟩ := condition.start
      exact .inr ⟨_, _, rfl⟩
    · exact .inr ⟨_, _, rfl⟩
  | loop _ ih => exact ih
  | blockStmt _ ih => exact ih
  | elseBlock _ ih => exact ih
  | elseCond _ ih => exact ih
  | _ => exact .inr ⟨_, _, rfl⟩

theorem Expr.Emits.point {t a : Nat} {e : Expr} {q : Point} {sites rest : List Site}
    (h : Expr.Emits ctx t e sites) (shows : c.Shows a q (sites ++ rest)) :
    c.point? a = some (ctx.point t) := by
  obtain ⟨i, rest, rfl⟩ := h.start
  exact Chart.point?_of_site shows.1

theorem Expr.EmitsAll.point {t a : Nat} {es : List Expr} {q : Point} {sites rest : List Site}
    (h : Expr.EmitsAll ctx t es sites) (shows : c.Shows a q (sites ++ rest))
    (next : c.point? (a + sites.length) = some (ctx.point (t + es.length))) :
    c.point? a = some (ctx.point t) := by
  obtain ⟨rfl, hes⟩ | ⟨i, rest, rfl⟩ := h.start
  · rw [hes] at next
    exact next
  · exact Chart.point?_of_site shows.1

theorem Part.Emits.point {ctx' : Ctx} {a : Nat} {part : Part} {q : Point} {sites rest : List Site}
    (h : Part.Emits ctx a part sites ctx') (shows : c.Shows a q (sites ++ rest))
    (next : c.point? (a + sites.length) = some (ctx'.point 0)) :
    c.point? a = some (ctx.point 0) := by
  obtain ⟨rfl, rfl⟩ | ⟨i, rest, rfl⟩ := h.start
  · exact next
  · exact Chart.point?_of_site shows.1

end Start

end NestLang
