import NestLang.Proofs.Blocks

/-!
# Code of statements

The machine follows the evaluation of statements. A statement ends behind its code in the same
frame, or its frame has returned a value.

* `Stands.declare`, `Stands.declareFunc`: declarations.
* `Stands.follows_stmt`, `Stands.follows_stmts`, `Stands.follows_branch`, `Stands.follows_loop`:
  **the code of statements.**
* `Chart.Loaded.simulates`: **the machine follows every evaluation.**
-/

namespace NestLang

variable {c : Chart} {size n fuel : Nat} {ctx ctx' : Ctx} {link : Link} {env env' : Env}
  {φ φ' : Places} {mem mem' : Memory} {s s' s₁ : State (Array Value)} {a b pc : Nat} {v : Value}
  {sites : List Site} {flow : Flow}

/-! ## Parts of parts -/

theorem Part.Emits.depth {part : Part} (h : Part.Emits ctx a part sites ctx') :
    ctx'.scopes.depth = ctx.scopes.depth :=
  congrArg List.length h.outer.1

theorem Part.Emits.params {part : Part} (h : Part.Emits ctx a part sites ctx') :
    ctx'.params = ctx.params := by
  rw [Ctx.params, h.outer.2.2.1]
  rfl

namespace Chart

theorem Carries.cons {st : Stmt} {rest : List Stmt}
    (h : c.Carries size ctx a (.stmts (st :: rest)) sites ctx') : ∃ sites₁ ctx₁ sites₂,
      sites.length = sites₁.length + sites₂.length ∧
      c.Carries size ctx a (.stmt st) sites₁ ctx₁ ∧
      c.Carries size ctx₁ (a + sites₁.length) (.stmts rest) sites₂ ctx' := by
  obtain ⟨emits, sits, returns, late, small, level, depth⟩ := h
  simp only [Part.returnsInside, Stmt.returnsInsideAll, Part.noLateDeclare, Stmt.noLateDeclareAll,
    Bool.and_eq_true, Part.weight, List.cons.sizeOf_spec] at returns late small
  cases emits with
  | @cons _ _ _ _ sites₁ ctx₁ sites₂ _ head tail =>
    obtain ⟨sits₁, sits₂⟩ := sits_append.1 sits
    refine ⟨sites₁, ctx₁, sites₂, List.length_append, ⟨head, sits₁, returns.1, late.1, ?_, level,
      depth⟩, ⟨tail, sits₂, head.inFunction_eq ▸ returns.2, late.2, ?_, ?_, ?_⟩⟩
    · simp only [Part.weight]
      omega
    · simp only [Part.weight]
      omega
    · rw [head.level]
      omega
    · rw [head.depth, head.level, depth]

theorem Carries.blockStmt {body : List Stmt}
    (h : c.Carries size ctx a (.stmt (.block body)) sites ctx') :
    ctx' = ctx ∧ c.Carries size ctx a (.block (.stmts body)) sites ctx := by
  obtain ⟨emits, sits, returns, late, small, level, depth⟩ := h
  simp only [Part.weight, Stmt.block.sizeOf_spec] at small
  cases emits with
  | blockStmt content =>
    refine ⟨rfl, content, sits, returns, late, ?_, level, depth⟩
    simp only [Part.weight]
    omega

theorem Carries.elseBlock {body : List Stmt}
    (h : c.Carries size ctx a (.otherwise (.block body)) sites ctx) :
    c.Carries size ctx a (.block (.stmts body)) sites ctx := by
  obtain ⟨emits, sits, returns, late, small, level, depth⟩ := h
  simp only [Part.weight, Else.block.sizeOf_spec] at small
  cases emits with
  | elseBlock content =>
    refine ⟨content, sits, returns, late, ?_, level, depth⟩
    simp only [Part.weight]
    omega

theorem Carries.elseCond {test : Expr} {body : List Stmt} {alternative : Else}
    (h : c.Carries size ctx a (.otherwise (.cond test body alternative)) sites ctx) :
    c.Carries size ctx a (.stmt (.cond test body alternative)) sites ctx := by
  obtain ⟨emits, sits, returns, late, small, level, depth⟩ := h
  cases emits with
  | elseCond content => exact ⟨content, sits, returns, late, small, level, depth⟩

theorem Carries.cond {test : Expr} {body : List Stmt} {alternative : Else}
    (h : c.Carries size ctx a (.stmt (.cond test body alternative)) sites ctx') :
    ctx' = ctx ∧ ∃ sites₁ sites₂ sites₃, Expr.Emits ctx 0 test sites₁ ∧ c.Sits a sites₁ ∧
      c.instr? (a + sites₁.length) = some .not ∧
      c.instr? (a + sites₁.length + 1) =
        some (.jumpIf (a + sites₁.length + 2 + sites₂.length + 1)) ∧
      c.Carries size ctx (a + sites₁.length + 2) (.block (.stmts body)) sites₂ ctx ∧
      c.instr? (a + sites₁.length + 2 + sites₂.length) = some (.jump (a + sites.length)) ∧
      c.Carries size ctx (a + sites₁.length + 2 + sites₂.length + 1) (.otherwise alternative)
        sites₃ ctx ∧
      sites.length = sites₁.length + 2 + sites₂.length + 1 + sites₃.length := by
  obtain ⟨emits, sits, returns, late, small, level, depth⟩ := h
  simp only [Part.returnsInside, Stmt.returnsInside, Part.noLateDeclare, Stmt.noLateDeclare,
    Bool.and_eq_true, Part.weight, Stmt.cond.sizeOf_spec] at returns late small
  cases emits with
  | @cond _ _ _ _ _ sites₁ sites₂ sites₃ condition branch other =>
    obtain ⟨sits₁, negate, test, sits⟩ := sits_append.1 sits
    obtain ⟨sits₂, jump, sits₃⟩ := sits_append.1 sits
    have length : (sites₁ ++ ctx.site 1 .not ::
        ctx.site 1 (.jumpIf (a + sites₁.length + 2 + sites₂.length + 1)) ::
        (sites₂ ++ ctx.site 0 (.jump
          (a + sites₁.length + 2 + sites₂.length + 1 + sites₃.length)) :: sites₃)).length =
        sites₁.length + 2 + sites₂.length + 1 + sites₃.length := by
      simp only [List.length_append, List.length_cons]
      omega
    refine ⟨rfl, sites₁, sites₂, sites₃, condition, sits₁, instr?_of_site negate,
      instr?_of_site test, ⟨branch, sits₂, returns.1, late.1, ?_, ?_, depth⟩, ?_,
      ⟨other, sits₃, returns.2, late.2, ?_, ?_, depth⟩, length⟩
    · simp only [Part.weight]
      omega
    · omega
    · rw [instr?_of_site jump, length]
      simp only [Ctx.site, Nat.add_assoc]
    · simp only [Part.weight]
      omega
    · omega

theorem Carries.loop {first after : Stmt} {test : Expr} {body : List Stmt}
    (h : c.Carries size ctx a (.stmt (.loop first test after body)) sites ctx') :
    ctx' = ctx ∧ c.Carries size ctx a (.block (.passes first test after body)) sites ctx := by
  obtain ⟨emits, sits, returns, late, small, level, depth⟩ := h
  simp only [Part.weight, Stmt.loop.sizeOf_spec] at small
  cases emits with
  | loop frame =>
    refine ⟨rfl, frame, sits, returns, late, ?_, level, depth⟩
    simp only [Part.weight]
    omega

theorem Carries.passes {first after : Stmt} {test : Expr} {body : List Stmt}
    (h : c.Carries size ctx a (.passes first test after body) sites ctx') : ∃ sites₁ ctx₁,
      c.Carries size ctx a (.stmt first) sites₁ ctx₁ ∧
      c.Passes size ctx₁ (a + sites₁.length) test after body (a + sites.length) := by
  obtain ⟨emits, sits, returns, late, small, level, depth⟩ := h
  simp only [Part.returnsInside, Part.noLateDeclare, Bool.and_eq_true, Part.weight]
    at returns late small
  cases emits with
  | @passes _ _ _ _ _ _ sites₁ ctx₁ sites₂ sites₃ sites₄ _ header condition pass update =>
    obtain ⟨sits₁, sits⟩ := sits_append.1 sits
    obtain ⟨sits₂, negate, test, sits⟩ := sits_append.1 sits
    obtain ⟨sits₃, sits⟩ := sits_append.1 sits
    obtain ⟨sits₄, jump, -⟩ := sits_append.1 sits
    simp only [List.length_append, List.length_cons, List.length_nil]
    have level₁ : ctx₁.level ≤ a := header.level ▸ level
    have depth₁ : ctx₁.scopes.depth = ctx₁.level := by rw [header.depth, header.level, depth]
    rw [← header.inFunction_eq] at returns
    refine ⟨sites₁, ctx₁, ⟨header, sits₁, header.inFunction_eq ▸ returns.1.1, late.1.1.1, ?_, level,
      depth⟩, ⟨sites₂, sites₃, sites₄, ctx', condition, sits₂, instr?_of_site negate, ?_,
      ⟨pass, sits₃, returns.2, late.2, ?_, ?_, depth₁⟩,
      ⟨update, sits₄, returns.1.2, late.1.1.2, ?_, ?_, depth₁⟩,
      update.shapes_eq (by simpa using late.1.2), instr?_of_site jump⟩, ?_⟩
    · simp only [Part.weight]
      omega
    · rw [instr?_of_site test]
      simp only [Ctx.site, Option.some.injEq, Instr.jumpIf.injEq]
      omega
    · simp only [Part.weight]
      omega
    · omega
    · simp only [Part.weight]
      omega
    · omega
    · omega

end Chart

/-! ## Small pieces of code -/

theorem Yields.store {scopes : Scopes Decl} {level i : Nat} {offset : Int}
    (h : Knows c size scopes env φ mem s) (reach : c.Reach s s')
    (yields : Yields φ s a [v] mem' s') (instr : c.instr? a = some (.store level offset))
    (place : φ i = some b) (address : (s.display.base level : Int) + offset = b) :
    ∃ s'', c.Reach s' s'' ∧
      Yields φ s (a + 1) [] ⟨mem'.cells.setIfInBounds i v, mem'.output⟩ s'' := by
  have known := h.yields reach yields
  obtain ⟨stack, display, rfl, none⟩ := Yields.pop (l := []) yields
  have bound : (stack.push v).size < addressBound := known.bounded.size
  have inside : b < stack.size := none.size ▸ h.models.lt_size place
  rw [Array.size_push] at bound
  rw [← none.display] at address
  exact ⟨_, .one instr (advance_store (known.base_lt level) (by omega) address inside),
    none.write h.models place v⟩

theorem Yields.test {target : Nat} (yields : Yields φ s a [v] mem' s')
    (negate : c.instr? a = some .not) (jump : c.instr? (a + 1) = some (.jumpIf target)) :
    ∃ s'', c.Reach s' s'' ∧ Yields φ s (if v = 0 then target else a + 2) [] mem' s'' := by
  obtain ⟨stack, display, rfl, none⟩ := Yields.pop (l := []) yields
  refine ⟨_, .step negate (advance_not v) (.one jump (advance_jumpIf target _)), ?_⟩
  have negated : (if Value.ofBool (v = 0) = 0 then a + 1 + 1 else target) =
      if v = 0 then target else a + 2 := by
    by_cases zero : v = 0
    · simp [Value.ofBool, zero]
    · simp [Value.ofBool, zero]
  rw [negated]
  exact none.goto _

theorem Ends.jump (h : Ends c size ctx ctx' link φ s a flow mem' s')
    (instr : c.instr? a = some (.jump b)) :
    ∃ s'', c.Reach s' s'' ∧ Ends c size ctx ctx' link φ s b flow mem' s'' := by
  cases flow with
  | returned v => exact ⟨s', .refl, h⟩
  | next env' =>
    obtain ⟨φ', h⟩ := h
    obtain ⟨pc, stack, display, output⟩ := s'
    obtain rfl : pc = a := h.pc
    have reach : c.Reach ⟨pc, stack, display, output⟩ ⟨b, stack, display, output⟩ :=
      .one instr (advance_jump b)
    exact ⟨_, reach, φ', h.goto reach⟩

theorem Stands.declare (h : Stands c size ctx link env φ mem s) (name : String)
    (depth : ctx.scopes.depth = ctx.level) (instr : c.instr? s.pc = some (.lit 0)) :
    ∃ φ₁ s₁, c.Reach s s₁ ∧ φ₁ mem.cells.size = some s.stack.size ∧
      Continued c size (ctx.declareVar name) link φ φ₁ s (s.pc + 1)
        ((name, .cell mem.cells.size) :: env) ⟨mem.cells.push 0, mem.output⟩ s₁ := by
  obtain ⟨pc, stack, display, output⟩ := s
  obtain rfl : output = mem.output := h.output
  have reach : c.Reach ⟨pc, stack, display, mem.output⟩
    ⟨pc + 1, stack.push 0, display, mem.output⟩ := .one instr (advance_lit 0)
  have yields : Yields φ _ (pc + 1) [0] mem ⟨pc + 1, stack.push 0, display, mem.output⟩ :=
    (Yields.nil h.toKnows).push 0
  have known := h.toKnows.yields reach yields
  have ext := known.models.extends_set (Nat.le_refl stack.size)
  have place : φ.set mem.cells.size stack.size mem.cells.size = some stack.size := if_pos rfl
  have height : stack.size = display.base ctx.level + ctx.slots := h.height
  have address : (display.base ctx.level : Int) + (ctx.slots : Nat) = stack.size := by omega
  have models := known.models.allocate (h.models.free (Nat.le_refl _)) Array.getElem?_push_size
  refine ⟨_, _, reach, place, ⟨⟨?_, models, rfl, known.bases, known.bounded⟩, ?_, fun inside => ?_⟩,
    rfl, ext, ?_, ⟨fun place _ => (models.restrict ext).holds place, yields.kept.frame⟩, rfl⟩
  · exact .cell (h.binds.mono ext.old) rfl (Nat.le_of_eq depth.symm) place address
  · rw [Array.size_push, height]
    rfl
  · have lt := (h.header inside).lt_size
    exact ((h.header inside).kept yields.kept lt).extends ext lt
  · rw [Array.size_push]
    exact Nat.le_succ _

theorem Stands.declareFunc {name : String} {params : List String} {body : List Stmt}
    (h : Stands c size ctx link env φ mem s)
    (carries : c.Carries size ctx s.pc (.stmt (.function name params body)) sites ctx') :
    ∃ s', c.Reach s s' ∧ Continued c size ctx' link φ φ s (s.pc + sites.length)
      ((name, .func params body) :: env) mem s' := by
  obtain ⟨emits, sits, returns, late, small, level, depth⟩ := carries
  simp only [Part.weight, Stmt.function.sizeOf_spec] at small
  obtain ⟨pc, stack, display, output⟩ := s
  cases emits with
  | @function _ _ _ _ _ sites inner content =>
    obtain ⟨jump, sits⟩ := sits
    obtain ⟨sits, tail⟩ := Chart.sits_append.1 sits
    have declared : (⟨ctx.scopes.declare name (.func ctx.scopes.depth (pc + 1) params.length),
        ctx.shapes⟩ : Ctx) = ctx.declareFunc name (pc + 1) params.length := by
      rw [depth]
      rfl
    have placed : c.Placed size
        (ctx.scopes.declare name (.func ctx.scopes.depth (pc + 1) params.length)) (pc + 1) params
        body := by
      refine ⟨ctx.shapes, sites, inner, ?_, ?_⟩
      · rw [declared]
        refine ⟨content, sits, returns, late, ?_, Nat.succ_le_succ level, ?_⟩
        · simp only [Part.weight]
          omega
        · rw [Ctx.enterFunc, Scopes.depth_declareParams]
          exact congrArg Nat.succ depth
      · have same : (ctx.scopes.declare name
            (.func ctx.scopes.depth (pc + 1) params.length)).depth = ctx.level := depth
        rw [same]
        exact tail
    have binds : Binds c size φ display.base (ctx.declareFunc name (pc + 1) params.length).scopes
        ((name, .func params body) :: env) := by
      rw [← declared]
      exact .func h.binds placed
    have address : pc + 1 + sites.length + 2 = pc + (ctx.site 0 (.jump (pc + 1 + sites.length + 2))
        :: (sites ++ [inner.site 0 (.lit 0),
          inner.site 1 (.ret (ctx.level + 1) params.length)])).length := by
      simp only [List.length_append, List.length_cons, List.length_nil]
      omega
    have reach : c.Reach ⟨pc, stack, display, output⟩
        ⟨pc + 1 + sites.length + 2, stack, display, output⟩ :=
      .one (Chart.instr?_of_site jump) (advance_jump _)
    exact ⟨_, reach, ⟨⟨binds, h.models, h.output, h.bases, h.bounded.reach reach⟩, h.height,
      h.header⟩, address, .refl, Nat.le_refl _, h.models.kept _, rfl⟩

/-! ## Statements -/

section Follows

variable (loaded : c.Loaded) (ih : c.Simulates size fuel)

include ih in
theorem Stands.follows_declare {name : String} {value : Expr}
    (h : Stands c size ctx link env φ mem s)
    (carries : c.Carries size ctx s.pc (.stmt (.declare name value)) sites ctx')
    (enough : Enough (3 * sizeOf (Stmt.declare name value) + 1) size n (fuel + 1)) :
    c.Follows n s (Ends c size ctx ctx' link φ s (s.pc + sites.length))
      ((Stmt.declare name value).eval (fuel + 1) env mem) := by
  obtain ⟨emits, sits, -, -, -, -, depth⟩ := carries
  cases emits with
  | @declare _ _ _ _ sites value' =>
    obtain ⟨lit, sits⟩ := sits
    obtain ⟨sits, store, -⟩ := Chart.sits_append.1 sits
    obtain ⟨φ₁, s₁, reach₁, place, cont⟩ := h.declare name depth (Chart.instr?_of_site lit)
    rw [← cont.pc] at sits store
    rw [Stmt.declare.sizeOf_spec] at enough
    rw [Stmt.eval, bind_run]
    refine Chart.Follows.reach reach₁ (Chart.Follows.bind
      (ih.expr value' sits cont.toKnows (enough.less (by omega))) ?_)
    intro v mem₂ s₂ reach₂ yields
    have address : (s₁.display.base ctx.level : Int) + (ctx.slots : Nat) = s.stack.size := by
      rw [cont.display, h.height]
      rfl
    obtain ⟨s₃, reach₃, written⟩ := Yields.store cont.toKnows reach₂ yields
      (Chart.instr?_of_site store) place address
    have last := cont.toStands.continued (reach₂.trans reach₃) written
    have behind : s₁.pc + sites.length + 1 = s.pc + (ctx.site 0 (.lit 0) :: (sites ++
        [(ctx.declareVar name).site 1 (.store ctx.level ctx.slots)])).length := by
      simp only [cont.pc, List.length_append, List.length_cons, List.length_nil]
      omega
    rw [behind] at last
    exact ⟨s₃, reach₃, cont.ends ⟨φ₁, last⟩ rfl rfl rfl (h.bases _)⟩

include ih in
theorem Stands.follows_assign {name : String} {value : Expr}
    (h : Stands c size ctx link env φ mem s)
    (carries : c.Carries size ctx s.pc (.stmt (.assign name value)) sites ctx')
    (enough : Enough (3 * sizeOf (Stmt.assign name value) + 1) size n (fuel + 1)) :
    c.Follows n s (Ends c size ctx ctx' link φ s (s.pc + sites.length))
      ((Stmt.assign name value).eval (fuel + 1) env mem) := by
  obtain ⟨emits, sits, -, -, -, -, -⟩ := carries
  cases emits with
  | @assign _ _ _ _ _ level offset sites resolved slot value' =>
    obtain ⟨sits, store, -⟩ := Chart.sits_append.1 sits
    obtain ⟨i, b, cell, place, address⟩ := h.binds.cellOf resolved slot
    rw [Stmt.assign.sizeOf_spec] at enough
    rw [Stmt.eval, cell]
    refine (ih.expr value' sits h.toKnows (enough.less (by omega))).bind ?_
    intro v mem₁ s₁ reach₁ yields
    obtain ⟨s₂, reach₂, written⟩ := yields.store h.toKnows reach₁ (Chart.instr?_of_site store) place
      address
    have last := h.continued (reach₁.trans reach₂) written
    rw [Nat.add_assoc] at last
    rw [List.length_append]
    exact ⟨s₂, reach₂, φ, last⟩

include ih in
theorem Stands.follows_expr {value : Expr} (h : Stands c size ctx link env φ mem s)
    (carries : c.Carries size ctx s.pc (.stmt (.expr value)) sites ctx')
    (enough : Enough (3 * sizeOf (Stmt.expr value) + 1) size n (fuel + 1)) :
    c.Follows n s (Ends c size ctx ctx' link φ s (s.pc + sites.length))
      ((Stmt.expr value).eval (fuel + 1) env mem) := by
  obtain ⟨emits, sits, -, -, -, -, -⟩ := carries
  cases emits with
  | @expr _ _ _ sites value' =>
    obtain ⟨sits, pop, -⟩ := Chart.sits_append.1 sits
    rw [Stmt.expr.sizeOf_spec] at enough
    rw [Stmt.eval]
    refine (ih.expr value' sits h.toKnows (enough.less (by omega))).bind ?_
    intro v mem₁ s₁ reach₁ yields
    obtain ⟨stack, display, rfl, none⟩ := Yields.pop (l := []) yields
    have reach₂ : c.Reach ⟨s.pc + sites.length, stack.push v, display, mem₁.output⟩
        ⟨s.pc + (sites.length + 1), stack, display, mem₁.output⟩ :=
      .one (Chart.instr?_of_site pop) (advance_pop v)
    have last := h.continued (reach₁.trans reach₂) (none.goto _)
    rw [List.length_append]
    exact ⟨_, reach₂, φ, last⟩

theorem Stands.follows_ret (h : Stands c size ctx link env φ mem s)
    (inside : inFunction ctx.shapes = true) (yields : Yields φ s a [v] mem' s')
    (ret : c.instr? a = some (.ret ctx.level ctx.params)) :
    c.Follows n s' (Ends c size ctx ctx' link φ s b)
      (.ok (.returned v) mem' : EStateM.Result Stop Memory Flow) := by
  obtain ⟨stack, display, rfl, none⟩ := Yields.pop (l := []) yields
  have header := h.header inside
  obtain ⟨s'', reach, returned⟩ := (header.kept none.kept header.lt_size).returns ret
    (none.kept.mono (Nat.le_trans (Nat.sub_le _ _) (h.bases _))) none.display v
  exact ⟨s'', reach, inside, returned⟩

include ih in
theorem Stands.follows_return {value : Option Expr} (h : Stands c size ctx link env φ mem s)
    (carries : c.Carries size ctx s.pc (.stmt (.ret value)) sites ctx')
    (enough : Enough (3 * sizeOf (Stmt.ret value) + 1) size n (fuel + 1)) :
    c.Follows n s (Ends c size ctx ctx' link φ s (s.pc + sites.length))
      ((Stmt.ret value).eval (fuel + 1) env mem) := by
  obtain ⟨emits, sits, returns, -, -, -, -⟩ := carries
  cases emits with
  | ret =>
    obtain ⟨lit, ret, -⟩ := sits
    obtain ⟨pc, stack, display, output⟩ := s
    obtain rfl : output = mem.output := h.output
    rw [Stmt.eval]
    exact Chart.Follows.reach (.one (Chart.instr?_of_site lit) (advance_lit 0))
      (h.follows_ret returns ((Yields.nil h.toKnows).push 0) (Chart.instr?_of_site ret))
  | retValue value' =>
    obtain ⟨sits, ret, -⟩ := Chart.sits_append.1 sits
    rw [Stmt.ret.sizeOf_spec, Option.some.sizeOf_spec] at enough
    rw [Stmt.eval]
    refine (ih.expr value' sits h.toKnows (enough.less (by omega))).bind ?_
    intro v mem₁ s₁ _ yields
    exact h.follows_ret returns yields (Chart.instr?_of_site ret)

theorem Stmt.evalBlock_succ (env : Env) (body : List Stmt) :
    Stmt.evalBlock (fuel + 1) env body =
      (Stmt.evalAll fuel env body >>= fun flow => pure (flow.close env)) := by
  rw [Stmt.evalBlock]
  congr
  funext flow
  cases flow <;> rfl

/-- The first statement and the passes of a loop. -/
def Stmt.evalPasses (fuel : Nat) (env : Env) (first : Stmt) (test : Expr) (after : Stmt)
    (body : List Stmt) : EvalM Flow := do
  match ← first.eval fuel env with
  | .returned v => return .returned v
  | .next inner => return (← Stmt.evalLoop fuel inner test after body).elim (.next inner) .returned

theorem Stmt.eval_loop (env : Env) (first : Stmt) (test : Expr) (after : Stmt) (body : List Stmt) :
    (Stmt.loop first test after body).eval (fuel + 1) env =
      (Stmt.evalPasses fuel env first test after body >>= fun flow => pure (flow.close env)) := by
  rw [Stmt.eval, Stmt.evalPasses, bind_assoc]
  congr
  funext flow
  cases flow with
  | returned v => rfl
  | next inner =>
    simp only [bind_assoc]
    congr
    funext r
    cases r <;> rfl

include loaded ih in
/-- **The code of a block.** -/
theorem Stands.follows_evalBlock {body : List Stmt} (h : Stands c size ctx link env φ mem s)
    (carries : c.Carries size ctx s.pc (.block (.stmts body)) sites ctx)
    (enough : Enough (3 * sizeOf body + 2) size n (fuel + 1)) :
    c.Follows n s (Ends c size ctx ctx link φ s (s.pc + sites.length))
      (Stmt.evalBlock (fuel + 1) env body mem) := by
  rw [Stmt.evalBlock_succ]
  refine h.follows_block loaded carries fun {_ inner _ _} content stands => ?_
  exact (ih.stmts content stands (enough.less (Nat.lt_succ_self _))).mono
    fun _ _ _ ends => ⟨inner, ends⟩

include ih in
/-- **The code of a branch.** -/
theorem Stands.follows_branch {test : Expr} {body : List Stmt} {alternative : Else}
    (h : Stands c size ctx link env φ mem s)
    (carries : c.Carries size ctx s.pc (.stmt (.cond test body alternative)) sites ctx)
    (enough : Enough (3 * (sizeOf test + sizeOf body + sizeOf alternative) + 3) size n
      (fuel + 1)) :
    c.Follows n s (Ends c size ctx ctx link φ s (s.pc + sites.length))
      (Stmt.evalBranch (fuel + 1) env test body alternative mem) := by
  obtain ⟨-, sites₁, sites₂, sites₃, condition, sits, negate, jumpIf, branch, jump, other,
    length⟩ := carries.cond
  rw [Stmt.evalBranch.eq_def]
  refine (ih.expr condition sits h.toKnows (enough.less (by omega))).bind ?_
  intro v mem₁ s₁ reach₁ yields
  obtain ⟨s₂, reach₂, none⟩ := yields.test negate jumpIf
  have cont := h.continued (reach₁.trans reach₂) none
  refine Chart.Follows.reach reach₂ ?_
  by_cases zero : v = 0
  · rw [if_pos zero] at cont
    rw [if_neg (not_not_intro zero)]
    have behind : s₂.pc + sites₃.length = s.pc + sites.length := by
      rw [cont.pc]
      omega
    rw [← cont.pc] at other
    cases alternative with
    | none =>
      cases other.emits
      rw [Nat.add_assoc _ 1] at length
      simp only [cont.pc, List.length_nil, Nat.add_zero] at behind
      rw [behind] at cont
      exact ⟨s₂, .refl, φ, cont⟩
    | block body =>
      rw [Else.block.sizeOf_spec] at enough
      rw [← behind]
      exact (ih.block other.elseBlock cont.toStands (enough.less (by omega))).mono
        fun _ _ _ ends => cont.ends ends rfl rfl rfl (h.bases _)
    | cond test body alternative =>
      rw [Else.cond.sizeOf_spec] at enough
      rw [← behind]
      exact (ih.branch other.elseCond cont.toStands (enough.less (by omega))).mono
        fun _ _ _ ends => cont.ends ends rfl rfl rfl (h.bases _)
  · rw [if_neg zero] at cont
    rw [if_pos zero]
    rw [← cont.pc] at branch jump
    refine (ih.block branch cont.toStands (enough.less (by omega))).andThen
      fun flow mem' s' ends => ?_
    obtain ⟨s'', reach, ends⟩ := ends.jump jump
    exact ⟨s'', reach, cont.ends ends rfl rfl rfl (h.bases _)⟩

include ih in
/-- **The code of the passes of a loop.** A jump leads from each pass to the next one. -/
theorem Stands.follows_loop {test : Expr} {after : Stmt} {body : List Stmt} {stop : Nat}
    (h : Stands c size ctx link env φ mem s) (passes : c.Passes size ctx s.pc test after body stop)
    (enough : Enough (3 * (sizeOf test + sizeOf after + sizeOf body) + 3) size n (fuel + 1)) :
    c.Follows n s (fun r => Ends c size ctx ctx link φ s stop (r.elim (.next env) .returned))
      (Stmt.evalLoop (fuel + 1) env test after body mem) := by
  obtain ⟨⟨sites₁, sites₂, sites₃, ctx', condition, sits, negate, jumpIf, pass, update, shapes,
    back⟩, small⟩ := id passes
  rw [Stmt.evalLoop.eq_def]
  refine (ih.expr condition sits h.toKnows (enough.less (by omega))).bind ?_
  intro v mem₁ s₁ reach₁ yields
  obtain ⟨s₂, reach₂, none⟩ := yields.test negate jumpIf
  have cont := h.continued (reach₁.trans reach₂) none
  refine Chart.Follows.reach reach₂ ?_
  by_cases zero : v = 0
  · rw [if_pos zero] at cont ⊢
    exact ⟨s₂, .refl, φ, cont⟩
  · rw [if_neg zero] at cont ⊢
    rw [← cont.pc] at pass update back
    refine (ih.block pass cont.toStands (enough.less (by omega))).bind ?_
    intro flow mem₃ s₃ _ ends₃
    cases flow with
    | returned v => exact ⟨s₃, .refl, cont.ends ends₃ rfl rfl rfl (h.bases _)⟩
    | next _ =>
      obtain ⟨φ₃, cont₃⟩ := ends₃
      have cont₃ := cont₃.rebind cont.toStands rfl
      rw [← cont₃.pc] at update back
      refine (ih.stmt update cont₃.toStands (enough.less (by omega))).bind ?_
      intro flow mem₄ s₄ _ ends₄
      cases flow with
      | returned v =>
        have ends := cont₃.ends ends₄ rfl rfl rfl (cont.bases _)
        exact ⟨s₄, .refl, cont.ends ends rfl rfl rfl (h.bases _)⟩
      | next _ =>
        obtain ⟨φ₄, cont₄⟩ := ends₄
        have cont₄ := cont₄.rebind cont₃.toStands shapes
        obtain ⟨pc, stack, display, output⟩ := s₄
        rw [← cont₄.pc] at back
        have step : advance (.jump s.pc) ⟨pc, stack, display, output⟩ =
          .ok () ⟨s.pc, stack, display, output⟩ := advance_jump s.pc
        have cont₅ := cont₄.goto (.one back step)
        refine Chart.Follows.step back step ?_
        refine (ih.loop (s := ⟨s.pc, stack, display, output⟩) passes cont₅.toStands
          (enough.enter small)).mono fun r mem' s' ends => ?_
        have ends := cont₃.ends (cont₅.ends ends rfl rfl rfl (cont₃.bases _)) rfl rfl rfl
          (cont.bases _)
        exact cont.ends ends rfl rfl rfl (h.bases _)

include ih in
/-- **The code of some statements.** -/
theorem Stands.follows_stmts {body : List Stmt} (h : Stands c size ctx link env φ mem s)
    (carries : c.Carries size ctx s.pc (.stmts body) sites ctx')
    (enough : Enough (3 * sizeOf body + 1) size n (fuel + 1)) :
    c.Follows n s (Ends c size ctx ctx' link φ s (s.pc + sites.length))
      (Stmt.evalAll (fuel + 1) env body mem) := by
  cases body with
  | nil =>
    cases carries.emits
    rw [Stmt.evalAll]
    exact ⟨s, .refl, φ, h.continued .refl (Yields.nil h.toKnows)⟩
  | cons st rest =>
    obtain ⟨sites₁, ctx₁, sites₂, length, head, tail⟩ := carries.cons
    rw [List.cons.sizeOf_spec] at enough
    rw [Stmt.evalAll]
    refine (ih.stmt head h (enough.less (by omega))).bind ?_
    intro flow mem₁ s₁ _ ends
    cases flow with
    | returned v => exact ⟨s₁, .refl, ends⟩
    | next env₁ =>
      obtain ⟨φ₁, cont⟩ := ends
      have behind : s₁.pc + sites₂.length = s.pc + sites.length := by
        rw [cont.pc]
        omega
      rw [← cont.pc] at tail
      rw [← behind]
      exact (ih.stmts tail cont.toStands (enough.less (by omega))).mono fun _ _ _ ends =>
        cont.ends ends head.emits.level head.emits.params head.emits.inFunction_eq (h.bases _)

include loaded ih in
/-- **The code of a statement.** -/
theorem Stands.follows_stmt {st : Stmt} (h : Stands c size ctx link env φ mem s)
    (carries : c.Carries size ctx s.pc (.stmt st) sites ctx')
    (enough : Enough (3 * sizeOf st + 1) size n (fuel + 1)) :
    c.Follows n s (Ends c size ctx ctx' link φ s (s.pc + sites.length))
      (st.eval (fuel + 1) env mem) := by
  cases st with
  | declare name value => exact h.follows_declare ih carries enough
  | assign name value => exact h.follows_assign ih carries enough
  | function name params body =>
    obtain ⟨s', reach, cont⟩ := h.declareFunc carries
    rw [Stmt.eval]
    exact ⟨s', reach, φ, cont⟩
  | ret value => exact h.follows_return ih carries enough
  | cond test body alternative =>
    obtain ⟨rfl, -⟩ := carries.cond
    rw [Stmt.cond.sizeOf_spec] at enough
    rw [Stmt.eval]
    exact ih.branch carries h (enough.less (by omega))
  | loop first test after body =>
    obtain ⟨rfl, frame⟩ := carries.loop
    rw [Stmt.loop.sizeOf_spec] at enough
    rw [Stmt.eval_loop]
    refine h.follows_block loaded frame fun {_ _ _ s₂} content stands => ?_
    obtain ⟨sites₁, ctx₁, header, passes⟩ := content.passes
    refine (ih.stmt header stands (enough.less (by omega))).bind ?_
    intro flow mem₁ s₁ _ ends
    cases flow with
    | returned v => exact ⟨s₁, .refl, ctx₁, ends⟩
    | next inner =>
      obtain ⟨φ₁, cont⟩ := ends
      rw [← cont.pc] at passes
      refine (ih.loop passes cont.toStands (enough.less (by omega))).bind ?_
      intro r mem₂ s₃ _ ends
      exact ⟨s₃, .refl, ctx₁, cont.ends ends header.emits.level header.emits.params
        header.emits.inFunction_eq (stands.bases _)⟩
  | block body =>
    obtain ⟨rfl, block⟩ := carries.blockStmt
    rw [Stmt.block.sizeOf_spec] at enough
    rw [Stmt.eval]
    exact ih.block block h (enough.less (by omega))
  | expr value => exact h.follows_expr ih carries enough
  | empty =>
    cases carries.emits
    rw [Stmt.eval]
    exact ⟨s, .refl, φ, h.continued .refl (Yields.nil h.toKnows)⟩

end Follows

theorem Chart.follows_zero {α : Type} {weight : Nat} {Q : α → Memory → State (Array Value) → Prop}
    (enough : Enough (weight + 1) size n 0) :
    c.Follows n s Q (.error .outOfFuel mem : EStateM.Result Stop Memory α) := by
  obtain rfl := enough.eq_zero
  exact ⟨s, .refl⟩

/-- **The machine follows every evaluation.** -/
theorem Chart.Loaded.simulates (loaded : c.Loaded) (size fuel : Nat) : c.Simulates size fuel := by
  induction fuel with
  | zero =>
    exact ⟨fun _ _ _ enough => Chart.follows_zero enough,
      fun _ _ _ enough => Chart.follows_zero enough, fun _ _ enough => Chart.follows_zero enough,
      fun _ _ enough => Chart.follows_zero enough, fun _ _ enough => Chart.follows_zero enough,
      fun _ _ enough => Chart.follows_zero enough, fun _ _ enough => Chart.follows_zero enough⟩
  | succ fuel ih =>
    exact ⟨fun emits sits h enough => emits.follows loaded ih sits h enough,
      fun emits sits h enough => emits.follows ih sits h enough,
      fun carries h enough => h.follows_stmt loaded ih carries enough,
      fun carries h enough => h.follows_stmts ih carries enough,
      fun carries h enough => h.follows_evalBlock loaded ih carries enough,
      fun carries h enough => h.follows_branch ih carries enough,
      fun passes h enough => h.follows_loop ih passes enough⟩

end NestLang
