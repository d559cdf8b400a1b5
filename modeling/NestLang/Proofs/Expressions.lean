import NestLang.Proofs.Agreement

/-!
# Code of expressions

The machine follows the evaluation of expressions: the code of an expression puts its value on the
stack. A call opens a frame above its arguments, in which the body of the function is executed, and
the value that the frame returns takes the place of the arguments.

* `Knows.load`, `Yields.write`: reading and writing a cell in its slot.
* `Chart.Placed.follows`, `Chart.Loaded.reach_print`: **calls.**
* `Expr.Emits.follows`, `Expr.EmitsAll.follows`: **the code of expressions.**
-/

namespace NestLang

variable {c : Chart} {size n fuel : Nat} {scopes : Scopes Decl} {env closure : Env} {φ φ' : Places}
  {mem mem' : Memory} {s s' : State (Array Value)} {pc a b i level : Nat} {offset : Int}
  {stack : Stack} {display : Display} {output : Array Value} {v : Value} {l : List Value}

/-! ## Cells -/

theorem EvalM.cellOf_eq {name : String} (found : env.find? name = some (.cell i, closure)) :
    EvalM.cellOf env name = pure i := by
  rw [EvalM.cellOf, found]

theorem Binds.cellOf {bases : Nat → Nat} {name : String} {decl : Decl}
    (h : Binds c size φ bases scopes env) (resolved : scopes.resolve? name = some decl)
    (slot : decl.slot? = some (level, offset)) :
    ∃ i a, EvalM.cellOf env name = pure i ∧ φ i = some a ∧ (bases level : Int) + offset = a := by
  obtain ⟨binding, closure, found, means⟩ := h.find resolved
  cases means with
  | cell slot' place address =>
    rw [slot] at slot'
    cases slot'
    exact ⟨_, _, EvalM.cellOf_eq found, place, address⟩
  | print => cases slot
  | func _ _ _ => cases slot

theorem Knows.load (h : Knows c size scopes env φ mem ⟨pc, stack, display, output⟩)
    (instr : c.instr? pc = some (.load level offset)) (place : φ i = some a)
    (address : (display.base level : Int) + offset = a) :
    c.Reach ⟨pc, stack, display, output⟩
      ⟨pc + 1, stack.push (mem.cells.getD i 0), display, output⟩ := by
  obtain ⟨v, cell, value⟩ := h.models.holds place
  have read : mem.cells.getD i 0 = v := by simp [Array.getD_eq_getD_getElem?, cell]
  rw [read]
  exact .one instr (advance_load (h.base_lt level) h.bounded.size address value)

theorem Yields.write {b' : Nat} (h : Yields φ s b l mem' ⟨pc, stack, display, mem'.output⟩)
    (models : Models φ mem s.stack) (place : φ i = some a) (v : Value) :
    Yields φ s b' l ⟨mem'.cells.setIfInBounds i v, mem'.output⟩
      ⟨b', stack.setIfInBounds a v, display, mem'.output⟩ where
  pc := rfl
  size := by
    rw [Array.size_setIfInBounds]
    exact h.size
  values := fun j hj => by
    have below := models.lt_size place
    rw [Array.getElem?_setIfInBounds_ne (by omega)]
    exact h.values j hj
  kept := h.kept.trans ((models.of_kept h.kept).write place v _) .refl (Nat.le_refl _)
  display := h.display
  output := rfl

/-! ## Calls -/

/-- The state in which a call of code at `target` has just opened a frame. -/
def State.entered (s : State (Array Value)) (level target : Nat) : State (Array Value) :=
  ⟨target, (s.stack.push (.ofAddress (s.display.base (level + 1)))).push (.ofAddress (s.pc + 1)),
    s.display.setBase (level + 1) s.stack.size, s.output⟩

/-- Where the frame goes back to that the call has opened. -/
def State.link (s : State (Array Value)) (level : Nat) : Link :=
  ⟨s.display.base (level + 1), s.pc + 1⟩

theorem State.advance_call {target : Nat} (bound : level + 1 < wordCount) :
    advance (.call level target) s = .ok () (s.entered level target) :=
  NestLang.advance_call bound

@[simp] theorem State.base_entered (s : State (Array Value)) (level target : Nat) :
    (s.entered level target).display.base (level + 1) = s.stack.size := by
  rw [entered, Display.base_setBase, if_pos rfl]

theorem State.base_entered_of_ne {target k : Nat} (ne : k ≠ level + 1) :
    (s.entered level target).display.base k = s.display.base k := by
  rw [entered, Display.base_setBase, if_neg ne]

@[simp] theorem State.size_entered (s : State (Array Value)) (level target : Nat) :
    (s.entered level target).stack.size = s.stack.size + 2 := by
  simp [entered]

theorem State.getElem?_entered {target : Nat} (lt : a < s.stack.size) :
    (s.entered level target).stack[a]? = s.stack[a]? := by
  rw [entered, Stack.getElem?_push_push_of_lt lt]

theorem State.base_restored (s : State (Array Value)) (level target : Nat) :
    (fun k => if k = level + 1 then (s.link level).base else
      (s.entered level target).display.base k) = s.display.base := by
  funext k
  split
  · next same =>
    rw [same]
    rfl
  · next other => exact State.base_entered_of_ne other

theorem Knows.header {target params : Nat} (h : Knows c size scopes env φ mem s)
    (free : ∀ a, s.stack.size ≤ a → φ'.Free a) (pc_lt : s.pc + 1 < addressBound)
    (params_le : params ≤ s.stack.size) :
    Header φ' (s.entered level target).stack s.stack.size params (s.link level) where
  saved_base := Stack.getElem?_push_push _ _ _
  saved_pc := by
    rw [State.entered, Array.getElem?_push, Array.size_push, if_pos rfl]
    rfl
  free_base := free _ (Nat.le_refl _)
  free_pc := free _ (Nat.le_succ _)
  base_lt := h.base_lt _
  pc_lt := pc_lt
  params_le := params_le

theorem Knows.bases_entered {target : Nat} (h : Knows c size scopes env φ mem s) (k : Nat) :
    (s.entered level target).display.base k ≤ (s.entered level target).stack.size := by
  rw [State.size_entered]
  by_cases same : k = level + 1
  · rw [same, State.base_entered]
    exact Nat.le_add_right _ _
  · rw [State.base_entered_of_ne same]
    exact Nat.le_add_right_of_le (h.bases k)

/-- **A value that a call has returned takes the place of the arguments.** -/
theorem Returned.yields {s₁ : State (Array Value)} {mem₁ : Memory} {target : Nat}
    (arguments : Yields φ s a l mem₁ s₁) (ext : φ.Extends φ' s.stack.size)
    (returned : Returned (s₁.link level) (level + 1) l.length φ' (s₁.entered level target) v mem'
      s') :
    Yields φ s (s₁.pc + 1) [v] mem' s' := by
  have base : (s₁.entered level target).display.base (level + 1) - l.length = s.stack.size := by
    rw [State.base_entered, arguments.size, Nat.add_sub_cancel]
  obtain ⟨stack, hs, size, kept⟩ := returned.stack
  rw [base] at size kept
  have below : s.stack.size ≤ s₁.stack.size := arguments.size ▸ Nat.le_add_right _ _
  have entered : Kept φ s.stack.size s.stack mem₁ (s₁.entered level target).stack :=
    arguments.kept.congr fun b hb => State.getElem?_entered (Nat.lt_of_lt_of_le hb below)
  have all := entered.trans kept ext (Nat.le_refl _)
  refine ⟨returned.pc, ?_, fun j hj => ?_, ?_, ?_, returned.output⟩
  · rw [hs, Array.size_push, size]
    rfl
  · obtain rfl : j = 0 := Nat.lt_one_iff.1 hj
    rw [hs, Nat.add_zero, ← size, Array.getElem?_push_size]
    rfl
  · refine all.congr fun b hb => ?_
    rw [hs, Stack.getElem?_push_of_lt (size.symm ▸ hb)]
  · rw [returned.display, State.base_restored, arguments.display]

/-- The value of a function whose body has ended so. -/
def Flow.value : Flow → Value
  | .next _ => 0
  | .returned v => v

/-- **The end of a body returns `0`.** -/
theorem Ends.leaves {ctx inner : Ctx} {link : Link} {entry : Nat} {part : Part}
    {sites : List Site} {flow : Flow} (h : Ends c size ctx inner link φ s a flow mem' s')
    (emits : Part.Emits ctx entry part sites inner) (inside : inFunction ctx.shapes = true)
    (sits : c.Sits a [inner.site 0 (.lit 0), inner.site 1 (.ret ctx.level ctx.params)])
    (le : s.display.base ctx.level ≤ s.stack.size) :
    ∃ s'', c.Reach s' s'' ∧ Returned link ctx.level ctx.params φ s flow.value mem' s'' := by
  cases flow with
  | returned v => exact ⟨s', .refl, h.2⟩
  | next env' =>
    obtain ⟨φ', h⟩ := h
    obtain ⟨pc, stack, display, output⟩ := s'
    obtain rfl : pc = a := h.pc
    obtain rfl : output = mem'.output := h.output
    have params : inner.params = ctx.params := by rw [Ctx.params, emits.outer.2.2.1]; rfl
    have header := h.header (emits.inFunction_eq.trans inside)
    rw [h.display, emits.level, params] at header
    obtain ⟨s'', reach, returned⟩ := header.returns (Chart.instr?_of_site sits.2.1)
      (h.kept.mono (Nat.le_trans (Nat.sub_le _ _) le)) h.display 0
    exact ⟨s'', .step (Chart.instr?_of_site sits.1) (advance_lit 0) reach, returned⟩

theorem Knows.enterFunc {scopes' : Scopes Decl} {shapes : Levels Shape} {entry : Nat}
    {params : List String} {s₁ : State (Array Value)} {mem₁ : Memory}
    (depth : shapes.depth = scopes'.depth) (h : Knows c size scopes env φ mem s)
    (arguments : Yields φ s a l mem₁ s₁) (known : Knows c size scopes env φ mem₁ s₁)
    (binds : Binds c size φ s.display.base scopes' closure) (length : l.length = params.length)
    (reach : c.Reach s₁ (s₁.entered scopes'.depth entry)) (pc_lt : s₁.pc + 1 < addressBound) :
    ∃ φ' env' mem₂, EvalM.bindAll params l closure mem₁ = .ok env' mem₂ ∧
      φ.Extends φ' s.stack.size ∧
      Stands c size ((⟨scopes', shapes⟩ : Ctx).enterFunc entry params) (s₁.link scopes'.depth) env'
        φ' mem₂ (s₁.entered scopes'.depth entry) := by
  let s₂ := s₁.entered scopes'.depth entry
  have size₁ := arguments.size
  have outer : Binds c size φ s₂.display.base scopes' closure := binds.congr fun k hk => by
    rw [State.base_entered_of_ne (Nat.ne_of_lt (Nat.lt_succ_of_le hk)), arguments.display]
  have models : Models φ mem₁ s₂.stack := known.models.congr fun a ha => State.getElem?_entered ha
  have base : s.stack.size + params.length = s₂.display.base (scopes'.depth + 1) := by
    rw [State.base_entered, size₁, length]
  have values (j : Nat) (hj : j < l.length) : s₂.stack[s.stack.size + j]? = l[j]? := by
    rw [State.getElem?_entered (by omega), arguments.values j hj]
  obtain ⟨φ', env', mem₂, run, ext, binds', models', output, free⟩ :=
    outer.enter.bindAll models (Nat.le_refl _) length base values fun b hb => h.models.free hb
  have level : ((⟨scopes', shapes⟩ : Ctx).enterFunc entry params).level = scopes'.depth + 1 :=
    congrArg Nat.succ depth
  refine ⟨φ', env', mem₂, run, ext, ⟨?_, models', ?_, known.bases_entered, ?_⟩, ?_, fun _ => ?_⟩
  · have declared : ((⟨scopes', shapes⟩ : Ctx).enterFunc entry params).scopes =
        Scopes.declareParams (scopes'.depth + 1) params (scopes'.enter []) := by
      rw [← depth]
      rfl
    rw [declared]
    exact binds'
  · rw [output]
    exact known.output
  · exact known.bounded.reach reach
  · rw [level, State.base_entered, State.size_entered]
    rfl
  · rw [level, State.base_entered]
    have params_le : params.length ≤ s₁.stack.size := by omega
    exact known.header (fun b hb => free b (by omega)) pc_lt params_le

/-- **A call of a function.** The arguments are on the stack. -/
theorem Chart.Placed.follows {scopes' : Scopes Decl} {entry weight : Nat} {params : List String}
    {body : List Stmt} {s₁ : State (Array Value)} {mem₁ : Memory} (loaded : c.Loaded)
    (ih : c.Simulates size fuel) (placed : c.Placed size scopes' entry params body)
    (h : Knows c size scopes env φ mem s) (binds : Binds c size φ s.display.base scopes' closure)
    (arguments : Yields φ s a l mem₁ s₁) (known : Knows c size scopes env φ mem₁ s₁)
    (length : l.length = params.length)
    (instr : c.instr? s₁.pc = some (.call scopes'.depth entry))
    (enough : Enough (weight + 1) size n (fuel + 1)) :
    c.Follows n s₁ (fun v => Yields φ s (s₁.pc + 1) [v])
      ((EvalM.bindAll params l closure >>= fun inner => Stmt.evalAll fuel inner body >>= fun flow =>
        match flow with
        | .returned v => pure v
        | .next _ => pure 0) mem₁) := by
  obtain ⟨shapes, sites, inner, carries, tail⟩ := placed
  have depth : shapes.depth = scopes'.depth := by
    have := carries.depth
    simp only [Ctx.enterFunc, Scopes.depth_declareParams] at this
    exact (Nat.succ.inj this).symm
  have bound : scopes'.depth + 1 < addressBound := by
    have level : shapes.depth + 1 ≤ entry := carries.level
    have := tail.lt_length
    have := loaded.small
    omega
  have step : advance (.call scopes'.depth entry) s₁ = .ok () (s₁.entered scopes'.depth entry) :=
    State.advance_call (Nat.lt_trans bound addressBound_lt_wordCount)
  obtain ⟨φ', env', mem₂, run, ext, stands⟩ := h.enterFunc depth arguments known binds length
    (.one instr step) (loaded.succ_lt instr)
  have level : ((⟨scopes', shapes⟩ : Ctx).enterFunc entry params).level = scopes'.depth + 1 :=
    congrArg Nat.succ depth
  rw [bind_run, run]
  refine Chart.Follows.step instr step (Chart.Follows.bind (ih.stmts carries stands ?_) ?_)
  · exact enough.enter carries.small
  · intro flow mem₃ s₃ _ ends
    obtain ⟨s₄, reach, returned⟩ := ends.leaves carries.emits rfl (by rw [level]; exact tail)
      (known.bases_entered _)
    have params_eq : ((⟨scopes', shapes⟩ : Ctx).enterFunc entry params).params = l.length :=
      length.symm
    rw [level, params_eq] at returned
    cases flow <;> exact ⟨s₄, reach, returned.yields arguments ext⟩

/-- **A call of `print`.** The value is on the stack. -/
theorem Chart.Loaded.reach_print {s₁ : State (Array Value)} {mem₁ : Memory} (loaded : c.Loaded)
    (arguments : Yields φ s a [v] mem₁ s₁) (known : Knows c size scopes env φ mem₁ s₁)
    (instr : c.instr? s₁.pc = some (.call 0 1)) :
    ∃ s', c.Reach s₁ s' ∧
      Yields φ s (s₁.pc + 1) [0] ⟨mem₁.cells, mem₁.output.push v⟩ s' := by
  obtain ⟨-, load, print, lit, ret, -⟩ := loaded.print
  let s₂ := s₁.entered 0 1
  have step : advance (.call 0 1) s₁ = .ok () s₂ := State.advance_call (by decide)
  have size₁ : s₁.stack.size = s.stack.size + 1 := arguments.size
  have base : s₂.display.base 1 = s₁.stack.size := State.base_entered s₁ 0 1
  have value : s₂.stack[s.stack.size]? = some v := by
    rw [State.getElem?_entered (by omega)]
    exact arguments.values 0 Nat.one_pos
  have bounded := known.bounded.reach (.one instr step)
  have base_lt : s₂.display.base 1 < addressBound := base ▸ known.bounded.size
  have address : (s₂.display.base 1 : Int) + (-1) = s.stack.size := by omega
  have step₁ : advance (.load 1 (-1)) s₂ = .ok () ⟨2, s₂.stack.push v, s₂.display, s₂.output⟩ :=
    advance_load base_lt bounded.size address value
  have header : Header φ s₂.stack (s₂.display.base 1) 1 (s₁.link 0) := by
    rw [base]
    exact known.header (fun b hb => known.models.free hb) (loaded.succ_lt instr) (by omega)
  have models : Models φ mem₁ s₂.stack := known.models.congr fun a ha => State.getElem?_entered ha
  have kept : Kept φ (s₂.display.base 1 - 1) s₂.stack ⟨mem₁.cells, mem₁.output.push v⟩ s₂.stack :=
    ⟨fun place _ => models.holds place, fun _ _ => rfl⟩
  obtain ⟨s₃, reach, returned⟩ := header.returns (Chart.instr?_of_site ret) kept rfl 0
  refine ⟨s₃, .step instr step (.step (Chart.instr?_of_site load) step₁ ?_),
    returned.yields arguments .refl⟩
  have output : s₂.output = mem₁.output := known.output
  rw [output]
  exact .step (Chart.instr?_of_site print) (advance_print v)
    (.step (Chart.instr?_of_site lit) (advance_lit 0) reach)

/-! ## Expressions -/

section Follows

variable {ctx : Ctx} {t : Nat} {sites : List Site} (loaded : c.Loaded)
  (ih : c.Simulates size fuel)

include loaded ih in
theorem Expr.EmitsAll.follows_call {name : String} {args : List Expr} {level entry : Nat}
    (operands : Expr.EmitsAll ctx t args sites)
    (resolved : ctx.scopes.resolve? name = some (.func level entry args.length))
    (sits : c.Sits s.pc (sites ++ [ctx.site (t + args.length) (.call level entry)]))
    (h : Knows c size ctx.scopes env φ mem s)
    (enough : Enough (3 * sizeOf (Expr.call name args) + 1) size n (fuel + 1)) :
    c.Follows n s (fun v => Yields φ s (s.pc + (sites.length + 1)) [v])
      ((Expr.call name args).eval (fuel + 1) env mem) := by
  obtain ⟨sits, call, -⟩ := Chart.sits_append.1 sits
  have instr := Chart.instr?_of_site call
  rw [Expr.call.sizeOf_spec] at enough
  have follows := ih.exprs operands sits h (enough.less (by omega))
  obtain ⟨binding, closure, found, means⟩ := h.binds.find resolved
  rw [Expr.eval, found]
  generalize func : Decl.func level entry args.length = decl at means
  cases means with
  | cell slot _ _ =>
    subst func
    cases slot
  | print =>
    simp only [Decl.func.injEq] at func
    obtain ⟨rfl, rfl, one⟩ := func
    refine follows.bind fun l mem₁ s₁ reach ⟨length, arguments⟩ => ?_
    have known := h.yields reach arguments
    rw [← arguments.pc] at instr
    obtain ⟨v, rfl⟩ := List.length_eq_one_iff.1 (length.trans one)
    obtain ⟨s', reach', yields⟩ := loaded.reach_print arguments known instr
    rw [arguments.pc] at yields
    exact ⟨s', reach', yields⟩
  | func binds placed _ =>
    simp only [Decl.func.injEq] at func
    obtain ⟨rfl, rfl, params⟩ := func
    refine follows.bind fun l mem₁ s₁ reach ⟨length, arguments⟩ => ?_
    have known := h.yields reach arguments
    rw [← arguments.pc] at instr
    have call := placed.follows loaded ih h binds arguments known (length.trans params) instr enough
    rw [arguments.pc] at call
    exact call

include ih in
theorem Expr.Emits.follows_binary {op : BinaryOp} {e₁ e₂ : Expr} {sites₁ sites₂ : List Site}
    (left : Expr.Emits ctx t e₁ sites₁) (right : Expr.Emits ctx (t + 1) e₂ sites₂)
    (sits : c.Sits s.pc (sites₁ ++ sites₂ ++ [ctx.site (t + 2) (.binary op)]))
    (h : Knows c size ctx.scopes env φ mem s)
    (enough : Enough (3 * sizeOf (Expr.binary op e₁ e₂) + 1) size n (fuel + 1)) :
    c.Follows n s (fun v => Yields φ s (s.pc + ((sites₁ ++ sites₂).length + 1)) [v])
      ((Expr.binary op e₁ e₂).eval (fuel + 1) env mem) := by
  obtain ⟨sits, site, -⟩ := Chart.sits_append.1 sits
  obtain ⟨sits₁, sits₂⟩ := Chart.sits_append.1 sits
  rw [Expr.binary.sizeOf_spec] at enough
  rw [Expr.eval]
  refine (ih.expr left sits₁ h (enough.less (by omega))).bind fun x mem₁ s₁ reach₁ yields₁ => ?_
  have known := h.yields reach₁ yields₁
  rw [← yields₁.pc] at sits₂
  refine (ih.expr right sits₂ known (enough.less (by omega))).bind
    fun y mem₂ s₂ reach₂ yields₂ => ?_
  have instr : c.instr? s₂.pc = some (.binary op) := by
    rw [yields₂.pc, yields₁.pc, Nat.add_assoc, ← List.length_append]
    exact Chart.instr?_of_site site
  have both : Yields φ s _ ([x] ++ [y]) mem₂ s₂ := .append h yields₁ yields₂
  obtain ⟨_, display, rfl, first⟩ := both.pop
  obtain ⟨stack, _, below, none⟩ := Yields.pop (l := []) first
  cases below
  have step : advance (.binary op)
      ⟨s₁.pc + sites₂.length, (stack.push x).push y, display, mem₂.output⟩ = _ :=
    advance_binary op x y
  cases result : op.apply? x y with
  | none =>
    rw [result] at step
    exact ⟨_, _, _, .refl, instr, step, rfl⟩
  | some v =>
    have pc : s₁.pc + sites₂.length + 1 = s.pc + ((sites₁ ++ sites₂).length + 1) := by
      rw [yields₁.pc, List.length_append]
      omega
    rw [result, pc] at step
    exact ⟨_, .one instr step, none.push v⟩

include ih in
theorem Expr.Emits.follows_unary {op : UnaryOp} {e : Expr} (operand : Expr.Emits ctx t e sites)
    (sits : c.Sits s.pc (sites ++ op.instrs.map (ctx.site (t + 1))))
    (h : Knows c size ctx.scopes env φ mem s)
    (enough : Enough (3 * sizeOf (Expr.unary op e) + 1) size n (fuel + 1)) :
    c.Follows n s (fun v => Yields φ s (s.pc + (sites.length + op.instrs.length)) [v])
      ((Expr.unary op e).eval (fuel + 1) env mem) := by
  obtain ⟨sits, rest⟩ := Chart.sits_append.1 sits
  rw [Expr.unary.sizeOf_spec] at enough
  rw [Expr.eval]
  refine (ih.expr operand sits h (enough.less (by omega))).bind fun v mem₁ s₁ reach yields => ?_
  obtain ⟨stack, display, rfl, none⟩ := Yields.pop (l := []) yields
  cases op with
  | not => exact ⟨_, .one (Chart.instr?_of_site rest.1) (advance_not v), none.push _⟩
  | minus => exact ⟨_, .one (Chart.instr?_of_site rest.1) (advance_neg v), none.push _⟩
  | plus => exact ⟨_, .refl, none.push v⟩

theorem Knows.follows_post {op : PostOp} {name : String} {level : Nat} {offset : Int}
    (h : Knows c size ctx.scopes env φ mem s)
    (resolved : ctx.scopes.resolve? name = some (.var level offset))
    (sits : c.Sits s.pc [ctx.site t (.load level offset), ctx.site (t + 1) (.load level offset),
      ctx.site (t + 2) (.lit op.delta), ctx.site (t + 3) (.binary .add),
      ctx.site (t + 2) (.store level offset)]) :
    c.Follows n s (fun v => Yields φ s (s.pc + 5) [v])
      ((Expr.post op (.var name)).eval (fuel + 1) env mem) := by
  obtain ⟨i, a, cell, place, address⟩ := h.binds.cellOf resolved rfl
  rw [Expr.eval, cell]
  obtain ⟨pc, stack, display, output⟩ := s
  obtain rfl : output = mem.output := h.output
  obtain ⟨load, load', lit, add, store, -⟩ := sits
  let v := mem.cells.getD i 0
  have reach₁ := h.load (Chart.instr?_of_site load) place address
  have yields₁ : Yields φ _ _ [v] mem ⟨pc + 1, stack.push v, display, mem.output⟩ :=
    (Yields.nil h).push v
  have known := h.yields reach₁ yields₁
  have reach₂ := known.load (Chart.instr?_of_site load') place address
  have step : advance (.store level offset)
      ⟨pc + 4, (stack.push v).push (v + op.delta), display, mem.output⟩ = _ :=
    advance_store (h.base_lt level) known.bounded.size address (known.models.lt_size place)
  have reach₃ : c.Reach ⟨pc + 2, (stack.push v).push v, display, mem.output⟩ _ :=
    .step (Chart.instr?_of_site lit) (advance_lit op.delta)
      (.step (Chart.instr?_of_site add) (advance_binary .add v op.delta)
        (.one (Chart.instr?_of_site store) step))
  exact ⟨_, (reach₁.trans reach₂).trans reach₃, yields₁.write h.models place _⟩

include loaded ih in
/-- **The code of an expression puts its value on the stack.** -/
theorem Expr.Emits.follows {e : Expr} (emits : Expr.Emits ctx t e sites) (sits : c.Sits s.pc sites)
    (h : Knows c size ctx.scopes env φ mem s)
    (enough : Enough (3 * sizeOf e + 1) size n (fuel + 1)) :
    c.Follows n s (fun v => Yields φ s (s.pc + sites.length) [v])
      (e.eval (fuel + 1) env mem) := by
  cases emits with
  | int | bool =>
    obtain ⟨pc, stack, display, output⟩ := s
    obtain rfl : output = mem.output := h.output
    rw [Expr.eval]
    exact ⟨_, .one (Chart.instr?_of_site sits.1) (advance_lit _), (Yields.nil h).push _⟩
  | var resolved slot =>
    obtain ⟨i, a, cell, place, address⟩ := h.binds.cellOf resolved slot
    obtain ⟨pc, stack, display, output⟩ := s
    obtain rfl : output = mem.output := h.output
    rw [Expr.eval, cell]
    exact ⟨_, h.load (Chart.instr?_of_site sits.1) place address, (Yields.nil h).push _⟩
  | call resolved operands =>
    rw [List.length_append]
    exact operands.follows_call loaded ih resolved sits h enough
  | unary operand =>
    rw [List.length_append, List.length_map]
    exact operand.follows_unary ih sits h enough
  | binary left right =>
    rw [List.length_append]
    exact left.follows_binary ih right sits h enough
  | post resolved => exact h.follows_post resolved sits

include ih in
/-- **The code of some expressions puts their values on the stack.** -/
theorem Expr.EmitsAll.follows {es : List Expr} (emits : Expr.EmitsAll ctx t es sites)
    (sits : c.Sits s.pc sites) (h : Knows c size ctx.scopes env φ mem s)
    (enough : Enough (3 * sizeOf es + 1) size n (fuel + 1)) :
    c.Follows n s (fun l mem' s' => l.length = es.length ∧
      Yields φ s (s.pc + sites.length) l mem' s') (Expr.evalAll (fuel + 1) env es mem) := by
  cases emits with
  | nil =>
    rw [Expr.evalAll]
    exact ⟨s, .refl, rfl, Yields.nil h⟩
  | cons head tail =>
    obtain ⟨sits₁, sits₂⟩ := Chart.sits_append.1 sits
    rw [List.cons.sizeOf_spec] at enough
    rw [Expr.evalAll]
    refine (ih.expr head sits₁ h (enough.less (by omega))).bind
      fun v mem₁ s₁ reach₁ yields₁ => ?_
    rw [← yields₁.pc] at sits₂
    have known := h.yields reach₁ yields₁
    refine (ih.exprs tail sits₂ known (enough.less (by omega))).bind
      fun l mem₂ s₂ _ ⟨length, yields₂⟩ => ?_
    have yields := Yields.append h yields₁ yields₂
    rw [yields₁.pc, Nat.add_assoc, ← List.length_append] at yields
    exact ⟨s₂, .refl, congrArg Nat.succ length, yields⟩

end Follows

end NestLang
