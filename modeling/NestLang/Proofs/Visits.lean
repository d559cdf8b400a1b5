import NestLang.Proofs.Typing

/-!
# The tasks of the compiler

The compiler works through a program from task to task: for a conditional it comes to the test, the
branch and the alternative, each in a session of its own. In this way every statement and every
expression of a program has a session in which its compilation starts.

* `Task.Calls`: the tasks that a task leads to, and what is done before.
* `Task.Reaches`: the tasks that the compiler comes to from a task, the sessions in which it does,
  and the slots of the flags of the blocks around them.
* `Program.Visits`: the tasks of a program, with the sessions in which they are started.
* `Program.Visits.expects`: **what the chart of a program has at the address of a task.**
-/

namespace NestLang

open CompileM

/-! ## Tasks -/

/-- Write the code of a part. -/
def Part.compile : Part → CompileM Unit
  | .stmt s => s.compile
  | .stmts body => Stmt.compileAll body
  | .otherwise alternative => alternative.compile
  | .passes first test after body => compilePasses first test after body
  | .block content => inBlock content.compile

/-- What the compiler works on: a part of a program, an expression, or the arguments of a call. -/
inductive Task
  | part (p : Part)
  | expr (e : Expr)
  | exprs (es : List Expr)

/-- Write the code of a task. -/
def Task.compile : Task → CompileM Unit
  | .part p => p.compile
  | .expr e => e.compile
  | .exprs es => Expr.compileAll es

/-- The compiler works on the first task by way of the second one, which it comes to after what is
done before it. -/
inductive Task.Calls : Task → {α : Type} → CompileM α → Task → Prop
  | operand {op e} : Calls (.expr (.unary op e)) (pure ()) (.expr e)
  | left {op l r} : Calls (.expr (.binary op l r)) (pure ()) (.expr l)
  | right {op l r} : Calls (.expr (.binary op l r)) l.compile (.expr r)
  | arguments {name args} :
      Calls (.expr (.call name args)) (callTarget name args.length) (.exprs args)
  | argument {e es} : Calls (.exprs (e :: es)) (pure ()) (.expr e)
  | others {e es} : Calls (.exprs (e :: es)) e.compile (.exprs es)
  | head {s rest} : Calls (.part (.stmts (s :: rest))) (pure ()) (.part (.stmt s))
  | tail {s rest} : Calls (.part (.stmts (s :: rest))) s.compile (.part (.stmts rest))
  | declared {name e} : Calls (.part (.stmt (.declare name e)))
      (do
        let current ← level
        let slot ← reserve
        emit (.lit 0)
        declare name (.var current slot)
        return (current, slot))
      (.expr e)
  | assigned {name e} : Calls (.part (.stmt (.assign name e))) (assignTarget name) (.expr e)
  | returned {e} : Calls (.part (.stmt (.ret (some e)))) (pure ()) (.expr e)
  | dropped {e} : Calls (.part (.stmt (.expr e))) (pure ()) (.expr e)
  | function {name names body} : Calls (.part (.stmt (.function name names body)))
      (do
        let address ← write (.jump 0)
        let inner ← openFunction name names
        return (address, inner))
      (.part (.stmts body))
  | test {test body alternative} :
      Calls (.part (.stmt (.cond test body alternative))) (pure ()) (.expr test)
  | branch {test body alternative} : Calls (.part (.stmt (.cond test body alternative)))
      (do
        test.compile
        emit .not
        write (.jumpIf 0))
      (.part (.block (.stmts body)))
  | alternative {test body alternative} : Calls (.part (.stmt (.cond test body alternative)))
      (do
        test.compile
        emit .not
        forward .jumpIf do
          inBlock (Stmt.compileAll body)
          write (.jump 0))
      (.part (.otherwise alternative))
  | loop {first test after body} : Calls (.part (.stmt (.loop first test after body))) (pure ())
      (.part (.block (.passes first test after body)))
  | block {body} : Calls (.part (.stmt (.block body))) (pure ()) (.part (.block (.stmts body)))
  | elseBlock {body} :
      Calls (.part (.otherwise (.block body))) (pure ()) (.part (.block (.stmts body)))
  | elseCond {test body alternative} : Calls (.part (.otherwise (.cond test body alternative)))
      (pure ()) (.part (.stmt (.cond test body alternative)))
  | content {content} : Calls (.part (.block content)) openBlock (.part content)
  | first {first test after body} : Calls (.part (.passes first test after body)) (pure ())
      (.part (.stmt first))
  | condition {first test after body} : Calls (.part (.passes first test after body))
      (do
        first.compile
        here)
      (.expr test)
  | pass {first test after body} : Calls (.part (.passes first test after body))
      (do
        first.compile
        let start ← here
        test.compile
        emit .not
        let exit ← write (.jumpIf 0)
        return (start, exit))
      (.part (.block (.stmts body)))
  | after {first test after body} : Calls (.part (.passes first test after body))
      (do
        first.compile
        let start ← here
        test.compile
        emit .not
        let exit ← write (.jumpIf 0)
        inBlock (Stmt.compileAll body)
        return (start, exit))
      (.part (.stmt after))

/-- **The compiler does call it**: working on a task is doing what comes before, working on the
other task, and some more. -/
theorem Task.Calls.compile_eq {task sub : Task} {α : Type} {before : CompileM α}
    (calls : task.Calls before sub) : ∃ rest : α → CompileM Unit, task.compile = (do
      let a ← before
      sub.compile
      rest a) := by
  cases calls with
  | @operand op e => exact ⟨fun _ => op.compile, by simp [Task.compile, Expr.compile]⟩
  | @left op l r =>
    exact ⟨fun _ => do r.compile; emit (.binary op), by simp [Task.compile, Expr.compile]⟩
  | @right op l r => exact ⟨fun _ => emit (.binary op), by simp [Task.compile, Expr.compile]⟩
  | arguments =>
    exact ⟨fun target => emit (.call target.1 target.2), by simp [Task.compile, Expr.compile]⟩
  | @argument e es => exact ⟨fun _ => Expr.compileAll es, by simp [Task.compile, Expr.compileAll]⟩
  | others => exact ⟨fun _ => pure (), by simp [Task.compile, Expr.compileAll]⟩
  | @head s rest =>
    exact ⟨fun _ => Stmt.compileAll rest, by simp [Task.compile, Part.compile, Stmt.compileAll]⟩
  | tail => exact ⟨fun _ => pure (), by simp [Task.compile, Part.compile, Stmt.compileAll]⟩
  | declared | assigned =>
    exact ⟨fun slot => emit (.store slot.1 slot.2),
      by simp [Task.compile, Part.compile, Stmt.compile]⟩
  | returned => exact ⟨fun _ => emitReturn, by simp [Task.compile, Part.compile, Stmt.compile]⟩
  | dropped => exact ⟨fun _ => emit .pop, by simp [Task.compile, Part.compile, Stmt.compile]⟩
  | @function name names body =>
    refine ⟨fun opened => do
      emit (.lit 0)
      emit (.ret opened.2 names.length)
      closeLevel .function
      patch opened.1 (.jump (← here)), ?_⟩
    simp [Task.compile, Part.compile, Stmt.compile, inFunction_eq, forward]
  | @test test body alternative =>
    refine ⟨fun _ => do
      emit .not
      let skip ← forward .jumpIf do
        inBlock (Stmt.compileAll body)
        write (.jump 0)
      alternative.compile
      patch skip (.jump (← here)), ?_⟩
    simp [Task.compile, Part.compile, Stmt.compile, CompileM.branch]
  | @branch test body alternative =>
    refine ⟨fun address => do
      let skip ← write (.jump 0)
      patch address (.jumpIf (← here))
      alternative.compile
      patch skip (.jump (← here)), ?_⟩
    simp [Task.compile, Part.compile, Stmt.compile, CompileM.branch, forward]
  | alternative =>
    refine ⟨fun skip => do patch skip (.jump (← here)), ?_⟩
    simp [Task.compile, Part.compile, Stmt.compile, CompileM.branch]
  | loop =>
    exact ⟨fun _ => pure (), by simp [Task.compile, Part.compile, Stmt.compile, compilePasses]⟩
  | block => exact ⟨fun _ => pure (), by simp [Task.compile, Part.compile, Stmt.compile]⟩
  | elseBlock => exact ⟨fun _ => pure (), by simp [Task.compile, Part.compile, Else.compile]⟩
  | elseCond =>
    exact ⟨fun _ => pure (), by simp [Task.compile, Part.compile, Stmt.compile, Else.compile]⟩
  | content => exact ⟨closeBlock, rfl⟩
  | @first first test after body =>
    refine ⟨fun _ => do
      let start ← here
      test.compile
      emit .not
      forward .jumpIf do
        inBlock (Stmt.compileAll body)
        after.compile
        emit (.jump start), ?_⟩
    simp [Task.compile, Part.compile, compilePasses]
  | @condition first test after body =>
    refine ⟨fun start => do
      emit .not
      forward .jumpIf do
        inBlock (Stmt.compileAll body)
        after.compile
        emit (.jump start), ?_⟩
    simp [Task.compile, Part.compile, compilePasses]
  | @pass first test after body =>
    refine ⟨fun loop => do
      after.compile
      emit (.jump loop.1)
      patch loop.2 (.jumpIf (← here)), ?_⟩
    simp [Task.compile, Part.compile, compilePasses, forward]
  | after =>
    refine ⟨fun loop => do
      emit (.jump loop.1)
      patch loop.2 (.jumpIf (← here)), ?_⟩
    simp [Task.compile, Part.compile, compilePasses, forward]

/-! ## Tasks on the way -/

/-- The slots that the compiler keeps reserved while it works on a task that it starts in a session.
Only a block has one, for its flag. -/
def Task.flags (σ : Session) : Task → List (Nat × Int)
  | .part (.block _) => [(σ.frames.depth, σ.frames.current.next)]
  | _ => []

/-- When the compiler works on the task from the session on, it comes to another task in another
session. The slots are those reserved for the tasks on the way to it. -/
inductive Task.Reaches (task : Task) (σ : Session) : Task → Session → List (Nat × Int) → Prop
  | start : Reaches task σ task σ []
  | call {sub next τ τ' flags} {α : Type} {before : CompileM α} {a : α}
      (reached : Reaches task σ sub τ flags) (calls : sub.Calls before next)
      (done : before τ = .ok a τ') : Reaches task σ next τ' (sub.flags τ ++ flags)

theorem Task.Reaches.compiles {task sub : Task} {σ σ' τ : Session} {flags : List (Nat × Int)}
    (reached : task.Reaches σ sub τ flags) (compiles : task.compile σ = .ok () σ') :
    ∃ τ', sub.compile τ = .ok () τ' := by
  induction reached with
  | start => exact ⟨σ', compiles⟩
  | call _ calls done ih =>
    obtain ⟨_, compiles⟩ := ih
    obtain ⟨rest, compile_eq⟩ := calls.compile_eq
    rw [compile_eq, bind_ok done, bind_eq_ok] at compiles
    obtain ⟨_, τ', compiles, -⟩ := compiles
    exact ⟨τ', compiles⟩

/-- The compiler comes to the task in the session, when it compiles the program. -/
def Program.Visits (program : Program) (task : Task) (σ : Session) : Prop :=
  ∃ flags, Task.Reaches (.part (.stmts program)) (Session.initial.starting program) task σ flags

section Visits

variable {program : Program} {task : Task} {σ : Session}

theorem Program.Visits.start :
    program.Visits (.part (.stmts program)) (Session.initial.starting program) :=
  ⟨[], .start⟩

theorem Program.Visits.call {sub : Task} {τ : Session} {α : Type} {before : CompileM α} {a : α}
    (visited : program.Visits task σ) (calls : task.Calls before sub)
    (done : before σ = .ok a τ) : program.Visits sub τ := by
  obtain ⟨_, reached⟩ := visited
  exact ⟨_, reached.call calls done⟩

/-- Of a program that compiles, **every task succeeds**. -/
theorem Program.Visits.compiles {code : Code} (visited : program.Visits task σ)
    (compiled : NestLang.compile program = .ok code) : ∃ σ', task.compile σ = .ok () σ' := by
  obtain ⟨_, reached⟩ := visited
  obtain ⟨_, done, -⟩ := compileAll_of_compile compiled
  exact reached.compiles done

end Visits

/-! ## Where a task finds its code -/

theorem Part.Emits.ctx_eq {ctx ctx₁ ctx₂ : Ctx} {a : Nat} {part : Part} {sites₁ sites₂ : List Site}
    (h₁ : Part.Emits ctx a part sites₁ ctx₁) (h₂ : Part.Emits ctx a part sites₂ ctx₂) :
    ctx₁ = ctx₂ := by
  induction h₁ generalizing sites₂ ctx₂ with
  | cons head _ ih₁ ih₂ =>
    cases h₂ with
    | cons head' tail' =>
      obtain rfl := ih₁ head'
      rw [head'.length_eq, ← head.length_eq] at tail'
      exact ih₂ tail'
  | passes header condition pass _ ih₁ _ ih₂ =>
    cases h₂ with
    | passes header' condition' pass' update' =>
      obtain rfl := ih₁ header'
      rw [header'.length_eq, ← header.length_eq, condition'.length_eq, ← condition.length_eq,
        pass'.length_eq, ← pass.length_eq] at update'
      exact ih₂ update'
  | _ =>
    cases h₂
    rfl

section After

variable {ctx ctx' : Ctx} {σ τ : Session} {sites : List Site}

theorem Stmt.shows_of_compile {s : Stmt} (hσ : σ.Shows ctx) (done : s.compile σ = .ok () τ)
    (emits : Part.Emits ctx σ.buffer.code.size (.stmt s) sites ctx') :
    τ.Shows ctx' ∧ τ.buffer.code.size = σ.buffer.code.size + sites.length := by
  obtain ⟨sites', ctx₂, emits', shows, buffer, -⟩ := s.emits_of_compile hσ done
  refine ⟨emits.ctx_eq emits' ▸ shows, ?_⟩
  rw [buffer, Buffer.size_written, Site.length_code, emits'.length_eq, emits.length_eq]

theorem Expr.shows_of_compile {e : Expr} {t : Nat} (hσ : σ.Shows ctx)
    (done : e.compile σ = .ok () τ) (emits : Expr.Emits ctx t e sites) :
    τ.Shows ctx ∧ τ.buffer.code.size = σ.buffer.code.size + sites.length := by
  obtain ⟨sites', emits', rfl⟩ := e.emits_of_compile (t := t) done hσ.atEnd hσ.scopes
  refine ⟨hσ.written _ _, ?_⟩
  rw [Buffer.size_written, Site.length_code, emits'.length_eq, emits.length_eq]

theorem Expr.shows_of_test {test : Expr} {α : Type} {rest : Nat → CompileM α} {a : α} {τ' : Session}
    (hσ : σ.Shows ctx)
    (done : (do test.compile; emit .not; let jump ← write (.jumpIf 0); rest jump) σ = .ok a τ')
    (emits : Expr.Emits ctx 0 test sites) :
    ∃ jump τ, rest jump τ = .ok a τ' ∧ τ.Shows ctx ∧
      τ.buffer.code.size = σ.buffer.code.size + sites.length + 2 := by
  rw [bind_eq_ok] at done
  obtain ⟨_, τ, compiled, done⟩ := done
  obtain ⟨shows, size⟩ := test.shows_of_compile hσ compiled emits
  rw [bind_ok (emit_eq shows.atEnd _), bind_ok (write_eq (Buffer.atEnd_written _ _) _)] at done
  refine ⟨_, _, done, shows.written _ _, ?_⟩
  simp [size]

theorem Stmt.shows_of_inBlock {body : List Stmt} (hσ : σ.Shows ctx)
    (done : inBlock (Stmt.compileAll body) σ = .ok () τ)
    (emits : Part.Emits ctx σ.buffer.code.size (.block (.stmts body)) sites ctx) :
    τ.Shows ctx ∧ τ.buffer.code.size = σ.buffer.code.size + sites.length := by
  obtain ⟨sites', emits', shows, buffer, -⟩ :=
    inBlock_emits hσ (Stmt.emitsAll_of_compile body) done
  refine ⟨shows, ?_⟩
  rw [buffer, Buffer.size_written, Site.length_code, emits'.length_eq, emits.length_eq]

theorem Stmt.shows_of_branch {body : List Stmt} {skip : Nat} (hσ : σ.Shows ctx)
    (done : forward .jumpIf (do inBlock (Stmt.compileAll body); write (.jump 0)) σ = .ok skip τ)
    (emits : Part.Emits ctx (σ.buffer.code.size + 1) (.block (.stmts body)) sites ctx) :
    τ.Shows ctx ∧ τ.buffer.code.size = σ.buffer.code.size + 1 + sites.length + 1 := by
  obtain ⟨τ₁, done, patched⟩ := forward_eq_ok hσ.atEnd done
  rw [bind_eq_ok] at done
  obtain ⟨_, τ₂, block, done⟩ := done
  obtain ⟨sites', emits', shows, buffer, -⟩ :=
    inBlock_emits (hσ.written _ _) (Stmt.emitsAll_of_compile body) block
  rw [write_eq shows.atEnd] at done
  cases done
  rw [patched (Site.code sites' ++ [.jump 0]) (by simp [buffer])]
  refine ⟨shows.written _ _, ?_⟩
  simp only [Buffer.size_written, List.length_cons, List.length_append, Site.length_code,
    List.length_nil, emits'.length_eq, emits.length_eq]
  omega

end After

/-- The code of the task stands in the chart where the session is about to write it. -/
def Chart.Expects (c : Chart) (σ : Session) : Task → Prop
  | .part p => ∃ ctx sites ctx', σ.Shows ctx ∧
    Part.Emits ctx σ.buffer.code.size p sites ctx' ∧
    c.Shows σ.buffer.code.size (ctx'.point 0) sites
  | .expr e => ∃ ctx t sites, σ.Shows ctx ∧ Expr.Emits ctx t e sites ∧
    c.Shows σ.buffer.code.size (ctx.point (t + 1)) sites
  | .exprs es => ∃ ctx t sites, σ.Shows ctx ∧ Expr.EmitsAll ctx t es sites ∧
    c.Shows σ.buffer.code.size (ctx.point (t + es.length)) sites

namespace Chart

variable {c : Chart} {σ τ : Session}

theorem Expects.of_part {ctx ctx' : Ctx} {a : Nat} {part : Part} {sites : List Site}
    (shows : τ.Shows ctx ∧ τ.buffer.code.size = a) (emits : Part.Emits ctx a part sites ctx')
    (stands : c.Shows a (ctx'.point 0) sites) : c.Expects τ (.part part) := by
  obtain ⟨shows, rfl⟩ := shows
  exact ⟨ctx, sites, ctx', shows, emits, stands⟩

theorem Expects.of_expr {ctx : Ctx} {a t : Nat} {e : Expr} {sites : List Site}
    (shows : τ.Shows ctx ∧ τ.buffer.code.size = a) (emits : Expr.Emits ctx t e sites)
    (stands : c.Shows a (ctx.point (t + 1)) sites) : c.Expects τ (.expr e) := by
  obtain ⟨shows, rfl⟩ := shows
  exact ⟨ctx, t, sites, shows, emits, stands⟩

theorem Expects.expr {e : Expr} {sub : Task} {α : Type} {before : CompileM α} {a : α}
    (h : c.Expects σ (.expr e)) (calls : Task.Calls (.expr e) before sub)
    (done : before σ = .ok a τ) : c.Expects τ sub := by
  obtain ⟨ctx, t, sites, shows, emits, stands⟩ := h
  cases calls with
  | @operand op e =>
    obtain ⟨-, rfl⟩ := pure_eq_ok.1 done
    cases emits with
    | unary operand =>
      refine .of_expr ⟨shows, rfl⟩ operand (stands.left ?_)
      cases op with
      | plus => exact stands.right
      | not | minus => exact point?_of_site stands.right.1
  | left =>
    obtain ⟨-, rfl⟩ := pure_eq_ok.1 done
    cases emits with
    | binary left right =>
      have operands := stands.left (point?_of_site stands.right.1)
      refine .of_expr ⟨shows, rfl⟩ left (operands.left ?_)
      exact right.point (by rw [List.append_nil]; exact operands.right)
  | right =>
    cases emits with
    | binary left right =>
      have operands := stands.left (point?_of_site stands.right.1)
      exact .of_expr (Expr.shows_of_compile shows done left) right operands.right
  | arguments =>
    obtain ⟨rfl, -⟩ := callTarget_eq_ok done
    cases emits with
    | call resolved operands =>
      exact ⟨ctx, t, _, shows, operands, stands.left (point?_of_site stands.right.1)⟩

theorem Expects.exprs {es : List Expr} {sub : Task} {α : Type} {before : CompileM α} {a : α}
    (h : c.Expects σ (.exprs es)) (calls : Task.Calls (.exprs es) before sub)
    (done : before σ = .ok a τ) : c.Expects τ sub := by
  obtain ⟨ctx, t, sites, shows, emits, stands⟩ := h
  cases emits with
  | nil => cases calls
  | @cons _ e es sites₁ sites₂ head tail =>
    rw [List.length_cons, Nat.add_comm es.length, ← Nat.add_assoc] at stands
    cases calls with
    | argument =>
      obtain ⟨-, rfl⟩ := pure_eq_ok.1 done
      refine .of_expr ⟨shows, rfl⟩ head (stands.left ?_)
      exact tail.point (by rw [List.append_nil]; exact stands.right) stands.right.next
    | others =>
      obtain ⟨shows, size⟩ := Expr.shows_of_compile shows done head
      exact ⟨ctx, t + 1, sites₂, shows, tail, size ▸ stands.right⟩

theorem Expects.stmts {body : List Stmt} {sub : Task} {α : Type} {before : CompileM α} {a : α}
    (h : c.Expects σ (.part (.stmts body))) (calls : Task.Calls (.part (.stmts body)) before sub)
    (done : before σ = .ok a τ) : c.Expects τ sub := by
  obtain ⟨ctx, sites, ctx', shows, emits, stands⟩ := h
  cases emits with
  | nil => cases calls
  | cons head tail =>
    cases calls with
    | head =>
      obtain ⟨-, rfl⟩ := pure_eq_ok.1 done
      refine .of_part ⟨shows, rfl⟩ head (stands.left ?_)
      exact tail.point (by rw [List.append_nil]; exact stands.right) stands.right.next
    | tail => exact .of_part (Stmt.shows_of_compile shows done head) tail stands.right

theorem Expects.cond {test : Expr} {body : List Stmt} {alternative : Else} {sub : Task} {α : Type}
    {before : CompileM α} {a : α} (h : c.Expects σ (.part (.stmt (.cond test body alternative))))
    (calls : Task.Calls (.part (.stmt (.cond test body alternative))) before sub)
    (done : before σ = .ok a τ) : c.Expects τ sub := by
  obtain ⟨ctx, sites, ctx', shows, emits, stands⟩ := h
  cases emits with
  | @cond _ _ _ _ _ sites₁ _ _ condition branch other =>
    have behind := stands.right.2.2
    cases calls with
    | test =>
      obtain ⟨-, rfl⟩ := pure_eq_ok.1 done
      exact .of_expr ⟨shows, rfl⟩ condition (stands.left (point?_of_site stands.right.1))
    | branch =>
      rw [← bind_pure (write _)] at done
      obtain ⟨_, _, done, shows, size⟩ := Expr.shows_of_test shows done condition
      obtain ⟨-, rfl⟩ := pure_eq_ok.1 done
      exact .of_part ⟨shows, size⟩ branch (behind.left (point?_of_site behind.right.1))
    | alternative =>
      rw [bind_eq_ok] at done
      obtain ⟨_, τ₁, compiled, done⟩ := done
      obtain ⟨shows₁, size₁⟩ := Expr.shows_of_compile shows compiled condition
      rw [bind_ok (emit_eq shows₁.atEnd _)] at done
      have size₂ : (τ₁.buffer.written [.not]).code.size + 1 =
          σ.buffer.code.size + sites₁.length + 2 := by
        simp [size₁]
      rw [← size₂] at branch
      obtain ⟨shows, size⟩ := Stmt.shows_of_branch (shows₁.written _ _) done branch
      exact .of_part ⟨shows, by rw [size, size₂]⟩ other behind.right.2

theorem Expects.stmt {s : Stmt} {sub : Task} {α : Type} {before : CompileM α} {a : α}
    (h : c.Expects σ (.part (.stmt s))) (calls : Task.Calls (.part (.stmt s)) before sub)
    (done : before σ = .ok a τ) : c.Expects τ sub := by
  obtain ⟨ctx, sites, ctx', shows, emits, stands⟩ := h
  cases s with
  | cond test body alternative =>
    exact Expects.cond ⟨ctx, sites, ctx', shows, emits, stands⟩ calls done
  | declare name e =>
    cases calls
    rw [bind_ok (level_eq _), bind_ok (reserve_eq _), bind_ok (emit_eq shows.atEnd _),
      bind_ok (declare_eq _ _ _), pure_eq_ok] at done
    obtain ⟨-, rfl⟩ := done
    cases emits with
    | declare value =>
      refine .of_expr ⟨shows.declared name σ.buffer [.lit 0], Buffer.size_written _ _⟩ value ?_
      exact stands.2.left (point?_of_site stands.2.right.1)
  | assign name e =>
    cases calls
    obtain ⟨rfl, -⟩ := slotOf_eq_ok done
    cases emits with
    | assign resolved slot value =>
      exact .of_expr ⟨shows, rfl⟩ value (stands.left (point?_of_site stands.right.1))
  | function name names body =>
    cases calls
    rw [bind_ok (write_eq shows.atEnd _), bind_ok (openFunction_eq _ _ _), pure_eq_ok] at done
    obtain ⟨-, rfl⟩ := done
    cases emits with
    | function content =>
      have size : (σ.buffer.written [.jump 0]).code.size = σ.buffer.code.size + 1 :=
        Buffer.size_written _ _
      refine .of_part ⟨?_, size⟩ content (stands.2.left (point?_of_site stands.2.right.1))
      rw [← size]
      exact (shows.written σ.buffer [.jump 0]).openedFunction
  | ret value =>
    cases calls
    obtain ⟨-, rfl⟩ := pure_eq_ok.1 done
    cases emits with
    | retValue value =>
      exact .of_expr ⟨shows, rfl⟩ value (stands.left (point?_of_site stands.right.1))
  | expr e =>
    cases calls
    obtain ⟨-, rfl⟩ := pure_eq_ok.1 done
    cases emits with
    | expr value =>
      exact .of_expr ⟨shows, rfl⟩ value (stands.left (point?_of_site stands.right.1))
  | loop first test after body =>
    cases calls
    obtain ⟨-, rfl⟩ := pure_eq_ok.1 done
    cases emits with
    | loop frame => exact .of_part ⟨shows, rfl⟩ frame stands
  | block body =>
    cases calls
    obtain ⟨-, rfl⟩ := pure_eq_ok.1 done
    cases emits with
    | blockStmt content => exact .of_part ⟨shows, rfl⟩ content stands
  | empty => cases calls

theorem Expects.passes {first after : Stmt} {test : Expr} {body : List Stmt} {sub : Task}
    {α : Type} {before : CompileM α} {a : α}
    (h : c.Expects σ (.part (.passes first test after body)))
    (calls : Task.Calls (.part (.passes first test after body)) before sub)
    (done : before σ = .ok a τ) : c.Expects τ sub := by
  obtain ⟨ctx, sites, ctx', shows, emits, stands⟩ := h
  cases emits with
  | @passes _ _ _ _ _ _ sites₁ ctx₁ sites₂ sites₃ sites₄ _ header condition pass update =>
    have start := condition.point stands.right
    have behind := stands.right.right.2.2
    have back := point?_of_site behind.right.right.1
    cases calls with
    | first =>
      obtain ⟨-, rfl⟩ := pure_eq_ok.1 done
      exact .of_part ⟨shows, rfl⟩ header (stands.left start)
    | condition =>
      rw [bind_eq_ok] at done
      obtain ⟨_, τ₁, compiled, done⟩ := done
      cases done
      refine .of_expr (Stmt.shows_of_compile shows compiled header) condition ?_
      exact stands.right.left (point?_of_site stands.right.right.1)
    | pass =>
      rw [bind_eq_ok] at done
      obtain ⟨_, τ₁, compiled, done⟩ := done
      obtain ⟨shows, size⟩ := Stmt.shows_of_compile shows compiled header
      rw [bind_ok (here_eq _)] at done
      obtain ⟨_, _, done, shows, size'⟩ := Expr.shows_of_test shows done condition
      obtain ⟨-, rfl⟩ := pure_eq_ok.1 done
      refine .of_part ⟨shows, by rw [size', size]⟩ pass (behind.left ?_)
      exact update.point behind.right back
    | after =>
      rw [bind_eq_ok] at done
      obtain ⟨_, τ₁, compiled, done⟩ := done
      obtain ⟨shows, size⟩ := Stmt.shows_of_compile shows compiled header
      rw [bind_ok (here_eq _)] at done
      obtain ⟨_, τ₂, done, shows, size'⟩ := Expr.shows_of_test shows done condition
      rw [bind_eq_ok] at done
      obtain ⟨_, τ₃, block, done⟩ := done
      obtain ⟨-, rfl⟩ := pure_eq_ok.1 done
      rw [size] at size'
      rw [← size'] at pass
      obtain ⟨shows, size''⟩ := Stmt.shows_of_inBlock shows block pass
      exact .of_part ⟨shows, by rw [size'', size']⟩ update (behind.right.left back)

/-- **A task that is called finds its code in the chart** where its caller does. -/
theorem Expects.call {task sub : Task} {α : Type} {before : CompileM α} {a : α}
    (h : c.Expects σ task) (calls : task.Calls before sub) (done : before σ = .ok a τ) :
    c.Expects τ sub := by
  cases task with
  | expr e => exact h.expr calls done
  | exprs es => exact h.exprs calls done
  | part p =>
    cases p with
    | stmt s => exact h.stmt calls done
    | stmts body => exact h.stmts calls done
    | passes first test after body => exact h.passes calls done
    | otherwise alternative =>
      obtain ⟨ctx, sites, ctx', shows, emits, stands⟩ := h
      cases calls with
      | elseBlock =>
        obtain ⟨-, rfl⟩ := pure_eq_ok.1 done
        cases emits with
        | elseBlock content => exact .of_part ⟨shows, rfl⟩ content stands
      | elseCond =>
        obtain ⟨-, rfl⟩ := pure_eq_ok.1 done
        cases emits with
        | elseCond content => exact .of_part ⟨shows, rfl⟩ content stands
    | block content =>
      obtain ⟨ctx, sites, ctx', shows, emits, stands⟩ := h
      cases calls
      rw [openBlock_eq shows.atEnd] at done
      cases done
      cases emits with
      | @block _ _ _ sites inner body =>
        have inside : c.Shows (σ.buffer.code.size + 5) (ctx.point 0)
          (sites ++ (inner.closeSites ++ [ctx.site 2 .pop, ctx.site 1 .pop])) := stands.2.2.2.2.2
        refine .of_part ⟨shows.openedBlock _, Buffer.size_written _ _⟩ body (inside.left ?_)
        exact point?_of_site inside.right.1

theorem Expects.reaches {c : Chart} {task sub : Task} {σ τ : Session} {flags : List (Nat × Int)}
    (expects : c.Expects σ task) (reached : task.Reaches σ sub τ flags) : c.Expects τ sub := by
  induction reached with
  | start => exact expects
  | call _ calls done ih => exact ih.call calls done

end Chart

/-- **Every task finds its code** in the chart of the program. -/
theorem Program.Visits.expects {program : Program} {c : Chart} {task : Task} {σ : Session}
    {ctx : Ctx} {sites : List Site} (visited : program.Visits task σ)
    (emits : Part.Emits .initial 5 (.stmts program) sites ctx)
    (stands : c.Shows 5 (ctx.point 0) sites) : c.Expects σ task := by
  obtain ⟨_, reached⟩ := visited
  have whole : c.Expects (Session.initial.starting program) (.part (.stmts program)) :=
    .of_part ⟨Session.shows_starting program, rfl⟩ emits stands
  exact whole.reaches reached

end NestLang
