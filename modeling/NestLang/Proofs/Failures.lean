import NestLang.Proofs.Verdict
import NestLang.Proofs.Visits

/-!
# Where a compilation fails

A compilation fails where a name is used against the rules, at whatever depth, and the session it
leaves is the one in which the compiler came to that use.

* `Task.Reaches.fails`: a task that fails makes the tasks fail that have led to it.
* `Task.FailsAt`: a task that fails leads to one that fails before anything is done.
* `Program.failsAt`: **every failure is one of these.**
-/

namespace NestLang

open CompileM

/-! ## What has led to a task -/

theorem Task.Reaches.of_call {task sub last : Task} {σ σ' τ : Session} {α : Type}
    {before : CompileM α} {a : α} {flags : List (Nat × Int)} (calls : task.Calls before sub)
    (done : before σ = .ok a σ') (reached : sub.Reaches σ' last τ flags) :
    task.Reaches σ last τ (flags ++ task.flags σ) := by
  induction reached with
  | start =>
    have called := Reaches.call .start calls done
    rwa [List.append_nil] at called
  | call _ calls done ih =>
    rw [List.append_assoc]
    exact .call ih calls done

/-- **A task that fails makes the tasks fail that have led to it.** -/
theorem Task.Reaches.fails {task sub : Task} {σ τ τ' : Session} {flags : List (Nat × Int)}
    {e : CompileError} (reached : task.Reaches σ sub τ flags)
    (failed : sub.compile τ = .error e τ') : task.compile σ = .error e τ' := by
  induction reached with
  | start => exact failed
  | call _ calls done ih =>
    obtain ⟨rest, compile_eq⟩ := calls.compile_eq
    apply ih
    rw [compile_eq, bind_ok done, bind_run, failed]

/-! ## Actions that do not fail by themselves -/

namespace CompileM

variable {α β : Type} {σ τ : Session} {e : CompileError} {x : CompileM α} {f : α → CompileM β}

/-- The action fails only if a level is missing. -/
def Firm (x : CompileM α) : Prop := ∀ σ e τ, x σ = .error e τ → ∃ kind, e = .levelMissing kind

theorem Quiet.firm (h : Quiet x) : Firm x := by
  intro σ e τ failed
  obtain ⟨a, σ', done, -⟩ := h σ
  rw [done] at failed
  cases failed

theorem Firm.bind (first : Firm x) (rest : ∀ a, Firm (f a)) : Firm (x >>= f) := by
  intro σ e τ failed
  rcases bind_eq_error.1 failed with failed | ⟨a, σ', -, failed⟩
  · exact first σ e τ failed
  · exact rest a σ' e τ failed

theorem firm_pure (a : α) : Firm (pure a : CompileM α) :=
  Quiet.firm fun _ => ⟨_, _, rfl, rfl, rfl⟩

theorem firm_emit (i : Instr) : Firm (emit i) := (quiet_emit i).firm

theorem firm_write (i : Instr) : Firm (write i) := (quiet_write i).firm

theorem firm_land (address : Nat) (jump : Nat → Instr) :
    Firm (do patch address (jump (← here))) :=
  Quiet.firm fun _ => ⟨_, _, rfl, rfl, rfl⟩

theorem firm_closeLevel (kind : LevelKind) : Firm (closeLevel kind) := by
  rintro ⟨b, scopes, ⟨current, outer⟩, log⟩ e τ failed
  cases outer with
  | nil =>
    cases failed
    exact ⟨kind, rfl⟩
  | cons outer rest => cases failed

theorem firm_closeBlock (skip : Nat) : Firm (closeBlock skip) := by
  refine (Quiet.firm fun _ => ⟨_, _, rfl, rfl, rfl⟩).bind fun inner => ?_
  refine (firm_emit _).bind fun _ => (firm_emit _).bind fun _ => (firm_emit _).bind fun _ => ?_
  refine (firm_emit _).bind fun _ => (firm_closeLevel _).bind fun _ => ?_
  intro σ e τ failed
  cases failed

theorem firm_openBlock : Firm openBlock := by
  intro σ e τ failed
  cases failed

theorem firm_openFunction (name : String) (names : List String) :
    Firm (openFunction name names) := by
  intro σ e τ failed
  rw [openFunction_eq] at failed
  cases failed

end CompileM

/-! ## Names -/

/-- The action fails without having done anything. -/
def CompileM.FailsAtOnce {α : Type} (x : CompileM α) : Prop :=
  ∀ σ e τ, x σ = .error e τ → σ = τ

section Names

variable {α : Type} {name : String}

theorem failsAtOnce_pure (a : α) : FailsAtOnce (pure a : CompileM α) := by
  intro σ e τ failed
  cases failed

theorem failsAtOnce_throw (e : CompileError) : FailsAtOnce (throw e : CompileM α) := by
  intro σ e' τ failed
  cases failed
  rfl

theorem failsAtOnce_resolve {f : Option Decl → CompileM α}
    (h : ∀ meaning, FailsAtOnce (f meaning)) : FailsAtOnce (CompileM.resolve? name >>= f) := by
  intro σ e τ failed
  rw [bind_ok (resolve?_eq name σ)] at failed
  exact h _ σ e τ failed

theorem failsAtOnce_slotOf (function undeclared : CompileError) (name : String) :
    FailsAtOnce (slotOf function undeclared name) := by
  refine failsAtOnce_resolve fun meaning => ?_
  rcases meaning with _ | (_ | _ | _)
  · exact failsAtOnce_throw _
  · exact failsAtOnce_pure _
  · exact failsAtOnce_pure _
  · exact failsAtOnce_throw _

theorem failsAtOnce_callTarget (name : String) (given : Nat) :
    FailsAtOnce (callTarget name given) := by
  refine failsAtOnce_resolve fun meaning => ?_
  rcases meaning with _ | (_ | _ | ⟨level, entry, params⟩)
  case some.func =>
    by_cases same : given = params
    · simp only [if_pos same]
      exact failsAtOnce_pure _
    · simp only [if_neg same]
      exact failsAtOnce_throw _
  all_goals exact failsAtOnce_throw _

theorem failsAtOnce_postTarget (op : PostOp) (operand : Expr) :
    FailsAtOnce (postTarget op operand) := by
  cases operand with
  | var name =>
    refine failsAtOnce_resolve fun meaning => ?_
    rcases meaning with _ | (_ | _ | _)
    · exact failsAtOnce_throw _
    · exact failsAtOnce_pure _
    · exact failsAtOnce_throw _
    · exact failsAtOnce_throw _
  | _ => exact failsAtOnce_throw _

end Names

/-! ## Failures -/

/-- From the task and the session the compiler comes to a task that fails at once, in the session
that is left. -/
def Task.FailsAt (task : Task) (σ : Session) (e : CompileError) (τ : Session) : Prop :=
  ∃ last flags, task.Reaches σ last τ flags ∧ last.compile τ = .error e τ

section Failures

variable {e : CompileError} {σ τ : Session} {task sub : Task} {α β : Type}

theorem Task.FailsAt.of_call {before : CompileM α} {a : α} {σ' : Session}
    (calls : task.Calls before sub) (done : before σ = .ok a σ') (h : sub.FailsAt σ' e τ) :
    task.FailsAt σ e τ := by
  obtain ⟨last, flags, reached, failed⟩ := h
  exact ⟨last, _, reached.of_call calls done, failed⟩

/-- **The failure of an action that works on a task** lies in the task or before it. -/
theorem Task.Calls.failsAt {before : CompileM α} {rest : α → CompileM β}
    (calls : task.Calls before sub) (names : ∀ kind, e ≠ .levelMissing kind)
    (firm : ∀ a, Firm (rest a))
    (inside : ∀ σ', sub.compile σ' = .error e τ → sub.FailsAt σ' e τ)
    (failed : (before >>= fun a => sub.compile >>= fun _ => rest a) σ = .error e τ) :
    before σ = .error e τ ∨ task.FailsAt σ e τ := by
  rcases bind_eq_error.1 failed with failed | ⟨a, σ', done, failed⟩
  · exact .inl failed
  · rcases bind_eq_error.1 failed with failed | ⟨_, σ'', -, failed⟩
    · exact .inr (.of_call calls done (inside σ' failed))
    · obtain ⟨kind, rfl⟩ := firm a σ'' e τ failed
      exact absurd rfl (names kind)

theorem Task.Calls.failsAt_first {rest : CompileM β}
    (calls : task.Calls (pure () : CompileM Unit) sub)
    (names : ∀ kind, e ≠ .levelMissing kind) (firm : Firm rest)
    (inside : ∀ σ', sub.compile σ' = .error e τ → sub.FailsAt σ' e τ)
    (failed : (sub.compile >>= fun _ => rest) σ = .error e τ) : task.FailsAt σ e τ := by
  rcases calls.failsAt names (fun _ => firm) inside failed with failed | fails
  · cases failed
  · exact fails

theorem Task.failsAt_of_firm {x : CompileM α} {σ' : Session}
    (names : ∀ kind, e ≠ .levelMissing kind) (firm : Firm x) (failed : x σ' = .error e τ) :
    task.FailsAt σ e τ := by
  obtain ⟨kind, rfl⟩ := firm σ' e τ failed
  exact absurd rfl (names kind)

theorem Task.failsAt_self {x : CompileM α} (atOnce : FailsAtOnce x)
    (failed : task.compile σ = .error e τ) (looked : x σ = .error e τ) : task.FailsAt σ e τ := by
  obtain rfl := atOnce σ e τ looked
  exact ⟨task, [], .start, failed⟩

theorem Task.failsAt_lookup {x : CompileM α} {rest : α → CompileM Unit}
    (names : ∀ kind, e ≠ .levelMissing kind) (atOnce : FailsAtOnce x) (firm : ∀ a, Firm (rest a))
    (compile_eq : task.compile = x >>= rest) (failed : task.compile σ = .error e τ) :
    task.FailsAt σ e τ := by
  have failed' := failed
  rw [compile_eq, bind_eq_error] at failed'
  rcases failed' with looked | ⟨a, σ', -, failed'⟩
  · exact Task.failsAt_self atOnce failed looked
  · exact Task.failsAt_of_firm names (firm a) failed'

mutual

/-- **The failure of an expression.** -/
theorem Expr.failsAt (names : ∀ kind, e ≠ .levelMissing kind) : ∀ (x : Expr) (σ : Session),
    x.compile σ = .error e τ → Task.FailsAt (.expr x) σ e τ
  | .int _, σ, failed => Task.failsAt_of_firm names (firm_emit _) failed
  | .bool _, σ, failed => Task.failsAt_of_firm names (firm_emit _) failed
  | .var name, σ, failed =>
    Task.failsAt_lookup names (failsAtOnce_slotOf _ _ name) (fun _ => firm_emit _) rfl failed
  | .call name args, σ, failed => by
    have failed' := failed
    rw [Expr.compile] at failed'
    rcases Task.Calls.arguments.failsAt names (fun _ => firm_emit _)
      (Expr.failsAtAll names args) failed' with looked | fails
    · exact Task.failsAt_self (failsAtOnce_callTarget name _) failed looked
    · exact fails
  | .unary op operand, σ, failed => by
    rw [Expr.compile] at failed
    exact Task.Calls.operand.failsAt_first names op.quiet_compile.firm (operand.failsAt names)
      failed
  | .binary op left right, σ, failed => by
    rw [Expr.compile] at failed
    rcases Task.Calls.right.failsAt names (fun _ => firm_emit (.binary op))
      (right.failsAt names) failed with failed | fails
    · exact .of_call .left rfl (left.failsAt names σ failed)
    · exact fails
  | .post op operand, σ, failed => by
    refine Task.failsAt_lookup names (failsAtOnce_postTarget op operand) (fun _ => ?_) rfl failed
    exact (firm_emit _).bind fun _ => (firm_emit _).bind fun _ => (firm_emit _).bind fun _ =>
      (firm_emit _).bind fun _ => firm_emit _

theorem Expr.failsAtAll (names : ∀ kind, e ≠ .levelMissing kind) :
    ∀ (es : List Expr) (σ : Session),
      Expr.compileAll es σ = .error e τ → Task.FailsAt (.exprs es) σ e τ
  | [], σ, failed => by
    rw [Expr.compileAll] at failed
    cases failed
  | x :: es, σ, failed => by
    rw [Expr.compileAll, bind_eq_error] at failed
    rcases failed with failed | ⟨_, σ', done, failed⟩
    · exact .of_call .argument rfl (x.failsAt names σ failed)
    · exact .of_call .others done (Expr.failsAtAll names es σ' failed)

end

/-! ## Blocks, branches and loops -/

theorem Part.failsAt_block (content : Part) (names : ∀ kind, e ≠ .levelMissing kind)
    (inside : ∀ σ', content.compile σ' = .error e τ → Task.FailsAt (.part content) σ' e τ)
    (σ : Session) (failed : (Part.block content).compile σ = .error e τ) :
    Task.FailsAt (.part (.block content)) σ e τ := by
  rcases Task.Calls.content.failsAt names firm_closeBlock inside failed with failed | fails
  · exact Task.failsAt_of_firm names firm_openBlock failed
  · exact fails

theorem Stmt.failsAt_cond {test : Expr} {body : List Stmt} {alternative : Else}
    (names : ∀ kind, e ≠ .levelMissing kind)
    (hbody : ∀ σ', Stmt.compileAll body σ' = .error e τ → Task.FailsAt (.part (.stmts body)) σ' e τ)
    (hother : ∀ σ', alternative.compile σ' = .error e τ →
      Task.FailsAt (.part (.otherwise alternative)) σ' e τ)
    (failed : (Stmt.cond test body alternative).compile σ = .error e τ) :
    Task.FailsAt (.part (.stmt (.cond test body alternative))) σ e τ := by
  rw [Stmt.compile, branch, ← bind_assoc, ← bind_assoc] at failed
  rw [bind_assoc test.compile] at failed
  rcases Task.Calls.alternative.failsAt names (fun skip => firm_land skip .jump) hother failed
    with failed | fails
  · have split : (do
        test.compile
        emit .not
        forward .jumpIf do
          inBlock (Stmt.compileAll body)
          write (.jump 0)) = (do
        let address ← (do
          test.compile
          emit .not
          write (.jumpIf 0))
        inBlock (Stmt.compileAll body)
        let skip ← write (.jump 0)
        patch address (.jumpIf (← here))
        return skip) := by
      simp [forward]
    rw [split] at failed
    have firm (address : Nat) : Firm (do
        let skip ← write (.jump 0)
        patch address (.jumpIf (← here))
        return skip) := Quiet.firm fun _ => ⟨_, _, rfl, rfl, rfl⟩
    rcases Task.Calls.branch.failsAt names firm
      (Part.failsAt_block (.stmts body) names hbody) failed with failed | fails
    · exact Task.Calls.test.failsAt_first names ((firm_emit _).bind fun _ => firm_write _)
        (test.failsAt names) failed
    · exact fails
  · exact fails

theorem Part.failsAt_passes {first after : Stmt} {body : List Stmt} (test : Expr)
    (names : ∀ kind, e ≠ .levelMissing kind)
    (hfirst : ∀ σ', first.compile σ' = .error e τ → Task.FailsAt (.part (.stmt first)) σ' e τ)
    (hbody : ∀ σ', Stmt.compileAll body σ' = .error e τ → Task.FailsAt (.part (.stmts body)) σ' e τ)
    (hafter : ∀ σ', after.compile σ' = .error e τ → Task.FailsAt (.part (.stmt after)) σ' e τ)
    (σ : Session) (failed : compilePasses first test after body σ = .error e τ) :
    Task.FailsAt (.part (.passes first test after body)) σ e τ := by
  have split : compilePasses first test after body = (do
      let loop ← (do
        first.compile
        let start ← here
        test.compile
        emit .not
        let exit ← write (.jumpIf 0)
        inBlock (Stmt.compileAll body)
        return (start, exit))
      after.compile
      emit (.jump loop.1)
      patch loop.2 (.jumpIf (← here))) := by
    simp [compilePasses, forward]
  rw [split] at failed
  rcases Task.Calls.after.failsAt names
    (fun loop => (firm_emit _).bind fun _ => firm_land _ .jumpIf) hafter failed with failed | fails
  · have split : (do
        first.compile
        let start ← here
        test.compile
        emit .not
        let exit ← write (.jumpIf 0)
        inBlock (Stmt.compileAll body)
        return (start, exit)) = (do
        let loop ← (do
          first.compile
          let start ← here
          test.compile
          emit .not
          let exit ← write (.jumpIf 0)
          return (start, exit))
        inBlock (Stmt.compileAll body)
        return loop) := by
      simp
    rw [split] at failed
    rcases Task.Calls.pass.failsAt names firm_pure
      (Part.failsAt_block (.stmts body) names hbody) failed with failed | fails
    · rw [← bind_assoc] at failed
      rcases Task.Calls.condition.failsAt names (fun start => (firm_emit _).bind fun _ =>
        (firm_write _).bind fun exit => firm_pure (start, exit)) (test.failsAt names) failed
        with failed | fails
      · exact Task.Calls.first.failsAt_first names (Quiet.firm fun _ => ⟨_, _, rfl, rfl, rfl⟩)
          hfirst failed
      · exact fails
    · exact fails
  · exact fails

/-! ## Statements and programs -/

mutual

/-- **The failure of a statement.** -/
theorem Stmt.failsAt (names : ∀ kind, e ≠ .levelMissing kind) : ∀ (s : Stmt) (σ : Session),
    s.compile σ = .error e τ → Task.FailsAt (.part (.stmt s)) σ e τ
  | .declare name value, σ, failed => by
    have split : (Stmt.declare name value).compile = (do
        let slot ← (do
          let current ← level
          let slot ← reserve
          emit (.lit 0)
          declare name (.var current slot)
          return (current, slot))
        value.compile
        emit (.store slot.1 slot.2)) := by
      simp [Stmt.compile]
    rw [split] at failed
    rcases Task.Calls.declared.failsAt names (fun _ => firm_emit _) (value.failsAt names) failed
      with failed | fails
    · cases failed
    · exact fails
  | .assign name value, σ, failed => by
    have failed' := failed
    rw [Stmt.compile] at failed'
    rcases Task.Calls.assigned.failsAt names (fun _ => firm_emit _) (value.failsAt names) failed'
      with looked | fails
    · exact Task.failsAt_self (failsAtOnce_slotOf _ _ name) failed looked
    · exact fails
  | .function name params body, σ, failed => by
    have split : (Stmt.function name params body).compile = (do
        let opened ← (do
          let address ← write (.jump 0)
          let inner ← openFunction name params
          return (address, inner))
        Stmt.compileAll body
        emit (.lit 0)
        emit (.ret opened.2 params.length)
        closeLevel .function
        patch opened.1 (.jump (← here))) := by
      simp [Stmt.compile, inFunction_eq, forward]
    rw [split] at failed
    rcases Task.Calls.function.failsAt names (fun opened => (firm_emit _).bind fun _ =>
      (firm_emit _).bind fun _ => (firm_closeLevel _).bind fun _ => firm_land _ .jump)
      (Stmt.failsAtAll names body) failed with failed | fails
    · refine Task.failsAt_of_firm names ?_ failed
      exact (firm_write _).bind fun _ => (firm_openFunction _ _).bind fun _ => firm_pure _
    · exact fails
  | .ret none, σ, failed => by
    cases failed
  | .ret (some value), σ, failed => by
    rw [Stmt.compile] at failed
    exact Task.Calls.returned.failsAt_first names quiet_emitReturn.firm (value.failsAt names) failed
  | .cond test body alternative, σ, failed =>
    Stmt.failsAt_cond names (Stmt.failsAtAll names body) (alternative.failsAt names) failed
  | .loop first test after body, σ, failed => by
    rw [Stmt.compile] at failed
    have inside := Part.failsAt_passes test names (first.failsAt names)
      (Stmt.failsAtAll names body) (after.failsAt names)
    exact .of_call .loop rfl
      (Part.failsAt_block (.passes first test after body) names inside σ failed)
  | .block body, σ, failed => by
    rw [Stmt.compile] at failed
    exact .of_call .block rfl
      (Part.failsAt_block (.stmts body) names (Stmt.failsAtAll names body) σ failed)
  | .expr value, σ, failed => by
    rw [Stmt.compile] at failed
    exact Task.Calls.dropped.failsAt_first names (firm_emit _) (value.failsAt names) failed
  | .empty, σ, failed => by
    cases failed

theorem Stmt.failsAtAll (names : ∀ kind, e ≠ .levelMissing kind) :
    ∀ (body : List Stmt) (σ : Session),
      Stmt.compileAll body σ = .error e τ → Task.FailsAt (.part (.stmts body)) σ e τ
  | [], σ, failed => by
    cases failed
  | s :: rest, σ, failed => by
    rw [Stmt.compileAll, bind_eq_error] at failed
    rcases failed with failed | ⟨_, σ', done, failed⟩
    · exact .of_call .head rfl (s.failsAt names σ failed)
    · exact .of_call .tail done (Stmt.failsAtAll names rest σ' failed)

theorem Else.failsAt (names : ∀ kind, e ≠ .levelMissing kind) :
    ∀ (alternative : Else) (σ : Session),
      alternative.compile σ = .error e τ → Task.FailsAt (.part (.otherwise alternative)) σ e τ
  | .none, σ, failed => by
    cases failed
  | .block body, σ, failed => by
    rw [Else.compile] at failed
    exact .of_call .elseBlock rfl
      (Part.failsAt_block (.stmts body) names (Stmt.failsAtAll names body) σ failed)
  | .cond test body alternative, σ, failed => by
    rw [Else.compile, ← Stmt.compile] at failed
    exact .of_call .elseCond rfl
      (Stmt.failsAt_cond names (Stmt.failsAtAll names body) (alternative.failsAt names) failed)

end

/-- **In no session a level is missing** when it should be closed. -/
theorem Program.levelMissing_ne {program : Program}
    (failed : Program.compile program σ = .error e τ) (kind : LevelKind) :
    e ≠ .levelMissing kind := by
  have concurs := Program.compile_concurs program σ
  rw [failed] at concurs
  cases checked : Stmt.checkAll σ.scopes.kinds program with
  | ok _ =>
    rw [checked] at concurs
    exact concurs.elim
  | error _ =>
    rw [checked] at concurs
    exact concurs.2 kind

/-- **A program that fails, fails at one of its tasks**, and leaves the session in which the
compiler came to it. -/
theorem Program.failsAt {program : Program} (failed : Program.compile program σ = .error e τ) :
    Task.FailsAt (.part (.stmts program)) (σ.starting program) e τ := by
  have names := Program.levelMissing_ne failed
  exact Stmt.failsAtAll names program _ (Program.compile_eq_error.1 failed)

/-- **A program fails if one of its tasks does.** -/
theorem Program.fails {program : Program} {τ' : Session} {flags : List (Nat × Int)}
    (reached : Task.Reaches (.part (.stmts program)) (σ.starting program) task τ flags)
    (failed : task.compile τ = .error e τ') : Program.compile program σ = .error e τ' := by
  have inside : Stmt.compileAll program (σ.starting program) = .error e τ' := reached.fails failed
  exact Program.compile_eq_error.2 inside

end Failures

end NestLang
