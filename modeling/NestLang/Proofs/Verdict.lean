import NestLang.Check
import NestLang.Proofs.Emission

/-!
# Compile errors are violations of the rules for names

The compiler checks the use of names while it writes code. It accepts exactly the programs in which
the checker finds no violation, and reports the violation that the checker finds first.

* `Scopes.kinds`: what the checker knows of the names in scope.
* `Concurs`: an action of the compiler ends as a check does.
* `Expr.compile_concurs`, `Stmt.compile_concurs`: expressions and statements.
* `compile_iff_check`: **compiling a program ends as checking it does.**
-/

namespace NestLang

open CompileM

/-! ## Kinds of names -/

/-- The kind of what is declared. -/
def Decl.kind : Decl → Kind
  | .var _ _ => .var
  | .param _ _ => .param
  | .func _ _ params => .func params

/-- The kinds of the names of one level. -/
def Scope.kinds (scope : Scope Decl) : Scope Kind := scope.map fun d => (d.1, d.2.kind)

/-- The kinds of all names in scope. -/
def Scopes.kinds (s : Scopes Decl) : Scopes Kind := ⟨Scope.kinds s.current, s.outer.map Scope.kinds⟩

theorem Scope.lookup_kinds (scope : Scope Decl) (name : String) :
    (Scope.kinds scope).lookup name = (scope.lookup name).map Decl.kind := by
  induction scope with
  | nil => rfl
  | cons d scope ih =>
    change List.lookup name ((d.1, d.2.kind) :: Scope.kinds scope) = _
    rw [List.lookup_cons, List.lookup_cons, ih]
    cases name == d.1 <;> rfl

theorem Scopes.resolve?_kinds (s : Scopes Decl) (name : String) :
    s.kinds.resolve? name = (s.resolve? name).map Decl.kind := by
  change ((s.toList.map Scope.kinds).findSome? fun scope => scope.lookup name) = _
  unfold Scopes.resolve?
  induction s.toList with
  | nil => rfl
  | cons scope scopes ih =>
    rw [List.map_cons, List.findSome?_cons, List.findSome?_cons, Scope.lookup_kinds, ih]
    cases List.lookup name scope <;> rfl

theorem Scopes.kinds_declareParams (level : Nat) (names : List String) (s : Scopes Decl) :
    (Scopes.declareParams level names s).kinds = checkParams s.kinds names := by
  induction names generalizing s with
  | nil => rfl
  | cons name names ih =>
    rw [Scopes.declareParams, ih]
    rfl

/-! ## Ending as a check does -/

/-- An action of the compiler ends as a check does: either both succeed, with names and frames as
`Q` tells of them and of the result of the check, or both stop at the same violation of the rules
for names. -/
def Concurs {α β : Type} (Q : α → Scopes Decl → Levels Frame → Prop) :
    EStateM.Result CompileError Session β → Except CompileError α → Prop
  | .ok _ σ, .ok a => Q a σ.scopes σ.frames
  | .error e _, .error e' => e = e' ∧ ∀ kind, e ≠ .levelMissing kind
  | .ok _ _, .error _ | .error _ _, .ok _ => False

/-- The action succeeds and leaves names and frames alone. -/
def CompileM.Quiet {α : Type} (x : CompileM α) : Prop :=
  ∀ σ, ∃ a τ, x σ = .ok a τ ∧ τ.scopes = σ.scopes ∧ τ.frames = σ.frames

theorem CompileM.quiet_write (i : Instr) : Quiet (write i) := fun _ => ⟨_, _, rfl, rfl, rfl⟩

theorem CompileM.quiet_emit (i : Instr) : Quiet (emit i) := fun _ => ⟨_, _, rfl, rfl, rfl⟩

theorem CompileM.quiet_emitReturn : Quiet emitReturn := fun _ => ⟨_, _, rfl, rfl, rfl⟩

theorem UnaryOp.quiet_compile (op : UnaryOp) : Quiet op.compile := by
  cases op with
  | not => exact quiet_emit _
  | minus => exact quiet_emit _
  | plus => exact fun _ => ⟨_, _, rfl, rfl, rfl⟩

namespace Concurs

variable {α α' β β' : Type} {Q : α → Scopes Decl → Levels Frame → Prop}
  {R : α' → Scopes Decl → Levels Frame → Prop} {x : CompileM β} {f : β → CompileM β'}
  {v : Except CompileError α} {g : α → Except CompileError α'} {σ : Session}

/-- **One action after the other.** -/
theorem bind (first : Concurs Q (x σ) v)
    (rest : ∀ a b τ, Q a τ.scopes τ.frames → Concurs R (f b τ) (g a)) :
    Concurs R ((x >>= f) σ) (v >>= g) := by
  rw [bind_run]
  cases hx : x σ with
  | ok b τ =>
    rw [hx] at first
    cases v with
    | ok a => exact rest a b τ first
    | error e => exact first.elim
  | error e τ =>
    rw [hx] at first
    cases v with
    | ok a => exact first.elim
    | error e' => exact first

theorem quiet (silent : Quiet x)
    (rest : ∀ b τ, τ.scopes = σ.scopes → τ.frames = σ.frames → Concurs Q (f b τ) v) :
    Concurs Q ((x >>= f) σ) v := by
  obtain ⟨b, τ, hx, scopes, frames⟩ := silent σ
  rw [bind_ok hx]
  exact rest b τ scopes frames

theorem last (silent : Quiet x) {a : α} (h : Q a σ.scopes σ.frames) :
    Concurs Q (x σ) (pure a : Except CompileError α) := by
  obtain ⟨b, τ, hx, scopes, frames⟩ := silent σ
  rw [hx]
  change Q a τ.scopes τ.frames
  rwa [scopes, frames]

theorem followed (first : Concurs Q (x σ) v) (silent : ∀ b, Quiet (f b)) :
    Concurs Q ((x >>= f) σ) v := by
  have h : Concurs Q ((x >>= f) σ) (v >>= pure) :=
    first.bind fun a b τ hq => .last (silent b) hq
  rwa [bind_pure] at h

theorem map {result : α → α'} (h : Concurs Q (x σ) v)
    (weaker : ∀ a scopes frames, Q a scopes frames → R (result a) scopes frames) :
    Concurs R (x σ) (v >>= fun a => pure (result a)) := by
  have h' : Concurs R ((x >>= pure) σ) (v >>= fun a => pure (result a)) :=
    h.bind fun a _ τ hq => weaker a τ.scopes τ.frames hq
  rwa [bind_pure] at h'

theorem mono {Q' : α → Scopes Decl → Levels Frame → Prop} (h : Concurs Q (x σ) v)
    (weaker : ∀ a scopes frames, Q a scopes frames → Q' a scopes frames) :
    Concurs Q' (x σ) v := by
  have h' : Concurs Q' (x σ) (v >>= pure) := h.map weaker
  rwa [bind_pure] at h'

end Concurs

/-! ## Expressions -/

/-- Names and frames are those of the session. -/
def Session.Same (σ : Session) (scopes : Scopes Decl) (frames : Levels Frame) : Prop :=
  scopes = σ.scopes ∧ frames = σ.frames

theorem Concurs.back {α β : Type} {x : CompileM β} {v : Except CompileError α} {σ τ : Session}
    (h : Concurs (fun _ => τ.Same) (x τ) v) (same : σ.Same τ.scopes τ.frames) :
    Concurs (fun _ => σ.Same) (x τ) v :=
  h.mono fun _ _ _ h => ⟨h.1.trans same.1, h.2.trans same.2⟩

mutual

/-- **Compiling an expression** ends as checking it does. -/
theorem Expr.compile_concurs :
    ∀ (e : Expr) (σ : Session), Concurs (fun _ => σ.Same) (e.compile σ) (e.check σ.scopes.kinds)
  | .int _, σ => by
    rw [Expr.compile, Expr.check]
    exact .last (quiet_emit _) ⟨rfl, rfl⟩
  | .bool _, σ => by
    rw [Expr.compile, Expr.check]
    exact .last (quiet_emit _) ⟨rfl, rfl⟩
  | .var name, σ => by
    rw [Expr.compile, Expr.check, valueOf, slotOf, bind_assoc, bind_ok (resolve?_eq name σ),
      Scopes.resolve?_kinds]
    cases σ.scopes.resolve? name with
    | none => exact ⟨rfl, by simp⟩
    | some decl =>
      cases decl with
      | var _ _ | param _ _ => exact .last (quiet_emit _) ⟨rfl, rfl⟩
      | func _ _ _ => exact ⟨rfl, by simp⟩
  | .call name args, σ => by
    rw [Expr.compile, Expr.check, callTarget, bind_assoc, bind_ok (resolve?_eq name σ),
      Scopes.resolve?_kinds]
    cases σ.scopes.resolve? name with
    | none => exact ⟨rfl, by simp⟩
    | some decl =>
      cases decl with
      | var _ _ | param _ _ => exact ⟨rfl, by simp⟩
      | func level entry params =>
        by_cases count : args.length = params
        · simp only [Option.map_some, Decl.kind, if_pos count]
          exact (Expr.compileAll_concurs args σ).followed fun _ => quiet_emit _
        · simp only [Option.map_some, Decl.kind, if_neg count]
          exact ⟨rfl, by simp⟩
  | .unary op operand, σ => by
    rw [Expr.compile, Expr.check]
    exact (operand.compile_concurs σ).followed fun _ => op.quiet_compile
  | .binary op left right, σ => by
    rw [Expr.compile, Expr.check]
    refine (left.compile_concurs σ).bind fun _ _ τ same => ?_
    rw [← same.1]
    exact ((right.compile_concurs τ).followed fun _ => quiet_emit (.binary op)).back same
  | .post op operand, σ => by
    rw [Expr.compile]
    cases operand with
    | var name =>
      rw [postTarget, Expr.check, bind_assoc, bind_ok (resolve?_eq name σ), Scopes.resolve?_kinds]
      cases σ.scopes.resolve? name with
      | none => exact ⟨rfl, by simp⟩
      | some decl =>
        cases decl with
        | var _ _ => exact ⟨rfl, rfl⟩
        | param _ _ | func _ _ _ => exact ⟨rfl, by simp⟩
    | _ =>
      simp only [Expr.check]
      exact ⟨rfl, by simp⟩

theorem Expr.compileAll_concurs :
    ∀ (es : List Expr) (σ : Session),
      Concurs (fun _ => σ.Same) (Expr.compileAll es σ) (Expr.checkAll σ.scopes.kinds es)
  | [], σ => by
    rw [Expr.compileAll, Expr.checkAll]
    exact ⟨rfl, rfl⟩
  | e :: es, σ => by
    rw [Expr.compileAll, Expr.checkAll]
    refine (e.compile_concurs σ).bind fun _ _ τ same => ?_
    rw [← same.1]
    exact (Expr.compileAll_concurs es τ).back same

end

/-! ## Code around code -/

section Around

variable {α : Type} {Q : α → Scopes Decl → Levels Frame → Prop} {v : Except CompileError α}
  {σ : Session}

/-- The levels around the innermost one are those of the session. -/
def Session.Around (σ : Session) (scopes : Scopes Decl) (frames : Levels Frame) : Prop :=
  scopes.outer = σ.scopes.outer ∧ frames.outer = σ.frames.outer

/-- The names are those of the session, and so are the frames around the innermost one. -/
def Session.Kept (σ : Session) (scopes : Scopes Decl) (frames : Levels Frame) : Prop :=
  scopes = σ.scopes ∧ frames.outer = σ.frames.outer

theorem forward_concurs {β : Type} {jump : Nat → Instr} {rest : CompileM β}
    (h : ∀ τ, τ.scopes = σ.scopes → τ.frames = σ.frames → Concurs Q (rest τ) v) :
    Concurs Q (forward jump rest σ) v := by
  rw [forward]
  refine .quiet (quiet_write _) fun address τ scopes frames => ?_
  exact (h τ scopes frames).followed fun _ _ => ⟨_, _, rfl, rfl, rfl⟩

theorem inBlock_concurs {body : CompileM Unit}
    (inside : ∀ τ, τ.scopes = σ.scopes.enter [] → Concurs (fun _ => τ.Around) (body τ) v) :
    Concurs (fun _ => σ.Kept) (inBlock body σ) v := by
  obtain ⟨skip, b, log, opened⟩ : ∃ skip b log, openBlock σ = .ok skip ⟨b, σ.scopes.enter [],
      (σ.frames.modify fun f => { f with next := f.next + 1 }).enter (.opened 0), log⟩ :=
    ⟨_, _, _, rfl⟩
  rw [inBlock, bind_ok opened, ← bind_pure v]
  refine (inside _ rfl).bind fun _ _ τ around => ?_
  obtain ⟨b', scopes, ⟨current, outer⟩, log'⟩ := τ
  obtain ⟨hscopes, hframes⟩ := around
  dsimp only at hframes
  subst hframes
  exact ⟨Scopes.leave_of_outer hscopes, rfl⟩

theorem inFunction_concurs {name : String} {names : List String} {body : CompileM Unit}
    (inside : ∀ τ, τ.scopes.kinds =
        checkParams ((σ.scopes.kinds.declare name (.func names.length)).enter []) names →
      Concurs (fun _ => τ.Around) (body τ) v) :
    Concurs (fun _ scopes frames =>
        scopes.kinds = σ.scopes.kinds.declare name (.func names.length) ∧ σ.Around scopes frames)
      (CompileM.inFunction name names body σ) v := by
  rw [inFunction_eq]
  refine forward_concurs fun τ scopes frames => ?_
  rw [bind_ok (openFunction_eq _ _ _), ← bind_pure v]
  obtain ⟨b, _, _, log⟩ := τ
  dsimp only at scopes frames
  subst scopes frames
  refine (inside _ ?_).bind fun _ _ τ around => ?_
  · exact Scopes.kinds_declareParams _ _ _
  · obtain ⟨b', scopes, ⟨current, outer⟩, log'⟩ := τ
    obtain ⟨hscopes, hframes⟩ := around
    dsimp only [Session.openedFunction] at hscopes hframes
    rw [Scopes.outer_declareParams] at hscopes
    subst hframes
    have left : scopes.leave = _ := Scopes.leave_of_outer hscopes
    have around : scopes.leave.outer = σ.scopes.outer := by
      rw [left]
      rfl
    exact ⟨congrArg Scopes.kinds left, around, rfl⟩

theorem branch_concurs {α₁ α₂ : Type} {test body alternative : CompileM Unit}
    {v₁ : Except CompileError α₁} {v₂ : Except CompileError α₂}
    (htest : Concurs (fun _ => σ.Same) (test σ) v₁)
    (hbody : ∀ τ, σ.Kept τ.scopes τ.frames → Concurs (fun _ => τ.Kept) (body τ) v₂)
    (hother : ∀ τ, σ.Kept τ.scopes τ.frames → Concurs Q (alternative τ) v) :
    Concurs Q (branch test body alternative σ) (v₁ >>= fun _ => v₂ >>= fun _ => v) := by
  rw [branch]
  refine htest.bind fun _ _ τ same => ?_
  refine .quiet (quiet_emit _) fun _ τ₁ scopes₁ frames₁ => ?_
  have kept₁ : σ.Kept τ₁.scopes τ₁.frames :=
    ⟨scopes₁.trans same.1, congrArg Levels.outer (frames₁.trans same.2)⟩
  have first : Concurs (fun _ => τ₁.Kept) (forward .jumpIf (do body; write (.jump 0)) τ₁) v₂ := by
    refine forward_concurs fun τ₂ scopes₂ frames₂ => ?_
    have kept₂ : σ.Kept τ₂.scopes τ₂.frames := by
      rw [scopes₂, frames₂]
      exact kept₁
    refine ((hbody τ₂ kept₂).followed fun _ => quiet_write _).mono fun _ _ _ kept => ?_
    rw [Session.Kept, scopes₂, frames₂] at kept
    exact kept
  refine first.bind fun _ skip τ₃ kept₃ => ?_
  refine (hother τ₃ ⟨kept₃.1.trans kept₁.1, kept₃.2.trans kept₁.2⟩).followed fun _ _ => ?_
  exact ⟨_, _, rfl, rfl, rfl⟩

end Around

/-! ## Statements and programs -/

section Statements

variable {σ τ : Session} {scopes : Scopes Decl} {frames : Levels Frame}

/-- The checker knows the names, and the levels around the innermost one are those of the
session. -/
def Session.Checked (σ : Session) (kinds : Scopes Kind) (scopes : Scopes Decl)
    (frames : Levels Frame) : Prop :=
  scopes.kinds = kinds ∧ σ.Around scopes frames

theorem Session.Same.checked (h : σ.Same scopes frames) : σ.Checked σ.scopes.kinds scopes frames :=
  ⟨by rw [h.1], by rw [h.1], by rw [h.2]⟩

theorem Session.Kept.checked (h : σ.Kept scopes frames) : σ.Checked σ.scopes.kinds scopes frames :=
  ⟨by rw [h.1], by rw [h.1], h.2⟩

theorem Session.Kept.trans (h : σ.Kept τ.scopes τ.frames) (h' : τ.Kept scopes frames) :
    σ.Kept scopes frames := ⟨h'.1.trans h.1, h'.2.trans h.2⟩

theorem Session.Around.trans (h : σ.Around τ.scopes τ.frames) (h' : τ.Around scopes frames) :
    σ.Around scopes frames := ⟨h'.1.trans h.1, h'.2.trans h.2⟩

theorem check_loop (kinds : Scopes Kind) (first : Stmt) (test : Expr) (after : Stmt)
    (body : List Stmt) :
    Stmt.check kinds (.loop first test after body) =
      (first.check (kinds.enter []) >>= fun inner => test.check inner >>= fun _ =>
        Stmt.checkAll (inner.enter []) body >>= fun _ => after.check inner) >>=
          fun _ => pure kinds := by
  rw [Stmt.check]
  simp only [bind_assoc]

theorem inBlock_compileAll_concurs {body : List Stmt}
    (hbody : ∀ τ, Concurs (fun _ => τ.Around) (Stmt.compileAll body τ)
      (Stmt.checkAll τ.scopes.kinds body)) (σ : Session) :
    Concurs (fun _ => σ.Kept) (inBlock (Stmt.compileAll body) σ)
      (Stmt.checkAll (σ.scopes.kinds.enter []) body) := by
  refine inBlock_concurs fun τ scopes => ?_
  have inside := hbody τ
  rw [scopes] at inside
  exact inside

theorem passes_concurs {first after : Stmt} {test : Expr} {body : List Stmt}
    (hfirst : ∀ τ, Concurs τ.Checked (first.compile τ) (first.check τ.scopes.kinds))
    (hbody : ∀ τ, Concurs (fun _ => τ.Around) (Stmt.compileAll body τ)
      (Stmt.checkAll τ.scopes.kinds body))
    (hafter : ∀ τ, Concurs τ.Checked (after.compile τ) (after.check τ.scopes.kinds)) (σ : Session) :
    Concurs (fun _ => σ.Around) (compilePasses first test after body σ)
      (first.check σ.scopes.kinds >>= fun inner => test.check inner >>= fun _ =>
        Stmt.checkAll (inner.enter []) body >>= fun _ => after.check inner) := by
  rw [compilePasses]
  refine (hfirst σ).bind fun inner _ τ checked => ?_
  rw [bind_ok (here_eq _), ← checked.1]
  refine (test.compile_concurs τ).bind fun _ _ τ₁ same => ?_
  refine .quiet (quiet_emit _) fun _ τ₂ scopes₂ frames₂ => ?_
  refine forward_concurs fun τ₃ scopes₃ frames₃ => ?_
  have kept₃ : τ.Kept τ₃.scopes τ₃.frames :=
    ⟨scopes₃.trans (scopes₂.trans same.1),
      congrArg Levels.outer (frames₃.trans (frames₂.trans same.2))⟩
  rw [← kept₃.1]
  refine (inBlock_compileAll_concurs hbody τ₃).bind fun _ _ τ₄ kept₄ => ?_
  rw [← kept₄.1]
  refine ((hafter τ₄).followed fun _ => quiet_emit _).mono fun _ _ _ checked₄ => ?_
  have kept := kept₃.trans kept₄
  exact (checked.2.trans ⟨congrArg Levels.outer kept.1, kept.2⟩).trans checked₄.2

end Statements

mutual

/-- **Compiling a statement** ends as checking it does. -/
theorem Stmt.compile_concurs :
    ∀ (s : Stmt) (σ : Session), Concurs σ.Checked (s.compile σ) (s.check σ.scopes.kinds)
  | .declare name value, σ => by
    rw [Stmt.compile, Stmt.check, bind_ok (level_eq _), bind_ok (reserve_eq _)]
    refine .quiet (quiet_emit _) fun _ τ scopes frames => ?_
    rw [bind_ok (declare_eq _ _ _)]
    have declared : σ.scopes.kinds.declare name .var =
        (τ.scopes.declare name (.var σ.frames.depth σ.frames.current.next)).kinds := by
      rw [scopes]
      rfl
    rw [declared]
    refine ((value.compile_concurs _).followed fun _ => quiet_emit _).map
      fun _ _ _ same => ⟨congrArg Scopes.kinds same.1, ?_, ?_⟩
    · rw [same.1]
      change τ.scopes.outer = _
      rw [scopes]
    · rw [same.2]
      change τ.frames.outer = _
      rw [frames]
      rfl
  | .assign name value, σ => by
    rw [Stmt.compile, Stmt.check, assignTarget, slotOf, bind_assoc, bind_ok (resolve?_eq name σ),
      Scopes.resolve?_kinds]
    cases σ.scopes.resolve? name with
    | none => exact ⟨rfl, by simp⟩
    | some decl =>
      cases decl with
      | var _ _ | param _ _ =>
        exact ((value.compile_concurs σ).followed fun _ => quiet_emit _).map
          fun _ _ _ same => same.checked
      | func _ _ _ => exact ⟨rfl, by simp⟩
  | .function name params body, σ => by
    rw [Stmt.compile, Stmt.check]
    refine (inFunction_concurs fun τ scopes => ?_).map fun _ _ _ declared => declared
    rw [← scopes]
    exact Stmt.compileAll_concurs body τ
  | .ret none, σ => by
    rw [Stmt.compile, Stmt.check]
    exact ⟨rfl, rfl, rfl⟩
  | .ret (some value), σ => by
    rw [Stmt.compile, Stmt.check]
    exact ((value.compile_concurs σ).followed fun _ => quiet_emitReturn).map
      fun _ _ _ same => same.checked
  | .cond test body alternative, σ => by
    rw [Stmt.compile, Stmt.check]
    refine branch_concurs (test.compile_concurs σ) (fun τ kept => ?_) fun τ kept => ?_
    · rw [← kept.1]
      exact inBlock_compileAll_concurs (Stmt.compileAll_concurs body) τ
    · rw [← kept.1]
      refine (alternative.compile_concurs τ).map fun _ _ _ kept' => ?_
      rw [kept.1]
      exact (kept.trans kept').checked
  | .loop first test after body, σ => by
    rw [Stmt.compile, check_loop]
    refine (inBlock_concurs fun τ scopes => ?_).map fun _ _ _ kept => kept.checked
    have inside : σ.scopes.kinds.enter [] = τ.scopes.kinds := by
      rw [scopes]
      rfl
    rw [inside]
    exact passes_concurs first.compile_concurs (Stmt.compileAll_concurs body)
      after.compile_concurs τ
  | .block body, σ => by
    rw [Stmt.compile, Stmt.check]
    exact (inBlock_compileAll_concurs (Stmt.compileAll_concurs body) σ).map
      fun _ _ _ kept => kept.checked
  | .expr value, σ => by
    rw [Stmt.compile, Stmt.check]
    exact ((value.compile_concurs σ).followed fun _ => quiet_emit _).map
      fun _ _ _ same => same.checked
  | .empty, σ => by
    rw [Stmt.compile, Stmt.check]
    exact ⟨rfl, rfl, rfl⟩

theorem Stmt.compileAll_concurs : ∀ (body : List Stmt) (σ : Session),
    Concurs (fun _ => σ.Around) (Stmt.compileAll body σ) (Stmt.checkAll σ.scopes.kinds body)
  | [], σ => by
    rw [Stmt.compileAll, Stmt.checkAll]
    exact ⟨rfl, rfl⟩
  | s :: rest, σ => by
    rw [Stmt.compileAll, Stmt.checkAll]
    refine (s.compile_concurs σ).bind fun kinds _ τ checked => ?_
    rw [← checked.1]
    exact (Stmt.compileAll_concurs rest τ).mono fun _ _ _ around => checked.2.trans around

theorem Else.compile_concurs : ∀ (alternative : Else) (σ : Session),
    Concurs (fun _ => σ.Kept) (alternative.compile σ) (alternative.check σ.scopes.kinds)
  | .none, σ => by
    rw [Else.compile, Else.check]
    exact ⟨rfl, rfl⟩
  | .block body, σ => by
    rw [Else.compile, Else.check]
    exact inBlock_compileAll_concurs (Stmt.compileAll_concurs body) σ
  | .cond test body alternative, σ => by
    rw [Else.compile, Else.check]
    refine branch_concurs (test.compile_concurs σ) (fun τ kept => ?_) fun τ kept => ?_
    · rw [← kept.1]
      exact inBlock_compileAll_concurs (Stmt.compileAll_concurs body) τ
    · rw [← kept.1]
      exact (alternative.compile_concurs τ).mono fun _ _ _ kept' => kept.trans kept'

end

theorem Program.compile_concurs (program : Program) (σ : Session) :
    Concurs (fun _ => (σ.starting program).Around) (Program.compile program σ)
      (Stmt.checkAll σ.scopes.kinds program) := by
  rw [Program.compile, bind_ok (record_eq _ _)]
  exact (Stmt.compileAll_concurs program _).followed fun _ _ => ⟨_, _, rfl, rfl, rfl⟩

/-- **Compile errors are violations of the rules for names.** A program compiles if and only if the
checker finds no violation in it. Otherwise the compiler reports exactly the violation that the
checker finds first. It never finds that a level is missing. -/
theorem compile_iff_check (program : Program) :
    ((∃ code, compile program = .ok code) ↔ check program = .ok ()) ∧
    (∀ e, compile program = .error e ↔ check program = .error e) ∧
    ∀ kind, compile program ≠ .error (.levelMissing kind) := by
  have concurs : Concurs (fun _ => (Session.initial.starting program).Around)
      (Program.compile program .initial) (check program) :=
    Program.compile_concurs program .initial
  unfold compile EStateM.run
  cases compiled : Program.compile program .initial with
  | ok _ σ =>
    rw [compiled] at concurs
    cases checked : check program with
    | ok _ => simp
    | error e =>
      rw [checked] at concurs
      exact concurs.elim
  | error e σ =>
    rw [compiled] at concurs
    cases checked : check program with
    | ok _ =>
      rw [checked] at concurs
      exact concurs.elim
    | error e' =>
      rw [checked] at concurs
      obtain ⟨rfl, names⟩ := concurs
      simp [names]

end NestLang
