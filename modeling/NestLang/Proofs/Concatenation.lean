import NestLang.Proofs.Chunks
import NestLang.Proofs.Renaming

/-!
# Programs and their concatenation

A session only appends code, also where a compilation fails. So programs that a session compiles one
after the other, and of which none fails, have the code of one program that holds the statements of
all of them. What the session reports in between makes no difference.

* `Session.Grown`: what was written is still there, and the position is at the end.
* `Appends.grown`: an action that only appends, whether it succeeds or fails.
* `Session.Alike`: two sessions that differ only in what they have reported.
* `compileAll_flatten`: some programs and the list of all their statements.
* `compiling_only_appends`: **code is only appended, and concatenation of programs does not show.**
-/

namespace NestLang

open CompileM

/-! ## Growing sessions -/

/-- Every instruction of the first session is at the same address in the second one, which has no
fewer instructions and writes at the end. -/
structure Session.Grown (σ τ : Session) : Prop where
  kept : ∀ (a : Nat) (i : Instr), σ.buffer.code[a]? = some i → τ.buffer.code[a]? = some i
  size_le : σ.buffer.code.size ≤ τ.buffer.code.size
  atEnd : τ.buffer.position = τ.buffer.code.size

/-- The session that an action reaches, whether it succeeds or fails. -/
def CompileM.reached {α : Type} (x : CompileM α) (σ : Session) : Session :=
  match x σ with
  | .ok _ τ | .error _ τ => τ

section Grown

variable {σ τ : Session}

theorem Session.Holds.refl (atEnd : σ.buffer.AtEnd) : σ.Holds σ.buffer [] :=
  ⟨⟨[], atEnd.written_nil.symm⟩, fun _ ha => absurd ha List.not_mem_nil⟩

theorem Session.Holds.grown (h : τ.Holds σ.buffer []) : σ.Grown τ := by
  obtain ⟨is, buffer⟩ := h.written
  refine ⟨fun a i instr => ?_, ?_, h.atEnd⟩
  · have lt : a < σ.buffer.code.size := (Array.getElem?_eq_some_iff.1 instr).1
    rw [buffer, Buffer.written, Array.getElem?_append_left lt, instr]
  · rw [buffer, Buffer.size_written]
    exact Nat.le_add_right _ _

/-- **An action that only appends** does so whether it succeeds or fails. -/
theorem Appends.grown {α : Type} {x : CompileM α} (appends : Appends x) (atEnd : σ.buffer.AtEnd) :
    σ.Grown (x.reached σ) := by
  have holds := appends σ.buffer [] σ (.refl atEnd)
  unfold CompileM.reached
  cases result : x σ <;> rw [result] at holds <;> exact holds.grown

theorem Session.Grown.compileEach (before after : List Program) :
    (Session.initial.compileEach before).Grown (Session.initial.compileEach (before ++ after)) := by
  have start : Session.initial.Holds Session.initial.buffer [] := .refl rfl
  have holds : Session.Holds _ [] (Session.initial.compileEach before) :=
    .refl (start.compileEach before).atEnd
  have more := (holds.compileEach after).grown
  unfold Session.compileEach at more ⊢
  rwa [← List.foldl_append] at more

end Grown

/-! ## Reports make no difference -/

/-- The sessions differ only in what they have reported. -/
structure Session.Alike (σ σ' : Session) : Prop where
  buffer : σ'.buffer = σ.buffer
  scopes : σ'.scopes = σ.scopes
  frames : σ'.frames = σ.frames

mutual

theorem Expr.rename_id : (e : Expr) → e.rename id = e
  | .int _ | .bool _ | .var _ => rfl
  | .call _ args => by simp [Expr.rename, Expr.renameAll_id args]
  | .unary _ operand | .post _ operand => by simp [Expr.rename, operand.rename_id]
  | .binary _ left right => by simp [Expr.rename, left.rename_id, right.rename_id]

theorem Expr.renameAll_id : (es : List Expr) → Expr.renameAll id es = es
  | [] => rfl
  | e :: es => by simp [Expr.renameAll, e.rename_id, Expr.renameAll_id es]

end

mutual

theorem Stmt.rename_id : (s : Stmt) → s.rename id = s
  | .declare _ value | .assign _ value | .expr value | .ret (some value) => by
    simp [Stmt.rename, value.rename_id]
  | .function _ _ body => by simp [Stmt.rename, Stmt.renameAll_id body]
  | .cond test body alternative => by
    simp [Stmt.rename, test.rename_id, Stmt.renameAll_id body, alternative.rename_id]
  | .loop first test after body => by
    simp [Stmt.rename, first.rename_id, test.rename_id, after.rename_id, Stmt.renameAll_id body]
  | .block body => by simp [Stmt.rename, Stmt.renameAll_id body]
  | .ret none | .empty => rfl

theorem Stmt.renameAll_id : (body : List Stmt) → Stmt.renameAll id body = body
  | [] => rfl
  | s :: rest => by simp [Stmt.renameAll, s.rename_id, Stmt.renameAll_id rest]

theorem Else.rename_id : (alternative : Else) → alternative.rename id = alternative
  | .none => rfl
  | .block body => by simp [Else.rename, Stmt.renameAll_id body]
  | .cond test body alternative => by
    simp [Else.rename, test.rename_id, Stmt.renameAll_id body, alternative.rename_id]

end

theorem Scopes.rename_id {α : Type} (s : Scopes α) : s.rename id = s := by
  have same : (Scope.rename id : Scope α → Scope α) = id := by
    funext scope
    simp [Scope.rename]
  simp [Scopes.rename, same]

theorem Session.Alike.renamed {σ σ' : Session} (h : σ.Alike σ') :
    σ.Renamed id Set.univ σ' := by
  obtain ⟨b, scopes, frames, log⟩ := σ
  obtain ⟨b', scopes', frames', log'⟩ := σ'
  obtain ⟨buffer, hscopes, hframes⟩ := h
  dsimp only at buffer hscopes hframes
  subst buffer hscopes hframes
  have renamed : Session.Renamed id Set.univ ⟨b', scopes', frames', log⟩
      ⟨b', scopes'.rename id, frames', log'⟩ := ⟨fun _ _ _ _ => trivial⟩
  rwa [Scopes.rename_id] at renamed

theorem Session.Renamed.alike {σ σ' : Session} (h : σ.Renamed id Set.univ σ') : σ.Alike σ' := by
  cases h
  exact ⟨rfl, Scopes.rename_id _, rfl⟩

theorem CompileError.rename_id (e : CompileError) : e.rename id = e := by
  cases e <;> rfl

theorem Stmt.compileAll_renames_id (body : List Stmt) :
    Renames id Set.univ (Stmt.compileAll body) (Stmt.compileAll body) := by
  have renames := Stmt.renamesAll (Set.injOn_id Set.univ) body fun _ _ => trivial
  rwa [Stmt.renameAll_id] at renames

/-- **Statements are compiled alike** in sessions that are alike. -/
theorem Stmt.compileAll_alike {body : List Stmt} {σ σ' τ : Session} (alike : σ.Alike σ')
    (done : Stmt.compileAll body σ = .ok () τ) :
    ∃ τ', Stmt.compileAll body σ' = .ok () τ' ∧ τ.Alike τ' := by
  have renames := Stmt.compileAll_renames_id body σ σ' alike.renamed
  rw [done] at renames
  cases result : Stmt.compileAll body σ' with
  | ok _ τ' =>
    rw [result] at renames
    exact ⟨τ', rfl, renames.2.alike⟩
  | error e τ' =>
    rw [result] at renames
    exact renames.elim

/-- **Statements fail alike** in sessions that are alike. -/
theorem Stmt.compileAll_fails_alike {body : List Stmt} {σ σ' τ : Session} {e : CompileError}
    (alike : σ.Alike σ') (failed : Stmt.compileAll body σ = .error e τ) :
    ∃ τ', Stmt.compileAll body σ' = .error e τ' := by
  have renames := Stmt.compileAll_renames_id body σ σ' alike.renamed
  rw [failed] at renames
  cases result : Stmt.compileAll body σ' with
  | ok _ τ' =>
    rw [result] at renames
    exact renames.elim
  | error e' τ' =>
    rw [result] at renames
    have same : e' = e := renames.trans e.rename_id
    exact ⟨τ', by rw [same]⟩

/-! ## One program in place of several -/

/-- None of the programs fails when the session compiles them one after the other. -/
def Session.CompilesEach (σ : Session) (programs : List Program) : Prop :=
  ∀ before program after, programs = before ++ program :: after →
    ∃ τ, Program.compile program (σ.compileEach before) = .ok () τ

theorem Session.CompilesEach.head {σ : Session} {program : Program} {programs : List Program}
    (h : σ.CompilesEach (program :: programs)) : ∃ τ, Program.compile program σ = .ok () τ :=
  h [] program programs rfl

theorem Session.CompilesEach.tail {σ : Session} {program : Program} {programs : List Program}
    (h : σ.CompilesEach (program :: programs)) :
    (σ.afterCompile program).CompilesEach programs := by
  rintro before other after rfl
  exact h (program :: before) other after rfl

theorem Session.CompilesEach.nil (σ : Session) : σ.CompilesEach [] := by
  intro before program after h
  simp at h

theorem Session.CompilesEach.cons {σ τ : Session} {program : Program} {programs : List Program}
    (done : Program.compile program σ = .ok () τ) (rest : τ.CompilesEach programs) :
    σ.CompilesEach (program :: programs) := by
  intro before other after h
  cases before with
  | nil =>
    cases h
    exact ⟨τ, done⟩
  | cons first before =>
    cases h
    have compiled := rest before other after rfl
    rwa [← Session.afterCompile_ok done] at compiled

theorem Program.compileAll_alike {program : Program} {σ σ' τ : Session} (alike : σ.Alike σ')
    (done : Program.compile program σ = .ok () τ) :
    ∃ τ', Stmt.compileAll program σ' = .ok () τ' ∧ τ.Alike τ' := by
  have alike₁ : (σ.starting program).Alike σ' := ⟨alike.buffer, alike.scopes, alike.frames⟩
  obtain ⟨τ₁, compiled, rfl⟩ := Program.compile_eq_ok.1 done
  obtain ⟨τ', compiled', alike'⟩ := Stmt.compileAll_alike alike₁ compiled
  exact ⟨τ', compiled', alike'.buffer, alike'.scopes, alike'.frames⟩

/-- **Some programs, none of which fails,** are compiled as the list of all their statements is. -/
theorem compileAll_flatten {programs : List Program} {σ σ' : Session}
    (compiles : σ.CompilesEach programs) (alike : σ.Alike σ') :
    ∃ τ', Stmt.compileAll programs.flatten σ' = .ok () τ' ∧
      (σ.compileEach programs).Alike τ' := by
  induction programs generalizing σ σ' with
  | nil => exact ⟨σ', rfl, alike⟩
  | cons program programs ih =>
    obtain ⟨τ, done⟩ := compiles.head
    obtain ⟨τ₁, compiled, alike₁⟩ := Program.compileAll_alike alike done
    have rest := compiles.tail
    rw [Session.afterCompile_ok done] at rest
    obtain ⟨τ', compiled', alike'⟩ := ih rest alike₁
    refine ⟨τ', ?_, ?_⟩
    · rw [List.flatten_cons, Stmt.compileAll_append, bind_ok compiled]
      exact compiled'
    · rw [← Session.afterCompile_ok done] at alike'
      exact alike'

theorem compile_of_compileAll {program : Program} {τ : Session}
    (done : Stmt.compileAll program (Session.initial.starting program) = .ok () τ) :
    compile program = .ok τ.buffer.code := by
  rw [compile_eq, done]

theorem compile_of_compileAll_error {program : Program} {e : CompileError} {τ : Session}
    (failed : Stmt.compileAll program (Session.initial.starting program) = .error e τ) :
    compile program = .error e := by
  rw [compile_eq, failed]

/-- **Code is only appended.** In a session that writes at the end of its code, compile a statement,
an expression or a program, and let it succeed or fail at whatever depth: all instructions stay at
their addresses, the code does not get shorter, and the session still writes at its end.

So what a session has written behind some programs is extended by what it writes for the next ones.
And if none of some programs fails, the code that the session has in the end is that of one program
with the statements of all of them in order. -/
theorem compiling_only_appends :
    (∀ σ : Session, σ.buffer.AtEnd →
      (∀ s : Stmt, σ.Grown (s.compile.reached σ)) ∧ (∀ e : Expr, σ.Grown (e.compile.reached σ)) ∧
      ∀ program : Program, σ.Grown ((Program.compile program).reached σ)) ∧
    (∀ before after : List Program,
      (Session.initial.compileEach before).Grown (Session.initial.compileEach (before ++ after))) ∧
    ∀ programs : List Program, Session.initial.CompilesEach programs →
      compile programs.flatten = .ok (Session.initial.compileEach programs).buffer.code := by
  refine ⟨fun σ atEnd => ⟨?_, ?_, ?_⟩, Session.Grown.compileEach, fun programs compiles => ?_⟩
  · exact fun s => s.appends.grown atEnd
  · exact fun e => e.appends.grown atEnd
  · exact fun program => program.appends.grown atEnd
  · have alike : Session.initial.Alike (Session.initial.starting programs.flatten) :=
      ⟨rfl, rfl, rfl⟩
    obtain ⟨τ, done, alike'⟩ := compileAll_flatten compiles alike
    rw [compile_of_compileAll done, alike'.buffer]

/-- A counter and a function that adds to it. -/
def counterProgram : Program :=
  [.declare "count" (.int 0),
    .function "add" ["x"] [.assign "count" (.binary .add (.var "count") (.var "x")),
      .ret (some (.var "count"))]]

/-- A loop that calls the function of `counterProgram`. -/
def countingProgram : Program :=
  [.loop (.declare "i" (.int 0)) (.binary .lt (.call "add" [.var "i"]) (.int 9))
    (.expr (.post .increment (.var "i"))) [.expr (.call "print" [.var "count"])]]

/-- A block whose first statement is compiled and whose second one is not. -/
def strayBlock : Stmt := .block [.declare "x" (.int 1), .assign "y" (.int 2)]

/-- The loop needs the declarations of the program before it, and the block fails behind a
declaration of its own. -/
theorem compiling_only_appends_counter :
    Session.initial.CompilesEach [counterProgram, countingProgram] ∧
    compile [counterProgram, countingProgram].flatten =
      .ok (Session.initial.compileEach [counterProgram, countingProgram]).buffer.code ∧
    Session.initial.buffer.AtEnd ∧ Session.initial.Grown (strayBlock.compile.reached .initial) := by
  have both : ∃ τ, (do Program.compile counterProgram; Program.compile countingProgram)
      Session.initial = .ok () τ := exists_of_value (by decide +kernel)
  obtain ⟨τ, done⟩ := both
  obtain ⟨_, τ₁, first, second⟩ := bind_eq_ok.1 done
  have compiles : Session.initial.CompilesEach [counterProgram, countingProgram] :=
    .cons first (.cons second (.nil τ))
  exact ⟨compiles, compiling_only_appends.2.2 _ compiles, rfl,
    (compiling_only_appends.1 .initial rfl).1 strayBlock⟩

end NestLang
