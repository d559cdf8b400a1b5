import NestLang.Proofs.Emission

/-!
# What compiling does to names and frames

Code is written at the end. An expression does nothing else, and neither does a block, whatever is
declared inside. Of the statements only the declaration of a variable and that of a function change
the names in scope, and only the first of them takes a slot.

* `CompileM.Writes`: an action that changes neither names nor frames.
* `Expr.writes`, `writes_inBlock`: expressions and blocks.
* `Stmt.effect`: **what a statement that compiles does to names and frames.**
-/

namespace NestLang

open CompileM

/-! ## Actions that only write -/

/-- From `σ` to `τ` some code was appended, and names and frames were left alone. -/
structure Session.Wrote (σ τ : Session) : Prop where
  buffer : ∃ is, τ.buffer = σ.buffer.written is
  scopes : τ.scopes = σ.scopes
  frames : τ.frames = σ.frames

/-- The action only appends code when it succeeds. -/
def CompileM.Writes {α : Type} (x : CompileM α) : Prop :=
  ∀ σ a τ, σ.buffer.AtEnd → x σ = .ok a τ → σ.Wrote τ

section Writes

variable {α β : Type} {σ τ : Session} {x : CompileM α} {f : α → CompileM β}

theorem Buffer.atEnd_of_written {b b' : Buffer} (h : ∃ is, b' = b.written is) : b'.AtEnd := by
  obtain ⟨is, rfl⟩ := h
  exact atEnd_written b is

theorem Buffer.size_le_of_written {b b' : Buffer} (h : ∃ is, b' = b.written is) :
    b.code.size ≤ b'.code.size := by
  obtain ⟨is, rfl⟩ := h
  rw [size_written]
  exact Nat.le_add_right _ _

theorem Session.Wrote.atEnd (h : σ.Wrote τ) : τ.buffer.AtEnd := Buffer.atEnd_of_written h.buffer

theorem Session.Wrote.size_le (h : σ.Wrote τ) : σ.buffer.code.size ≤ τ.buffer.code.size :=
  Buffer.size_le_of_written h.buffer

theorem Session.Wrote.refl (atEnd : σ.buffer.AtEnd) : σ.Wrote σ :=
  ⟨⟨[], atEnd.written_nil.symm⟩, rfl, rfl⟩

theorem Session.Wrote.trans {τ' : Session} (h : σ.Wrote τ) (h' : τ.Wrote τ') : σ.Wrote τ' := by
  obtain ⟨is, buffer⟩ := h.buffer
  obtain ⟨js, buffer'⟩ := h'.buffer
  refine ⟨⟨is ++ js, ?_⟩, h'.scopes.trans h.scopes, h'.frames.trans h.frames⟩
  rw [buffer', buffer, Buffer.written_written]

/-- **One action after the other.** -/
theorem CompileM.Writes.bind (first : Writes x) (rest : ∀ a, Writes (f a)) : Writes (x >>= f) := by
  intro σ b τ atEnd done
  obtain ⟨a, σ', done, done'⟩ := bind_eq_ok.1 done
  have wrote := first σ a σ' atEnd done
  exact wrote.trans (rest a σ' b τ wrote.atEnd done')

theorem writes_of_eq (h : ∀ σ a τ, x σ = .ok a τ → σ = τ) : Writes x := by
  intro σ a τ atEnd done
  obtain rfl := h σ a τ done
  exact .refl atEnd

theorem writes_pure (a : α) : Writes (pure a : CompileM α) :=
  writes_of_eq fun _ _ _ done => (pure_eq_ok.1 done).2

theorem writes_here : Writes here := by
  refine writes_of_eq fun _ _ _ done => ?_
  cases done
  rfl

theorem writes_write (i : Instr) : Writes (write i) := by
  intro σ a τ atEnd done
  rw [write_eq atEnd] at done
  cases done
  exact ⟨⟨_, rfl⟩, rfl, rfl⟩

theorem writes_emit (i : Instr) : Writes (emit i) :=
  (writes_write i).bind fun _ => writes_pure ()

theorem CompileM.Writes.forward {jump : Nat → Instr} (h : Writes x) :
    Writes (CompileM.forward jump x) := by
  intro σ a τ atEnd done
  obtain ⟨τ', done, patched⟩ := forward_eq_ok atEnd done
  have wrote := h _ a τ' (Buffer.atEnd_written _ _) done
  obtain ⟨is, buffer⟩ := wrote.buffer
  rw [patched is (by rw [buffer, Buffer.written_written]; rfl)]
  exact ⟨⟨_, rfl⟩, wrote.scopes, wrote.frames⟩

end Writes

/-! ## Expressions and blocks -/

/-- A frame as it is laid out for a function. -/
def Frame.shape (f : Frame) : Shape := ⟨.function 0 f.params, f.next⟩

/-- A context with the names and the frames of the session. -/
def Session.ctx (σ : Session) : Ctx :=
  ⟨σ.scopes, ⟨σ.frames.current.shape, σ.frames.outer.map Frame.shape⟩⟩

theorem Session.shows_ctx {σ : Session} (atEnd : σ.buffer.AtEnd) : σ.Shows σ.ctx :=
  ⟨atEnd, rfl, rfl, (List.length_map _).symm⟩

theorem Session.Emitted.wrote {σ τ : Session} {sites : List Site}
    (h : σ.Emitted sites σ.ctx τ) : σ.Wrote τ := by
  refine ⟨⟨_, h.buffer⟩, h.shows.scopes, ?_⟩
  obtain ⟨b, scopes, ⟨current, outer⟩, log⟩ := τ
  obtain ⟨⟨-, -, rfl, -⟩, -, rfl⟩ := h
  rfl

/-- **An expression** only writes. -/
theorem Expr.writes (e : Expr) : Writes e.compile := by
  intro σ _ τ atEnd done
  have scopes : σ.scopes = σ.ctx.scopes := rfl
  obtain ⟨sites, -, rfl⟩ := e.emits_of_compile (t := 0) done atEnd scopes
  exact ⟨⟨_, rfl⟩, rfl, rfl⟩

theorem Expr.writes_test (test : Expr) {α : Type} {rest : Nat → CompileM α}
    (h : ∀ exit, Writes (rest exit)) :
    Writes (do test.compile; emit .not; let exit ← write (.jumpIf 0); rest exit) :=
  test.writes.bind fun _ => (writes_emit _).bind fun _ => (writes_write _).bind h

/-- **A block** only writes, whatever is declared in it. -/
theorem writes_inBlock (body : List Stmt) : Writes (inBlock (Stmt.compileAll body)) := by
  intro σ _ τ atEnd done
  obtain ⟨sites, -, emitted⟩ :=
    inBlock_emits (Session.shows_ctx atEnd) (Stmt.emitsAll_of_compile body) done
  exact emitted.wrote

/-! ## Statements -/

namespace Stmt

/-- The names in scope behind a statement. -/
def scopesAfter (σ : Session) : Stmt → Scopes Decl
  | .declare name _ => σ.scopes.declare name (.var σ.frames.depth σ.frames.current.next)
  | .function name params _ =>
    σ.scopes.declare name (.func σ.frames.depth (σ.buffer.code.size + 1) params.length)
  | _ => σ.scopes

/-- The frames behind a statement. -/
def framesAfter (σ : Session) : Stmt → Levels Frame
  | .declare _ _ => σ.frames.modify fun f => { f with next := f.next + 1 }
  | _ => σ.frames

section Effect

variable {σ τ : Session}

/-- **What a statement does** to names and frames. -/
theorem effect (s : Stmt) (atEnd : σ.buffer.AtEnd) (done : s.compile σ = .ok () τ) :
    (∃ is, τ.buffer = σ.buffer.written is) ∧ τ.scopes = s.scopesAfter σ ∧
      τ.frames = s.framesAfter σ := by
  obtain ⟨sites, ctx, emits, ⟨-, scopes, current, -⟩, buffer, outer⟩ :=
    s.emits_of_compile (Session.shows_ctx atEnd) done
  have frames : τ.frames = ⟨ctx.shapes.current.frame, σ.frames.outer⟩ := by
    rw [← current, ← outer]
  refine ⟨⟨_, buffer⟩, ?_⟩
  rw [scopes, frames]
  cases emits with
  | declare _ =>
    refine ⟨?_, rfl⟩
    simp [Ctx.declareVar, scopesAfter, Ctx.level, Levels.depth, Session.ctx, Ctx.slots, Frame.shape]
  | function _ =>
    refine ⟨?_, rfl⟩
    simp [Ctx.declareFunc, scopesAfter, Ctx.level, Levels.depth, Session.ctx]
  | _ => exact ⟨rfl, rfl⟩

theorem size_lt_of_function {name : String} {params : List String} {body : List Stmt}
    (atEnd : σ.buffer.AtEnd) (done : (Stmt.function name params body).compile σ = .ok () τ) :
    σ.buffer.code.size < τ.buffer.code.size := by
  obtain ⟨sites, ctx, emits, -, buffer, -⟩ :=
    (Stmt.function name params body).emits_of_compile (Session.shows_ctx atEnd) done
  cases emits with
  | function _ => simp [buffer]

end Effect

end Stmt

end NestLang
