import NestLang.Proofs.Appending
import NestLang.Proofs.Regular
import NestLang.Proofs.Slots

/-!
# What a statement declares

Functions, blocks and loops open levels, declare names on them and take slots of their frames. A
statement that compiles has closed all of them again, so that from outside nothing is seen but the
name that the statement itself declares, and the slot of a variable.

* `Scopes.meaning?`: what a name stands for on one level alone.
* `Stmt.declared?`: the name that a statement declares.
* `CompileM.Settled`, `Expr.settled`: expressions change neither names nor frames, and neither do
  those that fail.
* `statement_declares`: **statements change nothing but what they declare.**
-/

namespace NestLang

open CompileM

/-! ## One level at a time -/

theorem Levels.at?_of_depth_lt {α : Type} (l : Levels α) {level : Nat} (h : l.depth < level) :
    l.at? level = none := by
  cases found : l.at? level with
  | none => rfl
  | some a => exact absurd (l.le_of_at? found) (Nat.not_le_of_lt h)

theorem Levels.at?_modify {α : Type} (l : Levels α) (f : α → α) (level : Nat) :
    (l.modify f).at? level = if level = l.depth then some (f l.current) else l.at? level := by
  by_cases innermost : level = l.depth
  · rw [if_pos innermost, innermost]
    exact (l.modify f).at?_depth
  · rw [if_neg innermost]
    rcases Nat.lt_or_gt_of_ne innermost with lt | gt
    · rw [(l.modify f).at?_of_lt lt, l.at?_of_lt lt]
      rfl
    · rw [(l.modify f).at?_of_depth_lt gt, l.at?_of_depth_lt gt]

/-- What a name stands for on one level alone. -/
def Scopes.meaning? {α : Type} (s : Scopes α) (level : Nat) (name : String) : Option α :=
  (s.at? level).bind (·.lookup name)

theorem Scopes.meaning?_declare {α : Type} (s : Scopes α) (new : String) (a : α) (level : Nat)
    (name : String) :
    (s.declare new a).meaning? level name =
      if level = s.depth ∧ name = new then some a else s.meaning? level name := by
  unfold meaning? declare
  rw [Levels.at?_modify]
  by_cases innermost : level = s.depth
  · rw [if_pos innermost, innermost, Levels.at?_depth]
    change List.lookup name ((new, a) :: s.current) = _
    rw [Scope.lookup_declare]
    by_cases same : name = new
    · rw [if_pos same, if_pos ⟨rfl, same⟩]
    · rw [if_neg same, if_neg fun both => same both.2]
      rfl
  · rw [if_neg innermost, if_neg fun both => innermost both.1]

/-! ## Expressions -/

/-- The names and the frames of the session are the given ones. -/
structure Session.Has (scopes : Scopes Decl) (frames : Levels Frame) (σ : Session) : Prop where
  scopes : σ.scopes = scopes
  frames : σ.frames = frames

/-- The action changes neither names nor frames, whether it succeeds or fails. -/
def CompileM.Settled {α : Type} (x : CompileM α) : Prop :=
  ∀ scopes frames, Leads (Session.Has scopes frames) x (fun _ => Session.Has scopes frames)
    (Session.Has scopes frames)

section Settled

variable {α β : Type} {x : CompileM α} {f : α → CompileM β}

theorem CompileM.Settled.bind (first : Settled x) (rest : ∀ a, Settled (f a)) :
    Settled (x >>= f) :=
  fun scopes frames => (first scopes frames).bind fun a => rest a scopes frames

theorem settled_pure (a : α) : Settled (pure a : CompileM α) := fun _ _ _ has => has

theorem settled_emit (i : Instr) : Settled (emit i) := fun _ _ _ has => ⟨has.scopes, has.frames⟩

theorem CompileM.FailsAtOnce.settled (fails : FailsAtOnce x)
    (succeeds : ∀ σ a τ, x σ = .ok a τ → σ = τ) : Settled x := by
  intro scopes frames σ has
  cases result : x σ with
  | ok a τ =>
    obtain rfl := succeeds σ a τ result
    exact has
  | error e τ =>
    obtain rfl := fails σ e τ result
    exact has

theorem settled_valueOf (name : String) : Settled (valueOf name) :=
  (failsAtOnce_slotOf _ _ name).settled fun _ _ _ done => (slotOf_eq_ok done).1

theorem settled_callTarget (name : String) (given : Nat) : Settled (callTarget name given) :=
  (failsAtOnce_callTarget name given).settled fun _ _ _ done => (callTarget_eq_ok done).1

theorem settled_postTarget (op : PostOp) (operand : Expr) : Settled (postTarget op operand) :=
  (failsAtOnce_postTarget op operand).settled fun _ _ _ done => (postTarget_eq_ok done).1

theorem UnaryOp.settled (op : UnaryOp) : Settled op.compile := by
  cases op with
  | not | minus => exact settled_emit _
  | plus => exact settled_pure _

mutual

/-- **Expressions** change neither names nor frames. -/
theorem Expr.settled : (e : Expr) → Settled e.compile
  | .int _ | .bool _ => settled_emit _
  | .var name => (settled_valueOf name).bind fun _ => settled_emit _
  | .call name args =>
    (settled_callTarget name args.length).bind fun _ =>
      (Expr.settledAll args).bind fun _ => settled_emit _
  | .unary op operand => operand.settled.bind fun _ => op.settled
  | .binary _ left right =>
    left.settled.bind fun _ => right.settled.bind fun _ => settled_emit _
  | .post op operand =>
    (settled_postTarget op operand).bind fun _ => (settled_emit _).bind fun _ =>
      (settled_emit _).bind fun _ => (settled_emit _).bind fun _ =>
      (settled_emit _).bind fun _ => settled_emit _

theorem Expr.settledAll : (es : List Expr) → Settled (Expr.compileAll es)
  | [] => settled_pure ()
  | e :: es => e.settled.bind fun _ => Expr.settledAll es

end

end Settled

/-! ## Statements -/

/-- There are as many scopes as frames, and code is written at the end. -/
structure Session.Aligned (σ : Session) : Prop where
  depth : σ.scopes.depth = σ.frames.depth
  atEnd : σ.buffer.position = σ.buffer.code.size

/-- The name that a statement declares on the innermost level, with its meaning: a variable gets
the next free slot, and a function starts behind the jump around it. -/
def Stmt.declared? (σ : Session) : Stmt → Option (String × Decl)
  | .declare name _ => some (name, .var σ.frames.depth σ.frames.current.next)
  | .function name params _ =>
    some (name, .func σ.frames.depth (σ.buffer.position + 1) params.length)
  | _ => none

section Statements

variable {σ τ : Session}

theorem Stmt.scopesAfter_eq (s : Stmt) (atEnd : σ.buffer.position = σ.buffer.code.size) :
    s.scopesAfter σ =
      match s.declared? σ with
      | some (name, decl) => σ.scopes.declare name decl
      | none => σ.scopes := by
  cases s with
  | function name params body =>
    simp only [scopesAfter, declared?]
    rw [atEnd]
  | _ => rfl

theorem Stmt.framesAfter_eq (s : Stmt) :
    s.framesAfter σ =
      if s.isDeclare then σ.frames.modify fun f => { f with next := f.next + 1 }
      else σ.frames := by
  cases s <;> rfl

theorem Stmt.after_of_declared?_eq_none {s : Stmt} (h : s.declared? σ = none) :
    s.scopesAfter σ = σ.scopes ∧ s.framesAfter σ = σ.frames := by
  cases s with
  | declare | function => cases h
  | _ => exact ⟨rfl, rfl⟩

theorem Session.Aligned.stmt (aligned : σ.Aligned) {s : Stmt} (done : s.compile σ = .ok () τ) :
    τ.Aligned := by
  obtain ⟨buffer, scopes, frames⟩ := s.effect aligned.atEnd done
  refine ⟨?_, Buffer.atEnd_of_written buffer⟩
  rw [scopes, frames, s.scopesAfter_eq aligned.atEnd, s.framesAfter_eq]
  have hscopes : Levels.depth (match s.declared? σ with
      | some (name, decl) => σ.scopes.declare name decl
      | none => σ.scopes) = σ.scopes.depth := by
    cases s.declared? σ <;> rfl
  have hframes : Levels.depth (if s.isDeclare then
      σ.frames.modify fun f => { f with next := f.next + 1 } else σ.frames) = σ.frames.depth := by
    split <;> rfl
  rw [hscopes, hframes, aligned.depth]

end Statements

/-- **Statements change nothing but what they declare.** In a session with as many scopes as frames
whose position is at the end, a statement that compiles leaves such a session. On every level the
frame is the one before, except that a declared variable takes a slot of the innermost level. On
every level every name has the meaning it had before, except that of the name that is declared. All
other statements leave names and frames exactly as they were, and so does every expression, also if
it cannot be compiled. -/
theorem statement_declares {σ : Session} (aligned : σ.Aligned) :
    (∀ (s : Stmt) (τ : Session), s.compile σ = .ok () τ →
      τ.Aligned ∧
      (∀ level, τ.frames.at? level =
        if s.isDeclare = true ∧ level = σ.frames.depth then
          some { σ.frames.current with next := σ.frames.current.next + 1 }
        else σ.frames.at? level) ∧
      (∀ level name, τ.scopes.meaning? level name =
        match s.declared? σ with
        | some (new, decl) =>
          if level = σ.frames.depth ∧ name = new then some decl
          else σ.scopes.meaning? level name
        | none => σ.scopes.meaning? level name) ∧
      (s.declared? σ = none → τ.scopes = σ.scopes ∧ τ.frames = σ.frames)) ∧
    ∀ e : Expr, match e.compile σ with
      | .ok _ τ | .error _ τ => τ.scopes = σ.scopes ∧ τ.frames = σ.frames := by
  refine ⟨fun s τ done => ?_, fun e => ?_⟩
  · obtain ⟨-, scopes, frames⟩ := s.effect aligned.atEnd done
    refine ⟨aligned.stmt done, fun level => ?_, fun level name => ?_, fun nothing => ?_⟩
    · rw [frames, s.framesAfter_eq]
      by_cases isVariable : s.isDeclare = true
      · rw [if_pos isVariable, Levels.at?_modify]
        simp only [isVariable, true_and]
      · rw [if_neg isVariable, if_neg fun both => isVariable both.1]
    · rw [scopes, s.scopesAfter_eq aligned.atEnd, ← aligned.depth]
      cases s.declared? σ with
      | none => rfl
      | some new => exact σ.scopes.meaning?_declare new.1 new.2 level name
    · obtain ⟨sameScopes, sameFrames⟩ := Stmt.after_of_declared?_eq_none nothing
      exact ⟨scopes.trans sameScopes, frames.trans sameFrames⟩
  · have settled := e.settled σ.scopes σ.frames σ ⟨rfl, rfl⟩
    cases result : e.compile σ with
    | ok _ τ | error _ τ =>
      rw [result] at settled
      exact ⟨settled.scopes, settled.frames⟩

/-- A loop that declares names on five levels. -/
def nestedLoop : Stmt :=
  .loop (.declare "i" (.int 0)) (.binary .lt (.var "i") (.int 3))
    (.expr (.post .increment (.var "i")))
    [.function "f" ["x"] [.block [.declare "y" (.var "x"), .ret (some (.var "y"))]],
      .cond (.bool false) [.declare "z" (.int 1)]
        (.cond (.bool true) [.expr (.call "f" [.var "i"])] (.block [.declare "z" (.int 2)]))]

/-- A function around the loop is declared, and nothing else is. -/
theorem statement_declares_nested :
    ∃ τ, (Stmt.function "outer" ["n"] [nestedLoop]).compile .initial = .ok () τ ∧
      τ.scopes.meaning? 0 "outer" = some (.func 0 6 1) ∧
      τ.scopes.meaning? 0 "print" = some (.func 0 1 1) ∧
      (∀ name, name ≠ "outer" →
        τ.scopes.meaning? 0 name = Session.initial.scopes.meaning? 0 name) ∧
      τ.frames.at? 0 = some .root ∧ τ.frames.at? 1 = none := by
  obtain ⟨τ, done⟩ : ∃ τ, (Stmt.function "outer" ["n"] [nestedLoop]).compile .initial = .ok () τ :=
    exists_of_value (by decide +kernel)
  have aligned : Session.initial.Aligned := ⟨rfl, rfl⟩
  obtain ⟨-, frames, names, -⟩ := (statement_declares aligned).1 _ τ done
  refine ⟨τ, done, names 0 "outer", names 0 "print", fun name other => ?_, frames 0, frames 1⟩
  refine (names 0 name).trans (if_neg fun both => other both.2)

end NestLang
