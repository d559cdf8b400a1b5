import Mathlib.Data.Set.Function
import Mathlib.Logic.Equiv.Basic
import NestLang.Proofs.Safety
import NestLang.Tree.Rename

/-!
# Names matter only up to renaming

The compiler compares names and reports them, and does nothing else with them. If different names
stay different, compiling a renamed program leads from session to session as compiling the program
does, with all names in the sessions replaced.

* `Scopes.rename`, `Session.Renamed`: scopes and sessions with every name replaced.
* `CompileM.Renames`: two actions that do the same but for the names.
* `Expr.renames`, `Stmt.renames`: expressions and statements.
* `compile_rename`: **a renamed program has the same code, or the renamed error.**
-/

namespace NestLang

open CompileM

variable {α β : Type} {r : String → String} {names : Set String}

/-! ## Renamed scopes -/

/-- The declarations of one level with every name replaced. -/
def Scope.rename (r : String → String) (scope : Scope α) : Scope α :=
  scope.map fun d => (r d.1, d.2)

/-- The scopes with every name replaced. -/
def Scopes.rename (r : String → String) (s : Scopes α) : Scopes α :=
  ⟨Scope.rename r s.current, s.outer.map (Scope.rename r)⟩

/-- All names that are declared are among the given ones. -/
def Scopes.Within (names : Set String) (s : Scopes α) : Prop :=
  ∀ scope ∈ s.toList, ∀ d ∈ scope, d.1 ∈ names

theorem Scope.lookup_rename (inj : Set.InjOn r names) {scope : Scope α}
    (within : ∀ d ∈ scope, d.1 ∈ names) {name : String} (mem : name ∈ names) :
    (Scope.rename r scope).lookup (r name) = scope.lookup name := by
  induction scope with
  | nil => rfl
  | cons d scope ih =>
    obtain ⟨other, meaning⟩ := d
    have rest := ih fun d hd => within d (List.mem_cons_of_mem _ hd)
    show List.lookup (r name) ((r other, meaning) :: Scope.rename r scope) = _
    rw [List.lookup_cons, List.lookup_cons, rest]
    by_cases same : name = other
    · simp [same]
    · have apart : r name ≠ r other := fun h => same (inj mem (within _ List.mem_cons_self) h)
      simp [beq_false_of_ne same, beq_false_of_ne apart]

/-- **A renamed name stands for the same** in renamed scopes. -/
theorem Scopes.resolve?_rename (inj : Set.InjOn r names) {s : Scopes α} (within : s.Within names)
    {name : String} (mem : name ∈ names) : (s.rename r).resolve? (r name) = s.resolve? name := by
  show (s.toList.map (Scope.rename r)).findSome? (·.lookup (r name)) = s.toList.findSome? _
  unfold Scopes.Within at within
  generalize s.toList = scopes at within
  induction scopes with
  | nil => rfl
  | cons scope scopes ih =>
    rw [List.map_cons, List.findSome?_cons, List.findSome?_cons,
      Scope.lookup_rename inj (within scope List.mem_cons_self) mem,
      ih fun other h => within other (List.mem_cons_of_mem _ h)]

theorem Scopes.Within.declare {s : Scopes α} (within : s.Within names) {name : String}
    (mem : name ∈ names) (meaning : α) : (s.declare name meaning).Within names := by
  intro scope hscope d hd
  rcases List.mem_cons.1 hscope with rfl | hscope
  · rcases List.mem_cons.1 hd with rfl | hd
    · exact mem
    · exact within _ List.mem_cons_self d hd
  · exact within scope (List.mem_cons_of_mem _ hscope) d hd

theorem Scopes.Within.enter {s : Scopes α} (within : s.Within names) :
    Scopes.Within names (s.enter []) := by
  intro scope hscope d hd
  rcases List.mem_cons.1 hscope with rfl | hscope
  · cases hd
  · exact within scope hscope d hd

theorem Scopes.Within.leave {s : Scopes α} (within : s.Within names) :
    Scopes.Within names s.leave := by
  obtain ⟨current, outer⟩ := s
  cases outer with
  | nil => exact within
  | cons scope scopes => exact fun scope' h => within scope' (List.mem_cons_of_mem _ h)

theorem Scopes.rename_leave (s : Scopes α) : (s.rename r).leave = s.leave.rename r := by
  obtain ⟨current, outer⟩ := s
  cases outer <;> rfl

/-! ## Sessions under other names -/

/-- The second session is the first one with every name replaced. All names are among the given
ones. What has been reported does not count. -/
inductive Session.Renamed (r : String → String) (names : Set String) : Session → Session → Prop
  | intro {buffer scopes frames log log'} (within : scopes.Within names) :
      Renamed r names ⟨buffer, scopes, frames, log⟩ ⟨buffer, scopes.rename r, frames, log'⟩

namespace CompileM

/-- The second action does under other names what the first one does: it returns the same, or fails
with the same error under another name. -/
def Renames (r : String → String) (names : Set String) (x y : CompileM α) : Prop :=
  ∀ σ σ' : Session, σ.Renamed r names σ' → match x σ, y σ' with
    | .ok a τ, .ok b τ' => b = a ∧ τ.Renamed r names τ'
    | .error e _, .error e' _ => e' = e.rename r
    | _, _ => False

section Actions

variable {x y : CompileM α} {f g : α → CompileM β}

/-- **One action after the other.** -/
theorem Renames.bind (first : Renames r names x y) (rest : ∀ a, Renames r names (f a) (g a)) :
    Renames r names (x >>= f) (y >>= g) := by
  intro σ σ' renamed
  have h := first σ σ' renamed
  rw [bind_run, bind_run]
  cases hx : x σ <;> cases hy : y σ' <;> simp only [hx, hy] at h
  · obtain ⟨rfl, renamed'⟩ := h
    exact rest _ _ _ renamed'
  · exact h

theorem renames_pure (a : α) : Renames r names (pure a) (pure a) :=
  fun _ _ renamed => ⟨rfl, renamed⟩

theorem renames_throw (e : CompileError) :
    Renames r names (throw e : CompileM α) (throw (e.rename r)) := fun _ _ _ => rfl

theorem renames_onBuffer (action : StateM Buffer α) :
    Renames r names (onBuffer action) (onBuffer action) := by
  rintro _ _ ⟨within⟩
  exact ⟨rfl, ⟨within⟩⟩

theorem renames_write (i : Instr) : Renames r names (write i) (write i) := renames_onBuffer _

theorem renames_emit (i : Instr) : Renames r names (emit i) (emit i) :=
  (renames_write i).bind fun _ => renames_pure ()

theorem renames_patch (address : Nat) (i : Instr) :
    Renames r names (patch address i) (patch address i) :=
  (renames_onBuffer _).bind fun _ => renames_pure ()

theorem renames_here : Renames r names here here := by
  rintro _ _ ⟨within⟩
  exact ⟨rfl, ⟨within⟩⟩

theorem renames_level : Renames r names level level := by
  rintro _ _ ⟨within⟩
  exact ⟨rfl, ⟨within⟩⟩

theorem renames_params : Renames r names params params := by
  rintro _ _ ⟨within⟩
  exact ⟨rfl, ⟨within⟩⟩

theorem renames_reserve : Renames r names reserve reserve := by
  rintro _ _ ⟨within⟩
  exact ⟨rfl, ⟨within⟩⟩

theorem renames_release : Renames r names release release := by
  rintro _ _ ⟨within⟩
  exact ⟨rfl, ⟨within⟩⟩

theorem renames_record (e e' : Event) : Renames r names (record e) (record e') := by
  rintro _ _ ⟨within⟩
  exact ⟨rfl, ⟨within⟩⟩

theorem renames_declare {name : String} (mem : name ∈ names) (meaning : Decl) :
    Renames r names (declare name meaning) (declare (r name) meaning) := by
  rintro _ _ ⟨within⟩
  exact ⟨rfl, ⟨within.declare mem meaning⟩⟩

theorem renames_resolve? (inj : Set.InjOn r names) {name : String} (mem : name ∈ names) :
    Renames r names (resolve? name) (resolve? (r name)) := by
  rintro _ _ ⟨within⟩
  exact ⟨Scopes.resolve?_rename inj within mem, ⟨within⟩⟩

theorem renames_openLevel (frame : Frame) :
    Renames r names (openLevel frame) (openLevel frame) := by
  rintro _ _ ⟨within⟩
  exact ⟨rfl, ⟨within.enter⟩⟩

theorem renames_closeLevel (kind : LevelKind) :
    Renames r names (closeLevel kind) (closeLevel kind) := by
  rintro _ _ @⟨_, scopes, ⟨_, outer⟩, _, _, within⟩
  cases outer with
  | nil => rfl
  | cons frame frames =>
    refine ⟨rfl, ?_⟩
    dsimp only
    rw [Scopes.rename_leave]
    exact ⟨within.leave⟩

theorem renames_emitReturn : Renames r names emitReturn emitReturn :=
  renames_level.bind fun _ => renames_params.bind fun _ => renames_emit _

/-! ## Code around code -/

theorem Renames.forward (jump : Nat → Instr) (rest : Renames r names x y) :
    Renames r names (forward jump x) (forward jump y) :=
  (renames_write _).bind fun _ => rest.bind fun _ => renames_here.bind fun _ =>
    (renames_patch _ _).bind fun _ => renames_pure _

theorem Renames.branch {test test' body body' alternative alternative' : CompileM Unit}
    (htest : Renames r names test test') (hbody : Renames r names body body')
    (hother : Renames r names alternative alternative') :
    Renames r names (branch test body alternative) (branch test' body' alternative') := by
  refine htest.bind fun _ => (renames_emit _).bind fun _ => ?_
  refine (Renames.forward _ (hbody.bind fun _ => renames_write _)).bind fun _ => ?_
  exact hother.bind fun _ => renames_here.bind fun _ => renames_patch _ _

theorem renames_openBlock : Renames r names openBlock openBlock := by
  refine renames_level.bind fun _ => renames_reserve.bind fun _ => ?_
  refine (renames_emit _).bind fun _ => (renames_write _).bind fun _ => ?_
  refine (renames_emit _).bind fun _ => (renames_write _).bind fun _ => ?_
  refine renames_emitReturn.bind fun _ => renames_here.bind fun _ => ?_
  refine (renames_patch _ _).bind fun _ => (renames_openLevel _).bind fun _ => ?_
  exact (renames_record _ _).bind fun _ => renames_pure _

theorem renames_closeBlock (skip : Nat) : Renames r names (closeBlock skip) (closeBlock skip) := by
  refine renames_level.bind fun _ => (renames_emit _).bind fun _ => ?_
  refine (renames_emit _).bind fun _ => (renames_emit _).bind fun _ => ?_
  refine (renames_emit _).bind fun _ => (renames_closeLevel _).bind fun _ => ?_
  refine renames_here.bind fun _ => (renames_patch _ _).bind fun _ => ?_
  refine (renames_emit _).bind fun _ => (renames_emit _).bind fun _ => ?_
  exact renames_release.bind fun _ => renames_record _ _

/-- **A block** under other names. -/
theorem Renames.inBlock {body body' : CompileM Unit} (hbody : Renames r names body body') :
    Renames r names (inBlock body) (inBlock body') :=
  renames_openBlock.bind fun skip => hbody.bind fun _ => renames_closeBlock skip

theorem renames_declareParams (level : Nat) (params : List String)
    (mem : ∀ name ∈ params, name ∈ names) :
    Renames r names (declareParams level params) (declareParams level (params.map r)) := by
  induction params with
  | nil => exact renames_pure ()
  | cons name params ih =>
    rw [List.map_cons, declareParams, declareParams, List.length_map]
    refine (renames_declare (mem name List.mem_cons_self) _).bind fun _ => ?_
    exact ih fun other h => mem other (List.mem_cons_of_mem _ h)

/-- **A function** under other names. -/
theorem Renames.inFunction {name : String} {params : List String} {body body' : CompileM Unit}
    (mem : name ∈ names) (memParams : ∀ name ∈ params, name ∈ names)
    (hbody : Renames r names body body') :
    Renames r names (inFunction name params body)
      (inFunction (r name) (params.map r) body') := by
  unfold CompileM.inFunction
  rw [List.length_map]
  refine Renames.forward _ (renames_level.bind fun outer => renames_here.bind fun entry => ?_)
  refine (renames_record _ _).bind fun _ => ?_
  refine (renames_declare mem _).bind fun _ => (renames_openLevel _).bind fun _ => ?_
  refine renames_level.bind fun inner => ?_
  refine (renames_declareParams inner params memParams).bind fun _ => hbody.bind fun _ => ?_
  exact (renames_emit _).bind fun _ => (renames_emit _).bind fun _ => renames_closeLevel _

end Actions

end CompileM

/-! ## Uses of names -/

section Uses

variable {name : String}

theorem renames_slotOf (inj : Set.InjOn r names) (mem : name ∈ names)
    (function undeclared : CompileError) :
    Renames r names (slotOf function undeclared name)
      (slotOf (function.rename r) (undeclared.rename r) (r name)) := by
  refine (renames_resolve? inj mem).bind fun meaning => ?_
  rcases meaning with _ | (_ | _ | _)
  · exact renames_throw undeclared
  · exact renames_pure _
  · exact renames_pure _
  · exact renames_throw function

theorem renames_valueOf (inj : Set.InjOn r names) (mem : name ∈ names) :
    Renames r names (valueOf name) (valueOf (r name)) :=
  renames_slotOf inj mem (.functionAsValue name) (.unresolved name)

theorem renames_assignTarget (inj : Set.InjOn r names) (mem : name ∈ names) :
    Renames r names (assignTarget name) (assignTarget (r name)) :=
  renames_slotOf inj mem (.notAssignable name) (.undeclaredAssignment name)

theorem renames_callTarget (inj : Set.InjOn r names) (mem : name ∈ names) (given : Nat) :
    Renames r names (callTarget name given) (callTarget (r name) given) := by
  refine (renames_resolve? inj mem).bind fun meaning => ?_
  rcases meaning with _ | (_ | _ | ⟨level, entry, params⟩)
  · exact renames_throw (.unresolved name)
  · exact renames_throw (.notCallable name)
  · exact renames_throw (.notCallable name)
  · by_cases count : given = params
    · simp only [if_pos count]
      exact renames_pure _
    · simp only [if_neg count]
      exact renames_throw (.argumentCount name params given)

theorem renames_postTarget (inj : Set.InjOn r names) (op : PostOp) (operand : Expr)
    (mem : ∀ name ∈ operand.names, name ∈ names) :
    Renames r names (postTarget op operand) (postTarget op (operand.rename r)) := by
  cases operand with
  | var name =>
    rw [Expr.rename]
    refine (renames_resolve? inj (mem name (by simp [Expr.names]))).bind fun meaning => ?_
    rcases meaning with _ | (_ | _ | _)
    · exact renames_throw (.unresolved name)
    · exact renames_pure _
    · exact renames_throw (.invalidOperand op)
    · exact renames_throw (.invalidOperand op)
  | _ =>
    rw [Expr.rename]
    exact renames_throw (.invalidOperand op)

end Uses

/-! ## Expressions and statements -/

theorem UnaryOp.renames (op : UnaryOp) : Renames r names op.compile op.compile := by
  cases op with
  | not | minus => exact renames_emit _
  | plus => exact renames_pure ()

theorem Expr.length_renameAll (es : List Expr) : (Expr.renameAll r es).length = es.length := by
  induction es with
  | nil => rfl
  | cons e es ih => simp [Expr.renameAll, ih]

mutual

/-- **An expression** under other names. -/
theorem Expr.renames (inj : Set.InjOn r names) : (e : Expr) → (∀ name ∈ e.names, name ∈ names) →
    Renames r names e.compile (e.rename r).compile
  | .int _, _ => renames_emit _
  | .bool _, _ => renames_emit _
  | .var name, mem => by
    rw [Expr.rename, Expr.compile, Expr.compile]
    exact (renames_valueOf inj (mem name (by simp [Expr.names]))).bind fun _ => renames_emit _
  | .call name args, mem => by
    simp only [Expr.names, List.forall_mem_cons] at mem
    rw [Expr.rename, Expr.compile, Expr.compile, Expr.length_renameAll]
    refine (renames_callTarget inj mem.1 _).bind fun _ => ?_
    exact (Expr.renamesAll inj args mem.2).bind fun _ => renames_emit _
  | .unary op operand, mem => by
    rw [Expr.rename, Expr.compile, Expr.compile]
    exact (operand.renames inj mem).bind fun _ => op.renames
  | .binary op left right, mem => by
    simp only [Expr.names, List.forall_mem_append] at mem
    rw [Expr.rename, Expr.compile, Expr.compile]
    refine (left.renames inj mem.1).bind fun _ => ?_
    exact (right.renames inj mem.2).bind fun _ => renames_emit _
  | .post op operand, mem => by
    rw [Expr.rename, Expr.compile, Expr.compile]
    refine (renames_postTarget inj op operand mem).bind fun _ => ?_
    refine (renames_emit _).bind fun _ => (renames_emit _).bind fun _ => ?_
    exact (renames_emit _).bind fun _ => (renames_emit _).bind fun _ => renames_emit _

theorem Expr.renamesAll (inj : Set.InjOn r names) : (es : List Expr) →
    (∀ name ∈ Expr.namesAll es, name ∈ names) →
    Renames r names (Expr.compileAll es) (Expr.compileAll (Expr.renameAll r es))
  | [], _ => renames_pure ()
  | e :: es, mem => by
    simp only [Expr.namesAll, List.forall_mem_append] at mem
    rw [Expr.renameAll, Expr.compileAll, Expr.compileAll]
    exact (e.renames inj mem.1).bind fun _ => Expr.renamesAll inj es mem.2

end

mutual

/-- **A statement** under other names. -/
theorem Stmt.renames (inj : Set.InjOn r names) : (s : Stmt) → (∀ name ∈ s.names, name ∈ names) →
    Renames r names s.compile (s.rename r).compile
  | .declare name value, mem => by
    simp only [Stmt.names, List.forall_mem_cons] at mem
    rw [Stmt.rename, Stmt.compile, Stmt.compile]
    refine renames_level.bind fun _ => renames_reserve.bind fun _ => ?_
    refine (renames_emit _).bind fun _ => (renames_declare mem.1 _).bind fun _ => ?_
    exact (value.renames inj mem.2).bind fun _ => renames_emit _
  | .assign name value, mem => by
    simp only [Stmt.names, List.forall_mem_cons] at mem
    rw [Stmt.rename, Stmt.compile, Stmt.compile]
    refine (renames_assignTarget inj mem.1).bind fun _ => ?_
    exact (value.renames inj mem.2).bind fun _ => renames_emit _
  | .function name params body, mem => by
    simp only [Stmt.names, List.cons_append, List.forall_mem_cons, List.forall_mem_append] at mem
    rw [Stmt.rename, Stmt.compile, Stmt.compile]
    exact (Stmt.renamesAll inj body mem.2.2).inFunction mem.1 mem.2.1
  | .ret none, _ => by
    rw [Stmt.rename, Option.map_none, Stmt.compile]
    exact (renames_emit _).bind fun _ => renames_emitReturn
  | .ret (some value), mem => by
    rw [Stmt.rename, Option.map_some, Stmt.compile, Stmt.compile]
    exact (value.renames inj mem).bind fun _ => renames_emitReturn
  | .cond test body alternative, mem => by
    simp only [Stmt.names, List.forall_mem_append] at mem
    rw [Stmt.rename, Stmt.compile, Stmt.compile]
    exact (test.renames inj mem.1.1).branch (Stmt.renamesAll inj body mem.1.2).inBlock
      (alternative.renames inj mem.2)
  | .loop first test after body, mem => by
    simp only [Stmt.names, List.forall_mem_append] at mem
    rw [Stmt.rename, Stmt.compile, Stmt.compile]
    refine Renames.inBlock ((first.renames inj mem.1.1.1).bind fun _ => ?_)
    refine renames_here.bind fun _ => (test.renames inj mem.1.1.2).bind fun _ => ?_
    refine (renames_emit _).bind fun _ => Renames.forward _ ?_
    refine (Stmt.renamesAll inj body mem.2).inBlock.bind fun _ => ?_
    exact (after.renames inj mem.1.2).bind fun _ => renames_emit _
  | .block body, mem => by
    rw [Stmt.rename, Stmt.compile, Stmt.compile]
    exact (Stmt.renamesAll inj body mem).inBlock
  | .expr value, mem => by
    rw [Stmt.rename, Stmt.compile, Stmt.compile]
    exact (value.renames inj mem).bind fun _ => renames_emit _
  | .empty, _ => renames_pure ()

theorem Stmt.renamesAll (inj : Set.InjOn r names) : (body : List Stmt) →
    (∀ name ∈ Stmt.namesAll body, name ∈ names) →
    Renames r names (Stmt.compileAll body) (Stmt.compileAll (Stmt.renameAll r body))
  | [], _ => renames_pure ()
  | s :: rest, mem => by
    simp only [Stmt.namesAll, List.forall_mem_append] at mem
    rw [Stmt.renameAll, Stmt.compileAll, Stmt.compileAll]
    exact (s.renames inj mem.1).bind fun _ => Stmt.renamesAll inj rest mem.2

theorem Else.renames (inj : Set.InjOn r names) : (alternative : Else) →
    (∀ name ∈ alternative.names, name ∈ names) →
    Renames r names alternative.compile (alternative.rename r).compile
  | .none, _ => renames_pure ()
  | .block body, mem => by
    rw [Else.rename, Else.compile, Else.compile]
    exact (Stmt.renamesAll inj body mem).inBlock
  | .cond test body alternative, mem => by
    simp only [Else.names, List.forall_mem_append] at mem
    rw [Else.rename, Else.compile, Else.compile]
    exact (test.renames inj mem.1.1).branch (Stmt.renamesAll inj body mem.1.2).inBlock
      (alternative.renames inj mem.2)

end

/-! ## Programs -/

theorem Program.renames (inj : Set.InjOn r names) (program : Program)
    (mem : ∀ name ∈ Stmt.namesAll program, name ∈ names) :
    Renames r names (Program.compile program) (Program.compile (Stmt.renameAll r program)) := by
  refine (renames_record _ _).bind fun _ => (Stmt.renamesAll inj program mem).bind fun _ => ?_
  rintro _ _ ⟨within⟩
  exact ⟨rfl, ⟨within⟩⟩

/-- **Names matter only up to renaming.** Let `r` keep the names of a program and `print` apart, and
fix `print`. If the program compiles, the program with all names replaced has the same code.
Otherwise it fails with the same kind of error, which reports the replaced name. -/
theorem compile_rename (program : Program) (r : String → String)
    (inj : Set.InjOn r {name | name = "print" ∨ name ∈ Stmt.namesAll program})
    (fixed : r "print" = "print") :
    compile (Stmt.renameAll r program) = (compile program).mapError (CompileError.rename r) := by
  have within : Session.initial.scopes.Within
      {name | name = "print" ∨ name ∈ Stmt.namesAll program} := by
    intro scope hscope d hd
    obtain rfl := List.mem_singleton.1 hscope
    obtain rfl := List.mem_singleton.1 hd
    exact .inl rfl
  have scopes : Session.initial.scopes.rename r = Session.initial.scopes := by
    simp [Session.initial_eq, Scopes.rename, Scope.rename, Levels.root, fixed]
  have start : Session.initial.Renamed r _ ⟨Session.initial.buffer,
    Session.initial.scopes.rename r, Session.initial.frames, Session.initial.log⟩ := ⟨within⟩
  rw [scopes] at start
  have h := Program.renames inj program (fun _ mem => .inr mem) _ _ start
  unfold compile EStateM.run
  cases hx : Program.compile program .initial <;>
    cases hy : Program.compile (Stmt.renameAll r program) .initial <;> simp only [hx, hy] at h
  · obtain ⟨-, ⟨-⟩⟩ := h
    rfl
  · rw [h]
    rfl

/-- The counter and the parameter of `findProgram` change their names, and the code stays. Where one
of them is not declared, the error reports the other one. -/
theorem compile_rename_find :
    let r := Equiv.swap "i" "limit"
    r "print" = "print" ∧
    compile (Stmt.renameAll r findProgram) = .ok findCode ∧
    compile (Stmt.renameAll r [.declare "i" (.int 1), .assign "limit" (.var "i")]) =
      .error (.undeclaredAssignment "i") := by
  intro r
  have fixed : r "print" = "print" := by decide +kernel
  have failed : compile [.declare "i" (.int 1), .assign "limit" (.var "i")] =
      .error (.undeclaredAssignment "limit") := rfl
  refine ⟨fixed, ?_, ?_⟩
  · rw [compile_rename findProgram r r.injective.injOn fixed, compile_findProgram]
    rfl
  · rw [compile_rename _ r r.injective.injOn fixed, failed]
    exact congrArg (Except.error ∘ CompileError.undeclaredAssignment) (Equiv.swap_apply_right _ _)

end NestLang
