import NestLang.Proofs.Chunks
import NestLang.Proofs.Failures
import NestLang.Proofs.Scoping

/-!
# Every name has a slot of its own

One session compiles several programs, and a compilation may fail at whatever depth, which leaves
all levels open that were open at that point. Still scopes and frames go together, every name has
its slot within the frame of its level, and no slot is taken twice.

* `Scope.Fits`: the names of one level fit its frame.
* `Session.Ordered`: so do those of all levels of a session, and the flags of the blocks that are
  open have slots that no name has.
* `Session.Unshared`: no two names in scope have the same slot.
* `Session.Left`: the sessions that compilations leave.
* `session_ordered`: **all of these are in order.**
-/

namespace NestLang

open CompileM

/-! ## Levels by their numbers -/

namespace Levels

variable {α : Type} (l : Levels α)

/-- The item of the level with a number, if it is open. -/
def at? (level : Nat) : Option α := l.toList.reverse[level]?

theorem at?_of_lt {level : Nat} (h : level < l.depth) : l.at? level = l.outer.reverse[level]? := by
  have bound : level < l.outer.reverse.length := by simpa [depth] using h
  simp [at?, toList, List.getElem?_append_left bound]

@[simp] theorem at?_depth : l.at? l.depth = some l.current := by
  simp [at?, toList, depth]

theorem le_of_at? {level : Nat} {a : α} (h : l.at? level = some a) : level ≤ l.depth := by
  obtain ⟨bound, -⟩ := List.getElem?_eq_some_iff.1 h
  simp only [toList, List.length_reverse, List.length_cons] at bound
  exact Nat.le_of_lt_succ bound

theorem exists_at? {level : Nat} (h : level ≤ l.depth) : ∃ a, l.at? level = some a := by
  have bound : level < l.toList.reverse.length := by
    simp only [toList, List.length_reverse, List.length_cons]
    exact Nat.lt_succ_of_le h
  exact ⟨_, List.getElem?_eq_getElem bound⟩

theorem at?_enter {level : Nat} (a : α) (h : level ≤ l.depth) :
    (l.enter a).at? level = l.at? level :=
  at?_of_lt _ (Nat.lt_succ_of_le h)

end Levels

theorem Scopes.exists_of_resolve? {α : Type} {s : Scopes α} {name : String} {a : α}
    (h : s.resolve? name = some a) :
    ∃ level scope, s.at? level = some scope ∧ scope.lookup name = some a := by
  obtain ⟨scope, mem, found⟩ := List.exists_of_findSome?_eq_some h
  obtain ⟨level, at_level⟩ := List.mem_iff_getElem?.1 (List.mem_reverse.2 mem)
  exact ⟨level, scope, at_level, found⟩

theorem Scope.lookup_declare {α : Type} (scope : Scope α) (name other : String) (a : α) :
    List.lookup other ((name, a) :: scope) =
      if other = name then some a else scope.lookup other := by
  rw [List.lookup_cons]
  by_cases same : other = name
  · simp [same]
  · simp [same, beq_false_of_ne same]

/-! ## Names of one level -/

/-- The offset of the first slot for variables on a level. The outermost level has no header. -/
def firstSlot (level : Nat) : Nat := if level = 0 then 0 else Frame.headerSize

/-- What is declared belongs to the level. A variable has its slot above the header and below the
next free one, a parameter has its own among the arguments, and a function starts within the code
or at its end. -/
def Decl.Fits (level : Nat) (frame : Frame) (size : Nat) : Decl → Prop
  | .var l offset => l = level ∧ firstSlot level ≤ offset ∧ offset < frame.next
  | .param l offset => l = level ∧ -frame.params ≤ offset ∧ offset ≤ -1
  | .func l entry _ => l = level ∧ entry ≤ size

/-- The names of a level fit its frame, and no two of them have the same slot. -/
structure Scope.Fits (scope : Scope Decl) (level : Nat) (frame : Frame) (size : Nat) : Prop where
  decl : ∀ {name decl}, scope.lookup name = some decl → decl.Fits level frame size
  distinct : ∀ {name name' decl decl' slot}, name ≠ name' → scope.lookup name = some decl →
    scope.lookup name' = some decl' → decl.slot? = some slot → decl'.slot? ≠ some slot
  first : firstSlot level ≤ frame.next

section Level

variable {level : Nat} {frame frame' : Frame} {size size' : Nat} {decl : Decl}

theorem Decl.Fits.mono (h : decl.Fits level frame size) (next : frame.next ≤ frame'.next)
    (params : frame'.params = frame.params) (le : size ≤ size') :
    decl.Fits level frame' size' := by
  cases decl with
  | var l offset => exact ⟨h.1, h.2.1, by have := h.2.2; omega⟩
  | param l offset => exact ⟨h.1, by rw [params]; exact h.2.1, h.2.2⟩
  | func l entry count => exact ⟨h.1, Nat.le_trans h.2 le⟩

theorem Decl.Fits.slot {l : Nat} {offset : Int} (h : decl.Fits level frame size)
    (slot : decl.slot? = some (l, offset)) :
    l = level ∧ (firstSlot level ≤ offset ∧ offset < frame.next ∨ offset ≤ -1) := by
  cases decl with
  | var =>
    cases slot
    exact ⟨h.1, .inl h.2⟩
  | param =>
    cases slot
    exact ⟨h.1, .inr h.2.2⟩
  | func => cases slot

namespace Scope.Fits

variable {scope : Scope Decl}

theorem nil (first : firstSlot level ≤ frame.next) : Scope.Fits [] level frame size where
  decl found := by simp at found
  distinct _ found := by simp at found
  first := first

theorem mono (h : scope.Fits level frame size) (next : frame.next ≤ frame'.next)
    (params : frame'.params = frame.params) (le : size ≤ size') :
    scope.Fits level frame' size' where
  decl found := (h.decl found).mono next params le
  distinct := h.distinct
  first := Nat.le_trans h.first next

/-- **One more name**, whose slot no other name has. -/
theorem declare (h : scope.Fits level frame size) (name : String)
    (fits : decl.Fits level frame size)
    (fresh : ∀ {other decl' slot}, scope.lookup other = some decl' → decl'.slot? = some slot →
      decl.slot? ≠ some slot) :
    Scope.Fits ((name, decl) :: scope) level frame size where
  decl {other decl'} found := by
    rw [lookup_declare] at found
    by_cases same : other = name
    · rw [if_pos same] at found
      cases found
      exact fits
    · rw [if_neg same] at found
      exact h.decl found
  distinct {first second decl₁ decl₂ slot} ne found₁ found₂ slot₁ slot₂ := by
    rw [lookup_declare] at found₁ found₂
    by_cases same₁ : first = name
    · have same₂ : second ≠ name := fun same₂ => ne (same₁.trans same₂.symm)
      rw [if_pos same₁] at found₁
      rw [if_neg same₂] at found₂
      cases found₁
      exact fresh found₂ slot₂ slot₁
    · rw [if_neg same₁] at found₁
      by_cases same₂ : second = name
      · rw [if_pos same₂] at found₂
        cases found₂
        exact fresh found₁ slot₁ slot₂
      · rw [if_neg same₂] at found₂
        exact h.distinct ne found₁ found₂ slot₁ slot₂
  first := h.first

theorem next_free (h : scope.Fits level frame size) {name : String}
    (found : scope.lookup name = some decl) : decl.slot? ≠ some (level, (frame.next : Int)) := by
  intro slot
  obtain ⟨-, bounds⟩ := (h.decl found).slot slot
  omega

theorem declareVar (h : scope.Fits level frame size) (name : String) (le : size ≤ size') :
    Scope.Fits ((name, .var level frame.next) :: scope) level
      { frame with next := frame.next + 1 } size' := by
  have grown : scope.Fits level { frame with next := frame.next + 1 } size' :=
    h.mono (Nat.le_succ _) rfl le
  refine grown.declare name ?_ ?_
  · have first := h.first
    exact ⟨rfl, by omega, by dsimp only; omega⟩
  · intro other decl' slot found taken new
    cases new
    exact h.next_free found taken

theorem declareFunc (h : scope.Fits level frame size) (name : String) {entry params : Nat}
    (le : entry ≤ size) : Scope.Fits ((name, .func level entry params) :: scope) level frame size :=
  h.declare name ⟨rfl, le⟩ fun _ _ slot => by cases slot

theorem declareParams {names : List String} {s : Scopes Decl}
    (h : Scope.Fits s.current level frame size) (room : names.length ≤ frame.params)
    (below : ∀ {name decl slot}, s.current.lookup name = some decl → decl.slot? = some slot →
      slot.2 < -(names.length : Int)) :
    Scope.Fits (Scopes.declareParams level names s).current level frame size := by
  induction names generalizing s with
  | nil => exact h
  | cons name names ih =>
    rw [List.length_cons] at room
    refine ih (h.declare name ⟨rfl, ?_, ?_⟩ ?_) (Nat.le_of_succ_le room) ?_
    · omega
    · omega
    · intro other decl slot found taken new
      cases new
      have lower := below found taken
      simp only [List.length_cons] at lower
      omega
    · intro other decl slot found taken
      change List.lookup other ((name, _) :: s.current) = _ at found
      rw [lookup_declare] at found
      by_cases same : other = name
      · rw [if_pos same] at found
        cases found
        cases taken
        simp only
        omega
      · rw [if_neg same] at found
        have lower := below found taken
        simp only [List.length_cons] at lower
        omega

end Scope.Fits

end Level

/-! ## Sessions in order -/

/-- A slot of a level around the innermost one is taken, and no name of that level has it. -/
structure Session.Reserved (σ : Session) (level : Nat) (offset : Int) : Prop where
  around : level < σ.frames.depth
  taken : ∃ frame, σ.frames.at? level = some frame ∧ firstSlot level ≤ offset ∧ offset < frame.next
  free : ∀ {scope name decl}, σ.scopes.at? level = some scope → scope.lookup name = some decl →
    decl.slot? ≠ some (level, offset)

/-- There are as many scopes as frames, code is written at the end, the names of every level fit its
frame, and the flags of the blocks that are open have slots for themselves. -/
structure Session.Ordered (flags : List (Nat × Int)) (σ : Session) : Prop where
  depth : σ.scopes.depth = σ.frames.depth
  atEnd : σ.buffer.position = σ.buffer.code.size
  fits : ∀ {level scope frame}, σ.scopes.at? level = some scope → σ.frames.at? level = some frame →
    scope.Fits level frame σ.buffer.code.size
  flags : ∀ {level offset}, (level, offset) ∈ flags → σ.Reserved level offset

/-- The slot of the variable or the parameter that a name stands for. -/
def Session.slot? (σ : Session) (name : String) : Option (Nat × Int) :=
  (σ.scopes.resolve? name).bind Decl.slot?

/-- Different names in scope have different slots, none of which belongs to the header of a frame
or to a flag. -/
structure Session.Unshared (flags : List (Nat × Int)) (σ : Session) : Prop where
  names : ∀ {name name' slot}, name ≠ name' → σ.slot? name = some slot → σ.slot? name' ≠ some slot
  header : ∀ {name level offset}, σ.slot? name = some (level, offset) →
    ¬ (0 < level ∧ 0 ≤ offset ∧ offset < Frame.headerSize)
  flags : ∀ {name slot}, σ.slot? name = some slot → slot ∉ flags

namespace Session.Ordered

variable {flags : List (Nat × Int)} {σ τ : Session}

theorem slot (h : σ.Ordered flags) {name : String} {level : Nat} {offset : Int}
    (found : σ.slot? name = some (level, offset)) :
    ∃ scope frame decl, σ.scopes.at? level = some scope ∧ scope.lookup name = some decl ∧
      decl.slot? = some (level, offset) ∧ scope.Fits level frame σ.buffer.code.size := by
  obtain ⟨decl, resolved, slot⟩ := Option.bind_eq_some_iff.1 found
  obtain ⟨k, scope, hscope, lookup⟩ := Scopes.exists_of_resolve? resolved
  obtain ⟨frame, hframe⟩ := σ.frames.exists_at? (h.depth ▸ σ.scopes.le_of_at? hscope)
  have fits := h.fits hscope hframe
  obtain ⟨rfl, -⟩ := (fits.decl lookup).slot slot
  exact ⟨scope, frame, decl, hscope, lookup, slot, fits⟩

/-- **In a session in order no slot is shared.** -/
theorem unshared (h : σ.Ordered flags) : σ.Unshared flags where
  names {name name' slot} ne found found' := by
    obtain ⟨scope, frame, decl, hscope, lookup, slot, fits⟩ := h.slot found
    obtain ⟨scope', frame', decl', hscope', lookup', slot', -⟩ := h.slot found'
    rw [hscope] at hscope'
    cases hscope'
    exact fits.distinct ne lookup lookup' slot slot'
  header {name level offset} found inside := by
    obtain ⟨scope, frame, decl, -, lookup, slot, fits⟩ := h.slot found
    obtain ⟨-, bounds⟩ := (fits.decl lookup).slot slot
    have first : firstSlot level = Frame.headerSize := if_neg (Nat.ne_of_gt inside.1)
    omega
  flags {name slot} found flag := by
    obtain ⟨scope, frame, decl, hscope, lookup, slot, -⟩ := h.slot found
    exact (h.flags flag).free hscope lookup slot

/-- **Changes inside.** Only the innermost level is new or different. -/
theorem inner (h : σ.Ordered flags) (depth : τ.scopes.depth = τ.frames.depth)
    (deeper : σ.frames.depth ≤ τ.frames.depth) (atEnd : τ.buffer.AtEnd)
    (size : σ.buffer.code.size ≤ τ.buffer.code.size)
    (around : ∀ level < τ.frames.depth,
      τ.scopes.at? level = σ.scopes.at? level ∧ τ.frames.at? level = σ.frames.at? level)
    (fits : Scope.Fits τ.scopes.current τ.frames.depth τ.frames.current τ.buffer.code.size) :
    τ.Ordered flags where
  depth := depth
  atEnd := atEnd
  fits {level scope frame} hscope hframe := by
    rcases Nat.lt_or_eq_of_le (τ.frames.le_of_at? hframe) with lt | rfl
    · rw [(around level lt).1] at hscope
      rw [(around level lt).2] at hframe
      exact (h.fits hscope hframe).mono (Nat.le_refl _) rfl size
    · rw [← depth, Levels.at?_depth] at hscope
      rw [Levels.at?_depth] at hframe
      cases hscope
      cases hframe
      exact fits
  flags {level offset} mem := by
    have reserved := h.flags mem
    have lt := Nat.lt_of_lt_of_le reserved.around deeper
    refine ⟨lt, ?_, ?_⟩
    · rw [(around level lt).2]
      exact reserved.taken
    · rw [(around level lt).1]
      exact reserved.free

theorem current (h : σ.Ordered flags) (scopes : τ.scopes.outer = σ.scopes.outer)
    (frames : τ.frames.outer = σ.frames.outer) (atEnd : τ.buffer.AtEnd)
    (size : σ.buffer.code.size ≤ τ.buffer.code.size)
    (fits : Scope.Fits τ.scopes.current σ.frames.depth τ.frames.current τ.buffer.code.size) :
    τ.Ordered flags := by
  have hscopes : τ.scopes.depth = σ.scopes.depth := congrArg List.length scopes
  have hframes : τ.frames.depth = σ.frames.depth := congrArg List.length frames
  refine h.inner ?_ (Nat.le_of_eq hframes.symm) atEnd size ?_ ?_
  · rw [hscopes, hframes, h.depth]
  · intro level lt
    rw [hframes] at lt
    have lt' : level < σ.scopes.depth := h.depth ▸ lt
    constructor
    · rw [Levels.at?_of_lt _ (hscopes ▸ lt'), Levels.at?_of_lt _ lt', scopes]
    · rw [Levels.at?_of_lt _ (hframes ▸ lt), Levels.at?_of_lt _ lt, frames]
  · rw [hframes]
    exact fits

theorem enter (h : σ.Ordered flags) (scopes : τ.scopes.outer = σ.scopes.toList)
    (frames : τ.frames.outer = σ.frames.toList) (atEnd : τ.buffer.AtEnd)
    (size : σ.buffer.code.size ≤ τ.buffer.code.size)
    (fits : Scope.Fits τ.scopes.current (σ.frames.depth + 1) τ.frames.current
      τ.buffer.code.size) : τ.Ordered flags := by
  have hscopes : τ.scopes.depth = σ.scopes.depth + 1 := congrArg List.length scopes
  have hframes : τ.frames.depth = σ.frames.depth + 1 := congrArg List.length frames
  refine h.inner ?_ (hframes ▸ Nat.le_succ _) atEnd size ?_ ?_
  · rw [hscopes, hframes, h.depth]
  · intro level lt
    constructor
    · rw [Levels.at?_of_lt _ (hscopes ▸ h.depth ▸ hframes ▸ lt), scopes]
      rfl
    · rw [Levels.at?_of_lt _ lt, frames]
      rfl
  · rw [hframes]
    exact fits

theorem fits_current (h : σ.Ordered flags) :
    Scope.Fits σ.scopes.current σ.frames.depth σ.frames.current σ.buffer.code.size := by
  refine h.fits ?_ σ.frames.at?_depth
  rw [← h.depth]
  exact σ.scopes.at?_depth

theorem wrote (h : σ.Ordered flags) (wrote : σ.Wrote τ) : τ.Ordered flags := by
  refine h.current (congrArg Levels.outer wrote.scopes) (congrArg Levels.outer wrote.frames)
    wrote.atEnd wrote.size_le ?_
  rw [wrote.scopes, wrote.frames]
  exact h.fits_current.mono (Nat.le_refl _) rfl wrote.size_le

theorem writes (h : σ.Ordered flags) {α : Type} {x : CompileM α} {a : α} (writes : Writes x)
    (done : x σ = .ok a τ) : τ.Ordered flags :=
  h.wrote (writes σ a τ h.atEnd done)

/-- **A statement keeps a session in order.** -/
theorem stmt (h : σ.Ordered flags) {s : Stmt} (done : s.compile σ = .ok () τ) :
    τ.Ordered flags := by
  obtain ⟨buffer, scopes, frames⟩ := s.effect h.atEnd done
  have atEnd := Buffer.atEnd_of_written buffer
  have size := Buffer.size_le_of_written buffer
  cases s with
  | declare name value =>
    refine h.current (by rw [scopes]; rfl) (by rw [frames]; rfl) atEnd size ?_
    rw [scopes, frames]
    exact h.fits_current.declareVar name size
  | function name params body =>
    refine h.current (by rw [scopes]; rfl) (by rw [frames]; rfl) atEnd size ?_
    rw [scopes, frames]
    exact (h.fits_current.mono (Nat.le_refl _) rfl size).declareFunc name
      (Stmt.size_lt_of_function h.atEnd done)
  | _ => exact h.wrote ⟨buffer, scopes, frames⟩

theorem stmts (h : σ.Ordered flags) {body : List Stmt} (done : Stmt.compileAll body σ = .ok () τ) :
    τ.Ordered flags := by
  induction body generalizing σ with
  | nil =>
    obtain ⟨-, rfl⟩ := pure_eq_ok.1 done
    exact h
  | cons s rest ih =>
    obtain ⟨_, σ', head, tail⟩ := bind_eq_ok.1 done
    exact ih (h.stmt head) tail

theorem openedBlock (h : σ.Ordered flags) :
    σ.openedBlock.Ordered ((σ.frames.depth, (σ.frames.current.next : Int)) :: flags) := by
  have size : σ.buffer.code.size ≤ σ.openedBlock.buffer.code.size :=
    Buffer.size_le_of_written ⟨_, rfl⟩
  -- the slot of the flag is taken before the level is opened
  have grown : Session.Ordered flags { σ with
      frames := σ.frames.modify fun f => { f with next := f.next + 1 } } :=
    h.current rfl rfl h.atEnd (Nat.le_refl _)
      (h.fits_current.mono (Nat.le_succ _) rfl (Nat.le_refl _))
  have opened : σ.openedBlock.Ordered flags :=
    grown.enter rfl rfl (Buffer.atEnd_written _ _) size (.nil (Nat.le_refl _))
  have hframe : σ.openedBlock.frames.at? σ.frames.depth =
      some { σ.frames.current with next := σ.frames.current.next + 1 } :=
    (Levels.at?_enter _ _ (Nat.le_refl _)).trans (Levels.at?_depth _)
  have hscope : σ.openedBlock.scopes.at? σ.frames.depth = some σ.scopes.current := by
    rw [← h.depth]
    exact (Levels.at?_enter _ _ (Nat.le_refl _)).trans (Levels.at?_depth _)
  refine ⟨opened.depth, opened.atEnd, opened.fits, fun mem => ?_⟩
  rcases List.mem_cons.1 mem with flag | mem
  · cases flag
    refine ⟨Nat.lt_succ_self _, ⟨_, hframe, ?_⟩, fun hscope' found => ?_⟩
    · have first := h.fits_current.first
      dsimp only
      omega
    · rw [hscope] at hscope'
      cases hscope'
      exact h.fits_current.next_free found
  · exact opened.flags mem

theorem openedFunction (h : σ.Ordered flags) (name : String) (names : List String) :
    (σ.openedFunction name names).Ordered flags := by
  have declared : Session.Ordered flags { σ with
      scopes := σ.scopes.declare name (.func σ.frames.depth σ.buffer.position names.length) } :=
    h.current rfl rfl h.atEnd (Nat.le_refl _)
      (h.fits_current.declareFunc name (Nat.le_of_eq h.atEnd))
  refine declared.enter (Scopes.outer_declareParams _ _ _) rfl h.atEnd (Nat.le_refl _) ?_
  refine .declareParams (.nil (Nat.le_refl _)) (Nat.le_refl _) fun found => ?_
  simp [Levels.enter] at found

/-- **A task that is called is started in a session in order**, if its caller is. -/
theorem call (h : σ.Ordered flags) {task sub : Task} {α : Type} {before : CompileM α} {a : α}
    (calls : task.Calls before sub) (done : before σ = .ok a τ) :
    τ.Ordered (task.flags σ ++ flags) := by
  cases calls with
  | operand | left | argument | head | returned | dropped | test | loop | block | elseBlock
  | elseCond | first => exact h.writes (writes_pure ()) done
  | right | others => exact h.writes (Expr.writes _) done
  | arguments =>
    refine h.writes (writes_of_eq fun _ _ _ done => ?_) done
    exact (callTarget_eq_ok done).1
  | assigned =>
    refine h.writes (writes_of_eq fun _ _ _ done => ?_) done
    exact (slotOf_eq_ok done).1
  | tail => exact h.stmt done
  | @declared name e =>
    rw [bind_ok (level_eq _), bind_ok (reserve_eq _), bind_ok (emit_eq h.atEnd _),
      bind_ok (declare_eq _ _ _), pure_eq_ok] at done
    obtain ⟨-, rfl⟩ := done
    refine h.current rfl rfl (Buffer.atEnd_written _ _) ?_ (h.fits_current.declareVar name ?_)
    all_goals simp
  | function =>
    obtain ⟨_, σ', wrote, done⟩ := bind_eq_ok.1 done
    rw [bind_ok (openFunction_eq _ _ _), pure_eq_ok] at done
    obtain ⟨-, rfl⟩ := done
    exact (h.writes (writes_write _) wrote).openedFunction _ _
  | branch =>
    exact h.writes ((Expr.writes _).bind fun _ => (writes_emit _).bind fun _ => writes_write _) done
  | alternative =>
    refine h.writes ((Expr.writes _).bind fun _ => (writes_emit _).bind fun _ => ?_) done
    exact Writes.forward ((writes_inBlock _).bind fun _ => writes_write _)
  | content =>
    rw [openBlock_eq h.atEnd] at done
    cases done
    exact h.openedBlock
  | condition =>
    obtain ⟨_, σ', first, done⟩ := bind_eq_ok.1 done
    exact (h.stmt first).writes writes_here done
  | pass =>
    obtain ⟨_, σ', first, done⟩ := bind_eq_ok.1 done
    refine (h.stmt first).writes (writes_here.bind fun start => ?_) done
    exact Expr.writes_test _ fun exit => writes_pure (start, exit)
  | after =>
    obtain ⟨_, σ', first, done⟩ := bind_eq_ok.1 done
    refine (h.stmt first).writes (writes_here.bind fun start => ?_) done
    exact Expr.writes_test _ fun exit => (writes_inBlock _).bind fun _ => writes_pure (start, exit)

/-- **So are all tasks that the compiler comes to.** -/
theorem reaches (h : σ.Ordered flags) {task sub : Task} {reserved : List (Nat × Int)}
    (reached : task.Reaches σ sub τ reserved) : τ.Ordered (reserved ++ flags) := by
  induction reached with
  | start => exact h
  | call _ calls done ih =>
    rw [List.append_assoc]
    exact ih.call calls done

theorem initial : Session.initial.Ordered [] where
  depth := rfl
  atEnd := rfl
  fits {level scope frame} hscope hframe := by
    obtain rfl := Nat.le_zero.1 (Session.initial.frames.le_of_at? hframe)
    cases hscope
    cases hframe
    exact (Scope.Fits.nil (Nat.le_refl _)).declareFunc "print" (by decide)
  flags mem := absurd mem List.not_mem_nil

theorem log (h : σ.Ordered flags) (log : Array Event) : Session.Ordered flags { σ with log } :=
  h.wrote ⟨⟨[], (Buffer.AtEnd.written_nil h.atEnd).symm⟩, rfl, rfl⟩

end Session.Ordered

/-! ## One program after the other -/

/-- Some compilations have left the session. The slots are those of the flags of the blocks that
are open because a compilation has failed inside them. -/
inductive Session.Left : Session → List (Nat × Int) → Prop
  | initial : Left .initial []
  | compiled {σ τ flags program} (left : Left σ flags)
      (done : Program.compile program σ = .ok () τ) : Left τ flags
  | failed {σ τ flags program e task reserved} (left : Left σ flags)
      (failed : Program.compile program σ = .error e τ)
      (reached : Task.Reaches (.part (.stmts program)) (σ.starting program) task τ reserved)
      (stopped : task.compile τ = .error e τ) : Left τ (reserved ++ flags)

section Left

variable {σ : Session} {flags : List (Nat × Int)}

/-- **Compilations leave a session in order.** -/
theorem Session.Left.ordered (left : σ.Left flags) : σ.Ordered flags := by
  induction left with
  | initial => exact .initial
  | compiled _ done ih =>
    obtain ⟨σ', compiled, rfl⟩ := Program.compile_eq_ok.1 done
    exact ((ih.log _).stmts compiled).log _
  | failed _ _ reached _ ih => exact (ih.log _).reaches reached

theorem Session.Left.afterCompile (left : σ.Left flags) (program : Program) :
    ∃ flags', (σ.afterCompile program).Left flags' := by
  cases result : Program.compile program σ with
  | ok _ τ =>
    rw [Session.afterCompile_ok result]
    exact ⟨flags, .compiled left result⟩
  | error e τ =>
    obtain ⟨task, reserved, reached, stopped⟩ := Program.failsAt result
    rw [Session.afterCompile_error result]
    exact ⟨reserved ++ flags, .failed left result reached stopped⟩

theorem Session.Left.compileEach (left : σ.Left flags) (programs : List Program) :
    ∃ flags', (σ.compileEach programs).Left flags' := by
  induction programs generalizing σ flags with
  | nil => exact ⟨flags, left⟩
  | cons program programs ih =>
    obtain ⟨flags', left'⟩ := left.afterCompile program
    exact ih left'

end Left

/-- **Sessions are always in order.** After any programs, each of which may have failed somewhere:

* the next compilation never finds that a level is missing;
* there are as many scopes as frames, code is written at its end, and the names of every level fit
  its frame;
* different names in scope have different slots, none of which belongs to a header or to the flag
  of a block that is open.

The same holds in the midst of the next compilation, whenever the compiler comes to a task. -/
theorem session_ordered {σ : Session} (programs : List Program)
    (after : Session.initial.compileEach programs = σ) :
    (∀ program kind τ, Program.compile program σ ≠ .error (.levelMissing kind) τ) ∧
    (∃ flags, σ.Left flags) ∧
    ∀ flags, σ.Left flags → σ.Ordered flags ∧ σ.Unshared flags ∧
      ∀ program task τ reserved,
        Task.Reaches (.part (.stmts program)) (σ.starting program) task τ reserved →
        τ.Ordered (reserved ++ flags) ∧ τ.Unshared (reserved ++ flags) := by
  refine ⟨fun program kind τ failed => Program.levelMissing_ne failed kind rfl, ?_, ?_⟩
  · rw [← after]
    exact Session.Left.initial.compileEach programs
  · intro flags left
    have ordered := left.ordered
    refine ⟨ordered, ordered.unshared, fun program task τ reserved reached => ?_⟩
    have inside := (ordered.log _).reaches reached
    exact ⟨inside, inside.unshared⟩

/-- A program that fails in a block. -/
def strayProgram : Program := [.declare "x" (.int 1), .block [.assign "y" (.int 2)]]

/-- Compile `strayProgram` up to the body of its block. Returns the level and the slot of the flag
of the block, and what the two names stand for in the block. -/
def compileToStrayBlock : CompileM (Nat × Nat × Option (Nat × Int) × Option Decl) := do
  (Stmt.declare "x" (.int 1)).compile
  let outer ← get
  let _ ← openBlock
  let inner ← get
  return (outer.frames.depth, outer.frames.current.next, inner.slot? "x",
    inner.scopes.resolve? "y")

/-- After `strayProgram` its block is still open, and the flag keeps the slot above that of the
variable. -/
theorem session_ordered_stray : ∃ σ, Session.initial.compileEach [strayProgram] = σ ∧
    σ.Left [(0, 1)] ∧ σ.slot? "x" = some (0, 0) ∧ σ.Ordered [(0, 1)] ∧ σ.Unshared [(0, 1)] := by
  obtain ⟨_, run⟩ : ∃ τ, compileToStrayBlock (Session.initial.starting strayProgram) =
      .ok (0, 1, some (0, 0), none) τ := exists_of_value (by decide +kernel)
  rw [compileToStrayBlock, bind_eq_ok] at run
  obtain ⟨_, outer, declared, run⟩ := run
  rw [bind_ok (get_eq _), bind_eq_ok] at run
  obtain ⟨_, σ, opened, run⟩ := run
  rw [bind_ok (get_eq _), pure_eq_ok] at run
  simp only [Prod.mk.injEq] at run
  obtain ⟨⟨depth, next, slot, unresolved⟩, -⟩ := run
  -- from the program to the assignment in the block
  have whole : Task.Reaches (.part (.stmts strayProgram)) (Session.initial.starting strayProgram)
      (.part (.stmts strayProgram)) (Session.initial.starting strayProgram) [] := .start
  have block := ((whole.call .tail declared).call .head rfl).call .block rfl
  have reached : Task.Reaches (.part (.stmts strayProgram))
      (Session.initial.starting strayProgram) (.part (.stmt (.assign "y" (.int 2)))) σ
      [(outer.frames.depth, outer.frames.current.next)] :=
    (block.call .content opened).call .head rfl
  rw [depth, next] at reached
  have stopped : (Stmt.assign "y" (.int 2)).compile σ = .error (.undeclaredAssignment "y") σ := by
    rw [Stmt.compile, assignTarget, slotOf, bind_assoc, bind_ok (resolve?_eq _ _), unresolved]
    rfl
  have failed : Program.compile strayProgram .initial = .error (.undeclaredAssignment "y") σ :=
    Program.fails reached stopped
  have left : σ.Left [(0, 1)] := .failed .initial failed reached stopped
  have after : Session.initial.compileEach [strayProgram] = σ := by
    rw [Session.compileEach, List.foldl_cons, List.foldl_nil]
    exact Session.afterCompile_error failed
  obtain ⟨-, -, ordered⟩ := session_ordered [strayProgram] after
  exact ⟨σ, after, left, slot, (ordered _ left).1, (ordered _ left).2.1⟩

end NestLang
