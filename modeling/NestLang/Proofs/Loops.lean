import NestLang.Proofs.Heights
import NestLang.Proofs.Return

/-!
# Passes of a loop

All passes of a loop share one frame, and its slots are given out once, when the loop is compiled.
So each pass has to find the stack as the first one did. This is the case unless a loop declares a
variable after each pass, for then the stack grows from pass to pass.

* `Loop`: the sessions in which the compiler comes to the parts of a loop.
* `Loop.Charted`: what a chart has at the addresses of a loop.
* `Loop.Levelled`: the machine is in the frame of a loop, with nothing but slots on the stack.
* `compiled_loop_steady`: **every pass finds the stack as the first one did.**
* `late_declare_unsteady`: a loop that declares a variable after each pass.
-/

namespace NestLang

open CompileM

/-! ## Jumps -/

theorem Instr.Stays.mono {a b a' b' : Nat} {i : Instr} (h : i.Stays a b) (first : a' ≤ a)
    (last : b ≤ b') : i.Stays a' b' := by
  intro target jump
  obtain ⟨lower, upper⟩ := h target jump
  exact ⟨Nat.le_trans first lower, Nat.le_trans upper last⟩

theorem Instr.stays_jump {a b target : Nat} (first : a ≤ target) (last : target ≤ b) :
    (Instr.jump target).Stays a b := by
  rintro _ (jump | jump) <;> cases jump
  exact ⟨first, last⟩

theorem Instr.stays_jumpIf {a b target : Nat} (first : a ≤ target) (last : target ≤ b) :
    (Instr.jumpIf target).Stays a b := by
  rintro _ (jump | jump) <;> cases jump
  exact ⟨first, last⟩

/-- **No jump leads out of the code of a part**, except to its end. -/
theorem Part.Emits.stays {ctx ctx' : Ctx} {a : Nat} {part : Part} {sites : List Site}
    (h : Part.Emits ctx a part sites ctx') : ∀ s ∈ sites, s.instr.Stays a (a + sites.length) := by
  induction h with
  | nil => simp
  | empty => simp
  | noElse => simp
  | loop _ ih => exact ih
  | blockStmt _ ih => exact ih
  | elseBlock _ ih => exact ih
  | elseCond _ ih => exact ih
  | cons _ _ ih₁ ih₂ =>
    intro s hs
    rw [List.length_append]
    rcases List.mem_append.1 hs with hs | hs
    · exact (ih₁ s hs).mono (Nat.le_refl _) (by omega)
    · exact (ih₂ s hs).mono (by omega) (by omega)
  | declare value =>
    intro s hs
    simp only [List.mem_cons, List.mem_append, List.not_mem_nil, or_false] at hs
    rcases hs with rfl | hs | rfl
    · simp [Instr.Stays, Ctx.site]
    · exact (value.passes s hs).stays _ _
    · simp [Instr.Stays, Ctx.site]
  | assign _ _ value | retValue value | expr value =>
    intro s hs
    simp only [List.mem_append, List.mem_singleton] at hs
    rcases hs with hs | rfl
    · exact (value.passes s hs).stays _ _
    · simp [Instr.Stays, Ctx.site]
  | ret =>
    intro s hs
    simp only [List.mem_cons, List.not_mem_nil, or_false] at hs
    rcases hs with rfl | rfl <;> simp [Instr.Stays, Ctx.site]
  | function _ ih =>
    intro s hs
    simp only [List.mem_cons, List.mem_append, List.not_mem_nil, or_false] at hs
    simp only [List.length_cons, List.length_append, List.length_nil]
    rcases hs with rfl | hs | rfl | rfl
    · exact Instr.stays_jump (by omega) (by omega)
    · exact (ih s hs).mono (by omega) (by omega)
    · simp [Instr.Stays, Ctx.site]
    · simp [Instr.Stays, Ctx.site]
  | cond condition _ _ ih₁ ih₂ =>
    intro s hs
    simp only [List.mem_cons, List.mem_append] at hs
    simp only [List.length_cons, List.length_append]
    rcases hs with hs | rfl | rfl | hs | rfl | hs
    · exact (condition.passes s hs).stays _ _
    · simp [Instr.Stays, Ctx.site]
    · exact Instr.stays_jumpIf (by omega) (by omega)
    · exact (ih₁ s hs).mono (by omega) (by omega)
    · exact Instr.stays_jump (by omega) (by omega)
    · exact (ih₂ s hs).mono (by omega) (by omega)
  | passes _ condition _ _ ih₁ ih₂ ih₃ =>
    intro s hs
    simp only [List.mem_cons, List.mem_append, List.not_mem_nil, or_false] at hs
    simp only [List.length_cons, List.length_append, List.length_nil]
    rcases hs with hs | hs | rfl | rfl | hs | hs | rfl
    · exact (ih₁ s hs).mono (by omega) (by omega)
    · exact (condition.passes s hs).stays _ _
    · simp [Instr.Stays, Ctx.site]
    · exact Instr.stays_jumpIf (by omega) (by omega)
    · exact (ih₂ s hs).mono (by omega) (by omega)
    · exact (ih₃ s hs).mono (by omega) (by omega)
    · exact Instr.stays_jump (by omega) (by omega)
  | block _ ih =>
    intro s hs
    simp only [Ctx.openSites, Ctx.closeSites, List.mem_cons, List.mem_append, List.not_mem_nil,
      or_false] at hs
    simp only [Ctx.openSites, Ctx.closeSites, List.length_cons, List.length_append,
      List.length_nil]
    rcases hs with (rfl | rfl | rfl | rfl | rfl) | hs | (rfl | rfl | rfl | rfl) | rfl | rfl
    rotate_left 3
    · exact Instr.stays_jumpIf (by omega) (by omega)
    rotate_left
    · exact (ih s hs).mono (by omega) (by omega)
    all_goals simp [Instr.Stays, Ctx.site, Ctx.marked]

/-! ## The parts of a loop -/

/-- The sessions in which the compiler comes to the parts of a loop, where `σ` is the one in which
it comes to what stands in the frame of the loop. -/
structure Loop (first : Stmt) (test : Expr) (after : Stmt) (body : List Stmt) (σ : Session) where
  /-- In front of the test. -/
  start : Session
  /-- In front of the block around the body. -/
  pass : Session
  /-- In front of the body. -/
  opened : Session
  /-- Behind the body, in front of the end of its block. -/
  closing : Session
  /-- In front of what is done after each pass. -/
  update : Session
  /-- Behind it, in front of the jump back to the test. -/
  back : Session
  /-- The address of the jump behind the block around the body. -/
  skip : Nat
  header : first.compile σ = .ok () start
  guard : (do test.compile; emit .not; let _ ← write (.jumpIf 0)) start = .ok () pass
  opens : openBlock pass = .ok skip opened
  compiles : Stmt.compileAll body opened = .ok () closing
  closes : closeBlock skip closing = .ok () update
  updates : after.compile update = .ok () back

section Loop

variable {first after : Stmt} {test : Expr} {body : List Stmt} {σ : Session}

theorem exists_loop {τ : Session} (compiled : compilePasses first test after body σ = .ok () τ) :
    Nonempty (Loop first test after body σ) := by
  simp only [compilePasses, forward, inBlock, bind_assoc, bind_eq_ok] at compiled
  obtain ⟨_, start, header, _, _, located, _, τ₁, tested, _, τ₂, negated, exit, pass, written, skip,
    opened, opens, _, closing, compiles, _, update, closes, _, back, updates, -⟩ := compiled
  cases located
  refine ⟨⟨start, pass, opened, closing, update, back, skip, header, ?_, opens, compiles, closes,
    updates⟩⟩
  rw [bind_ok tested, bind_ok negated, bind_ok written]
  rfl

/-- The addresses of the test, of the end of the body, of what is done after each pass, and of the
jump back. -/
def Loop.addresses (first : Stmt) (test : Expr) (after : Stmt) (body : List Stmt) :
    CompileM (Nat × Nat × Nat × Nat) := do
  first.compile
  let start ← here
  test.compile
  emit .not
  let _ ← write (.jumpIf 0)
  let skip ← openBlock
  Stmt.compileAll body
  let closing ← here
  closeBlock skip
  let update ← here
  after.compile
  return (start, closing, update, ← here)

theorem Loop.addresses_eq (l : Loop first test after body σ) :
    Loop.addresses first test after body σ = .ok (l.start.buffer.position,
      l.closing.buffer.position, l.update.buffer.position, l.back.buffer.position) l.back := by
  have guard := l.guard
  simp only [bind_eq_ok] at guard
  obtain ⟨_, _, tested, _, _, negated, _, _, written, done⟩ := guard
  cases done
  rw [Loop.addresses, bind_ok l.header, bind_ok (here_eq _), bind_ok tested, bind_ok negated,
    bind_ok written, bind_ok l.opens, bind_ok l.compiles, bind_ok (here_eq _), bind_ok l.closes,
    bind_ok (here_eq _), bind_ok l.updates, bind_ok (here_eq _)]
  rfl

theorem Stmt.shows_of_compileAll {body : List Stmt} {ctx ctx' : Ctx} {σ τ : Session}
    {sites : List Site} (hσ : σ.Shows ctx) (done : Stmt.compileAll body σ = .ok () τ)
    (emits : Part.Emits ctx σ.buffer.code.size (.stmts body) sites ctx') :
    τ.Shows ctx' ∧ τ.buffer.code.size = σ.buffer.code.size + sites.length := by
  obtain ⟨sites', ctx₂, emits', shows, buffer, -⟩ := Stmt.emitsAll_of_compile body hσ done
  refine ⟨emits.ctx_eq emits' ▸ shows, ?_⟩
  rw [buffer, Buffer.size_written, Site.length_code, emits'.length_eq, emits.length_eq]

/-- What a chart has at the addresses of the block around the body of a loop, in a frame of the
given shape. -/
structure Loop.BlockCharted (l : Loop first test after body σ) (c : Chart)
    (shapes : Levels Shape) : Prop where
  entry : l.opened.buffer.position = l.pass.buffer.position + 5
  jumpIf : c.instr? (l.pass.buffer.position + 3) =
    some (.jumpIf (l.closing.buffer.position + 4))
  leave : ∃ inner : Ctx, inner.shapes.outer = shapes.toList ∧
    inner.shapes.current.owner = .block l.opened.buffer.position ∧
    c.Sits l.closing.buffer.position inner.closeSites
  pops : c.instr? (l.closing.buffer.position + 4) = some .pop ∧
    c.instr? (l.closing.buffer.position + 5) = some .pop
  behind : l.update.buffer.position = l.closing.buffer.position + 6

/-- What a chart has at the addresses of a loop, whose frame has the given shape in front of the
test, in front of what is done after each pass and behind that. -/
structure Loop.Charted (l : Loop first test after body σ) (c : Chart) (shapes : Levels Shape) :
    Prop where
  depth : shapes.depth = l.start.frames.depth
  slots : shapes.current.slots = l.start.frames.current.next
  owner : shapes.current.owner = .block σ.buffer.position
  start : c.point? l.start.buffer.position = some ⟨shapes, 0, .plain⟩
  block : l.BlockCharted c shapes
  update : c.point? l.update.buffer.position = some ⟨shapes, 0, .plain⟩
  start_le : l.start.buffer.position ≤ l.update.buffer.position
  update_le : l.update.buffer.position ≤ l.back.buffer.position
  stays : ∀ x i, l.update.buffer.position ≤ x → x < l.back.buffer.position →
    c.instr? x = some i → i.Stays l.update.buffer.position l.back.buffer.position
  back : c.point? l.back.buffer.position = some ⟨shapes, 0, .plain⟩
  jump : c.instr? l.back.buffer.position = some (.jump l.start.buffer.position)

section Charted

variable {c : Chart} {ctx ctx' : Ctx} {sites : List Site}

theorem Loop.blockCharted (l : Loop first test after body σ) (shows : l.pass.Shows ctx)
    (emits : Part.Emits ctx l.pass.buffer.code.size (.block (.stmts body)) sites ctx)
    (sits : c.Sits l.pass.buffer.code.size sites)
    (size : l.update.buffer.code.size = l.pass.buffer.code.size + sites.length)
    (atEnd : l.update.buffer.AtEnd) : l.BlockCharted c ctx.shapes := by
  have opens := l.opens
  rw [openBlock_eq shows.atEnd] at opens
  have opened : l.opened = l.pass.openedBlock := (EStateM.Result.ok.inj opens).2.symm
  have entry : l.opened.buffer.code.size = l.pass.buffer.code.size + 5 := by
    rw [opened]
    exact Buffer.size_written _ _
  have inside : l.opened.Shows (ctx.enterBlock l.opened.buffer.code.size) := by
    rw [opened]
    exact shows.openedBlock _
  cases emits with
  | @block _ _ _ sites inner content =>
    rw [← entry] at content
    obtain ⟨closing, size'⟩ := Stmt.shows_of_compileAll inside l.compiles content
    obtain ⟨-, outer, owner, -⟩ := content.outer
    obtain ⟨-, -, -, jumpIf, -, sits⟩ := sits
    have sits : c.Sits (l.pass.buffer.code.size + 5)
      (sites ++ (inner.closeSites ++ [ctx.site 2 .pop, ctx.site 1 .pop])) := sits
    have rest := (Chart.sits_append.1 sits).2
    rw [← entry, ← size'] at rest
    obtain ⟨leave, pop, pop', -⟩ := Chart.sits_append.1 rest
    simp only [Ctx.openSites, Ctx.closeSites, List.length_append, List.length_cons,
      List.length_nil] at size
    have position : l.pass.buffer.position = l.pass.buffer.code.size := shows.atEnd
    have position' : l.closing.buffer.position = l.closing.buffer.code.size := closing.atEnd
    have position'' : l.opened.buffer.position = l.opened.buffer.code.size := inside.atEnd
    have position₃ : l.update.buffer.position = l.update.buffer.code.size := atEnd
    refine ⟨by omega, ?_, ⟨inner, outer, ?_, ?_⟩, ⟨?_, ?_⟩, by omega⟩
    · rw [position, Chart.instr?_of_site jumpIf, position', size', entry]
      rfl
    · rw [owner, position'']
      rfl
    · rw [position']
      exact leave
    · rw [position']
      exact Chart.instr?_of_site pop
    · rw [position']
      exact Chart.instr?_of_site pop'

theorem Loop.exists_charted_of_emits (l : Loop first test after body σ) {program : Program}
    {code : Code} (sound : c.Sound program code) (shows : σ.Shows ctx)
    (owner : ctx.shapes.current.owner = .block σ.buffer.position)
    (emits : Part.Emits ctx σ.buffer.code.size (.passes first test after body) sites ctx')
    (stands : c.Shows σ.buffer.code.size (ctx'.point 0) sites) : ∃ shapes, l.Charted c shapes := by
  cases emits with
  | @passes _ _ _ _ _ _ sites₁ ctx₁ sites₂ sites₃ sites₄ _ header condition pass update =>
  have start := condition.point stands.right
  have behind := stands.right.right.2.2
  have back := behind.right.right.1
  -- the sessions and their positions
  obtain ⟨shows₁, size₁⟩ := Stmt.shows_of_compile shows l.header header
  obtain ⟨_, _, done, shows₂, size₂⟩ := Expr.shows_of_test shows₁ l.guard condition
  obtain ⟨-, rfl⟩ := pure_eq_ok.1 done
  rw [size₁] at size₂
  rw [← size₂] at pass update behind back
  have block : inBlock (Stmt.compileAll body) l.pass = .ok () l.update := by
    rw [inBlock, bind_ok l.opens, bind_ok l.compiles, l.closes]
  obtain ⟨shows₃, size₃⟩ := Stmt.shows_of_inBlock shows₂ block pass
  rw [← size₃] at update back
  obtain ⟨shows₄, size₄⟩ := Stmt.shows_of_compile shows₃ l.updates update
  rw [← size₁] at start
  rw [← size₄, ← size₁] at back
  -- the jump back fits, so the frame has not grown
  have same : some (ctx'.point 0) = some (ctx₁.point 0) := by
    rw [← start]
    exact (sound.fits (Chart.point?_of_site back) (Chart.instr?_of_site back)).jump_next.symm
  have updates := behind.right.left (Chart.point?_of_site behind.right.right.1)
  rw [← size₃] at updates
  have front := update.point (by rw [List.append_nil]; exact updates) updates.next
  have position₁ : l.start.buffer.position = l.start.buffer.code.size := shows₁.atEnd
  have position₃ : l.update.buffer.position = l.update.buffer.code.size := shows₃.atEnd
  have position₄ : l.back.buffer.position = l.back.buffer.code.size := shows₄.atEnd
  refine ⟨ctx₁.shapes, ?_, ?_, ?_, ?_, ?_, ?_, by omega, by omega, ?_, ?_, ?_⟩
  · exact shows₁.depth.symm
  · rw [shows₁.current]
    rfl
  · exact header.outer.2.2.1.trans owner
  · rw [position₁]
    exact start
  · exact l.blockCharted shows₂ pass (Chart.sits_append.1 behind.sits).1 size₃ shows₃.atEnd
  · rw [position₃]
    exact front
  · intro x i first last instr
    rw [position₃] at first
    rw [position₄, size₄] at last
    obtain ⟨s, hs, rfl⟩ := updates.instr_mem first last instr
    rw [position₃, position₄, size₄]
    exact update.stays s hs
  · rw [position₄]
    exact (Chart.point?_of_site back).trans same
  · rw [position₄, position₁]
    exact Chart.instr?_of_site back

end Charted

/-- **A loop finds its code** in the chart of the program. -/
theorem Loop.exists_charted (l : Loop first test after body σ) {program : Program} {code : Code}
    {c : Chart} {ctx : Ctx} {sites : List Site} (sound : c.Sound program code)
    (visited : program.Visits (.part (.passes first test after body)) σ)
    (emits : Part.Emits .initial 5 (.stmts program) sites ctx)
    (stands : c.Shows 5 (ctx.point 0) sites) : ∃ shapes, l.Charted c shapes := by
  -- the frame of the loop is that of the block around it
  obtain ⟨_, reached⟩ := visited
  cases reached with
  | @call _ _ σ₀ _ _ _ _ _ reached calls opened =>
  cases calls
  have visited : program.Visits _ σ₀ := ⟨_, reached⟩
  obtain ⟨ctx, _, _, shows, emits, stands⟩ := visited.expects emits stands
  rw [openBlock_eq shows.atEnd] at opened
  cases opened
  have entry : σ₀.openedBlock.buffer.code.size = σ₀.buffer.code.size + 5 :=
    Buffer.size_written _ _
  cases emits with
  | @block _ _ _ sites inner content =>
  have stands : c.Shows _ _ (sites ++ (inner.closeSites ++ _)) := stands.2.2.2.2.2
  have stands := stands.left (Chart.point?_of_site stands.right.1)
  rw [← entry] at content stands
  have inside := shows.openedBlock σ₀.openedBlock.buffer.code.size
  exact l.exists_charted_of_emits sound inside (congrArg Owner.block inside.atEnd.symm) content
    stands

/-! ## Passes -/

variable {ω : Type}

theorem Levels.eq_of_toList {α : Type} {l l' : Levels α} (h : l.toList = l'.toList) : l = l' := by
  cases l
  cases l'
  cases h
  rfl

theorem Live.exists_call {c : Chart} {stack : Stack} {p : Point} {base entry : Nat}
    {bases : Nat → Nat} {calls : List (State ω)} (h : Live c stack p base bases calls)
    (owner : p.shapes.current.owner = .block entry) :
    ∃ k calls' level, calls = k :: calls' ∧ base = k.stack.size ∧ p.shapes.depth = level + 1 ∧
      c.instr? k.pc = some (.call level entry) := by
  cases h with
  | program _ owner' _ =>
    rw [owner] at owner'
    cases owner'
  | @call _ _ _ level k calls opened _ =>
    obtain ⟨entry', address, call⟩ := opened.instr
    rw [owner] at address
    cases address
    exact ⟨k, calls, level, rfl, rfl, opened.depth, call⟩

variable [Output ω]

/-- After `n` steps the machine is about to execute the code that the compiler writes from the
session `τ` on. -/
def Machine.Arrives (m : Machine ω) (n : Nat) (τ : Session) : Prop :=
  (m.after n).status = .ready ∧ (m.after n).state.pc = τ.buffer.position

/-- The machine is in the frame of a loop, which the call in the state `k` has opened, and its stack
ends with the slots that the frame has at the test of the loop. -/
structure Loop.Levelled (l : Loop first test after body σ) (m : Machine ω) (n : Nat) (k : State ω)
    (calls : List (State ω)) : Prop where
  calls : m.openCalls n = k :: calls
  call : ∃ level, l.start.frames.depth = level + 1 ∧
    m.code[k.pc]? = some (.call level σ.buffer.position)
  base : (m.after n).state.display.base l.start.frames.depth = k.stack.size
  size : (m.after n).state.stack.size = k.stack.size + l.start.frames.current.next

/-- Step `n` sets the flag of the block that was called in the state `b`, which lies just below the
frame of the block. -/
def Machine.SetsFlag (m : Machine ω) (n : Nat) (b : State ω) : Prop :=
  ∃ s calls level offset, m.At n s calls ∧ m.code[s.pc]? = some (.store level offset) ∧
    (s.display.base level : Int) + offset + 1 = b.stack.size ∧ s.stack.back? = some 1

/-- **The end of the body of a block** sets the flag of the block. -/
theorem Chart.Watches.sets_flag {c : Chart} {program : Program} {m : Machine ω} {inner : Ctx}
    {a entry j n : Nat} (h : c.Watches program m n) (sits : c.Sits a inner.closeSites)
    (owner : inner.shapes.current.owner = .block entry) (le : j + 3 ≤ n)
    (ready : (m.after j).status = .ready) (pc : (m.after j).state.pc = a) :
    ∃ b calls s, m.openCalls j = b :: calls ∧ m.SetsFlag (j + 1) b ∧ m.At (j + 3) s (b :: calls) ∧
      s.pc = a + 3 := by
  obtain ⟨one, store, zero, ret, -⟩ := sits
  obtain ⟨p, base, runs⟩ := (h.mono (by omega : j ≤ n)).runs (by rw [ready]; decide)
  have at₀ : m.At j (m.after j).state (m.openCalls j) := ⟨ready, rfl, rfl⟩
  generalize (m.after j).state = s, m.openCalls j = calls at runs at₀ pc
  obtain ⟨_, stack, display, output⟩ := s
  subst pc
  obtain rfl := Option.some.inj (runs.point.symm.trans (Chart.point?_of_site one))
  obtain ⟨b, calls, level, rfl, base_eq, -, -⟩ := runs.live.exists_call owner
  have frame : display.base inner.level = b.stack.size := runs.live.base_eq.trans base_eq
  have size := runs.size
  simp only [Ctx.point, Point.height] at size
  -- the value to be stored is pushed
  have at₁ := at₀.step (h.sound.code_eq (Chart.instr?_of_site one)) (advance_lit 1)
    (h.sound.lt_size (Chart.instr?_of_site store))
  have bound := h.bound (j + 1) (by omega)
  obtain ⟨p₁, base₁, runs₁⟩ := (h.mono (by omega : j + 1 ≤ n)).runs (by rw [at₁.ready]; decide)
  rw [at₁.state] at bound runs₁
  obtain ⟨slot, address, inside⟩ :=
    runs₁.store_inside (h.sound.fits runs₁.point (Chart.instr?_of_site store))
  simp only [Array.size_push] at bound inside address
  have flag : m.SetsFlag (j + 1) b := by
    refine ⟨_, _, _, _, at₁, h.sound.code_eq (Chart.instr?_of_site store), ?_, by simp⟩
    rw [frame]
    omega
  -- and stored
  have at₂ := at₁.step (h.sound.code_eq (Chart.instr?_of_site store))
    (advance_store (by rw [frame]; omega) (by omega) address (by omega))
    (h.sound.lt_size (Chart.instr?_of_site zero))
  have at₃ := at₂.step (h.sound.code_eq (Chart.instr?_of_site zero)) (advance_lit 0)
    (h.sound.lt_size (Chart.instr?_of_site ret))
  exact ⟨b, calls, _, rfl, flag, at₃, rfl⟩

/-- From step `k` to step `n` the machine executes the code from `a` up to `b`, or it has done so
until some step at which it fails, is at the end with the same calls open as in the beginning, or
has left by a return. -/
def Machine.Completes (m : Machine ω) (a b k n : Nat) : Prop :=
  (∀ j, k ≤ j → j ≤ n → m.Within a b k j) ∨
    ∃ j, k ≤ j ∧ j ≤ n ∧ (∀ i, k ≤ i → i < j → m.Within a b k i) ∧
      ((m.after j).status ≠ .failed →
        ((m.after j).state.pc = b ∧ m.openCalls j = m.openCalls k) ∨ m.Returns a b k j)

namespace Loop.Charted

variable {l : Loop first test after body σ} {c : Chart} {shapes : Levels Shape}
  {program : Program} {m : Machine ω} {j n : Nat}

theorem levelled (h : l.Charted c shapes) (watches : c.Watches program m n)
    (running : (m.after n).status ≠ .failed)
    (point : c.point? (m.after n).state.pc = some ⟨shapes, 0, .plain⟩) :
    ∃ k calls, l.Levelled m n k calls := by
  obtain ⟨p, base, runs⟩ := watches.runs running
  obtain rfl := Option.some.inj (runs.point.symm.trans point)
  obtain ⟨k, calls, level, open_eq, base_eq, depth, call⟩ := runs.live.exists_call h.owner
  refine ⟨k, calls, open_eq, ⟨level, h.depth ▸ depth, watches.sound.code_eq call⟩, ?_, ?_⟩
  · rw [← h.depth, ← base_eq]
    exact runs.live.base_eq
  · rw [runs.size, base_eq, ← h.slots]
    rfl

theorem ready (h : l.Charted c shapes) (watches : c.Watches program m n)
    (running : (m.after n).status ≠ .failed)
    (le : (m.after n).state.pc ≤ l.back.buffer.position) : (m.after n).status = .ready := by
  have inside := watches.sound.lt_size h.jump
  cases status : (m.after n).status with
  | ready => rfl
  | failed => exact absurd status running
  | terminated =>
    have ended := (watches.keeps n (Nat.le_refl n)).ended status
    rw [watches.sound.length] at ended
    omega

/-- **The jump back** leads to the test in the same frame. -/
theorem repeats (h : l.Charted c shapes) (watches : c.Watches program m n) (lt : j < n)
    (arrives : m.Arrives j l.back) :
    ∃ k calls, l.Levelled m j k calls ∧ m.Arrives (j + 1) l.start ∧
      l.Levelled m (j + 1) k calls := by
  obtain ⟨status, pc⟩ := arrives
  obtain ⟨k, calls, levelled⟩ := h.levelled (watches.mono (Nat.le_of_lt lt))
    (by rw [status]; decide) (by rw [pc]; exact h.back)
  have here : m.At j (m.after j).state (k :: calls) := ⟨status, rfl, levelled.calls⟩
  have jump := watches.sound.code_eq h.jump
  rw [← pc] at jump
  have after := here.after_succ jump (advance_jump _)
  have calls_eq : m.openCalls (j + 1) = k :: calls := here.calls_succ jump
  have pc' : (m.after (j + 1)).state.pc = l.start.buffer.position := by rw [after]
  have running : (m.after (j + 1)).status ≠ .failed := by
    rw [after]
    dsimp only
    split <;> decide
  obtain ⟨k', calls', levelled'⟩ :=
    h.levelled (watches.mono lt) running (by rw [pc']; exact h.start)
  cases levelled'.calls.symm.trans calls_eq
  have before := Nat.le_trans h.start_le h.update_le
  exact ⟨k, calls, levelled, ⟨h.ready (watches.mono lt) running (pc' ▸ before), pc'⟩, levelled'⟩

/-- **What is done after each pass** is left at its end, unless it fails or returns. -/
theorem completes (h : l.Charted c shapes) (watches : c.Watches program m n) (le : j ≤ n)
    (arrives : m.Arrives j l.update) :
    ∃ k calls, l.Levelled m j k calls ∧
      m.Completes l.update.buffer.position l.back.buffer.position j n := by
  obtain ⟨status, pc⟩ := arrives
  obtain ⟨k, calls, levelled⟩ := h.levelled (watches.mono le) (by rw [status]; decide)
    (by rw [pc]; exact h.update)
  refine ⟨k, calls, levelled, ?_⟩
  obtain empty | lt := Nat.eq_or_lt_of_le h.update_le
  · refine .inr ⟨j, Nat.le_refl j, le, fun i first last => ?_, fun _ => .inl ⟨?_, rfl⟩⟩
    · omega
    · rw [pc, empty]
  · obtain within | ⟨i, after, last, reached⟩ := watches.leaves_after h.stays le lt pc
    · exact .inl within
    · exact .inr ⟨i, Nat.le_of_lt after, last, reached⟩

/-- **The end of the body** leads through its flag to what is done after each pass, in the same
frame of the loop. -/
theorem exits (h : l.Charted c shapes) (watches : c.Watches program m n) (le : j + 8 ≤ n)
    (arrives : m.Arrives j l.closing) :
    ∃ b k calls, m.openCalls j = b :: k :: calls ∧ b.pc = l.pass.buffer.position + 1 ∧
      b.stack.size = k.stack.size + l.start.frames.current.next + 1 ∧
      m.SetsFlag (j + 1) b ∧ m.ReadsFlag (j + 3) b 1 ∧
      m.Arrives (j + 8) l.update ∧ l.Levelled m (j + 8) k calls := by
  obtain ⟨status, pc⟩ := arrives
  obtain ⟨inner, outer, owner, leave⟩ := h.block.leave
  obtain ⟨b, around, s, open_eq, sets, at₃, pc₃⟩ :=
    watches.sets_flag leave owner (by omega) status pc
  have site := leave.2.2.2.1
  rw [← pc₃] at site
  have ret := Chart.instr?_of_site site
  obtain ⟨p, base, runs⟩ := (watches.mono (by omega : j + 3 ≤ n)).runs (by rw [at₃.ready]; decide)
  rw [at₃.state, at₃.calls] at runs
  obtain rfl := Option.some.inj (runs.point.symm.trans (Chart.point?_of_site site))
  have bound := watches.bound (j + 3) (by omega)
  rw [at₃.state] at bound
  obtain ⟨b', _, base', q, v, calls_eq, entry, outer', -, -, left⟩ :=
    runs.leave_block bound (watches.sound.length ▸ watches.small) (.inl rfl) owner
  cases calls_eq
  -- behind the block the frame is that of the loop
  have shapes_eq : q.shapes = shapes := Levels.eq_of_toList (outer'.symm.trans outer)
  obtain ⟨k, calls, _, rfl, base_eq, -, -⟩ := left.runs.live.exists_call (shapes_eq ▸ h.owner)
  have size := left.size
  rw [shapes_eq, h.slots, base_eq] at size
  have call : b.pc = l.pass.buffer.position + 1 := by
    have := h.block.entry
    omega
  have jumpIf : c.instr? (b.pc + 2) = some (.jumpIf (s.pc + 1)) := by
    rw [call, pc₃]
    exact h.block.jumpIf
  have pop : c.instr? (s.pc + 1) = some .pop := by
    rw [pc₃]
    exact h.block.pops.1
  have pop' : c.instr? (s.pc + 2) = some .pop := by
    rw [pc₃]
    exact h.block.pops.2
  obtain ⟨reads, -, -, calls₈, running, pc₈, -⟩ :=
    left.exits watches.sound at₃ ret jumpIf pop pop'
  have steps : j + 3 + 5 = j + 8 := rfl
  have behind : l.closing.buffer.position + 3 + 3 = l.update.buffer.position :=
    h.block.behind.symm
  rw [steps] at calls₈ running pc₈
  rw [pc₃, behind] at pc₈
  have before := watches.mono le
  obtain ⟨k', calls', levelled⟩ := h.levelled before running (by rw [pc₈]; exact h.update)
  obtain ⟨rfl, rfl⟩ := List.cons.inj (levelled.calls.symm.trans calls₈)
  exact ⟨b, k', calls', open_eq, call, size, sets, reads,
    ⟨h.ready before running (pc₈ ▸ h.update_le), pc₈⟩, levelled⟩

end Loop.Charted

end Loop

/-! ## A loop in a function -/

/-- Compile `findProgram` up to its loop. Returns the addresses of the loop. -/
def compileToFindLoop : CompileM (Nat × Nat × Nat × Nat) := do
  let _ ← write (.jump 0)
  let _ ← openFunction "find" ["limit"]
  let _ ← openBlock
  Loop.addresses (.declare "i" (.int 0)) (.binary .lt (.var "i") (.var "limit"))
    (.expr (.post .increment (.var "i")))
    [.cond (.binary .eq (.var "i") (.int 1)) [.ret (some (.binary .add (.var "i") (.int 6)))]
      .none]

theorem visits_findProgram_loop : ∃ first test after body σ,
    findProgram.Visits (.part (.passes first test after body)) σ ∧
    ∀ l : Loop first test after body σ, l.start.buffer.position = 14 ∧
      l.closing.buffer.position = 45 ∧ l.update.buffer.position = 51 ∧
      l.back.buffer.position = 57 := by
  obtain ⟨_, run⟩ : ∃ τ, compileToFindLoop (Session.initial.starting findProgram) =
      .ok (14, 45, 51, 57) τ := exists_of_value (by decide +kernel)
  rw [compileToFindLoop, bind_eq_ok] at run
  obtain ⟨_, _, jump, run⟩ := run
  rw [bind_eq_ok] at run
  obtain ⟨_, _, opened, run⟩ := run
  rw [bind_eq_ok] at run
  obtain ⟨_, σ, block, run⟩ := run
  have whole : findProgram.Visits _ (Session.initial.starting findProgram) := .start
  have function := (whole.call .head rfl).call .function
    (by rw [bind_ok jump, bind_ok opened]; rfl)
  refine ⟨_, _, _, _, σ, ((function.call .head rfl).call .loop rfl).call .content block,
    fun l => ?_⟩
  have values := (EStateM.Result.ok.inj (l.addresses_eq.symm.trans run)).1
  simpa only [Prod.mk.injEq] using values

/-! ## Every pass finds the stack as the first one did -/

/-- **Passes of a loop.** In a compiled program in which no loop declares a variable after each
pass, at every step and for every loop:

* where the test of the loop starts, the stack ends with the slots that the compiler had taken in
  the frame of the loop when it came to the test;
* so all passes in one frame of the loop find a stack of the same size;
* a body that has come to its end sets the flag of its block, and behind the call of the block that
  same slot is read, with the value `1`. Then the code of what is done after each pass is reached,
  with the frame of the loop as it was;
* that code is left only at its end, in the same frame, unless an instruction fails or a return
  leaves the frame;
* from its end the machine jumps to the test, with the frame of the loop as it was. -/
theorem compiled_loop_steady {ω : Type} [Output ω] {program : Program} {code : Code}
    (compiled : compile program = .ok code) (returns : program.ReturnsInside)
    (late : program.NoLateDeclare) (small : code.size < addressBound) (output : ω) (n : Nat)
    (bound : ∀ k ≤ n, ((Machine.start code output).after k).state.stack.size < addressBound)
    {first after : Stmt} {test : Expr} {body : List Stmt} {σ : Session}
    (visited : program.Visits (.part (.passes first test after body)) σ) :
    let m := Machine.start code output
    ∃ l : Loop first test after body σ,
      (∀ j ≤ n, m.Arrives j l.start → ∃ k calls, l.Levelled m j k calls) ∧
      (∀ i ≤ n, ∀ j ≤ n, m.Arrives i l.start → m.Arrives j l.start →
        m.openCalls i = m.openCalls j →
        (m.after i).state.stack.size = (m.after j).state.stack.size) ∧
      (∀ j, j + 8 ≤ n → m.Arrives j l.closing →
        ∃ b k calls, m.openCalls j = b :: k :: calls ∧ b.pc = l.pass.buffer.position + 1 ∧
          b.stack.size = k.stack.size + l.start.frames.current.next + 1 ∧
          m.SetsFlag (j + 1) b ∧ m.ReadsFlag (j + 3) b 1 ∧
          m.Arrives (j + 8) l.update ∧ l.Levelled m (j + 8) k calls) ∧
      (∀ j ≤ n, m.Arrives j l.update →
        ∃ k calls, l.Levelled m j k calls ∧
          m.Completes l.update.buffer.position l.back.buffer.position j n) ∧
      (∀ j < n, m.Arrives j l.back →
        ∃ k calls, l.Levelled m j k calls ∧ m.Arrives (j + 1) l.start ∧
          l.Levelled m (j + 1) k calls) := by
  intro m
  obtain ⟨c, sites, ctx, sound, emits, stands, -⟩ := exists_chart_shows compiled returns late
  have watches : c.Watches program m n := by
    refine ⟨sound, small, rfl, fun k hk => sound.keeps_after small output k fun j hj => ?_, bound⟩
    exact bound j (Nat.le_trans (Nat.le_of_lt hj) hk)
  obtain ⟨_, done⟩ := visited.compiles compiled
  obtain ⟨l⟩ := exists_loop done
  obtain ⟨shapes, charted⟩ := l.exists_charted sound visited emits stands
  have arrives (j : Nat) (le : j ≤ n) (at_start : m.Arrives j l.start) :
      ∃ k calls, l.Levelled m j k calls := by
    obtain ⟨ready, pc⟩ := at_start
    exact charted.levelled (watches.mono le) (by rw [ready]; decide)
      (by rw [pc]; exact charted.start)
  refine ⟨l, arrives, fun i hi j hj at_i at_j same => ?_,
    fun j le at_closing => charted.exits watches le at_closing,
    fun j le at_update => charted.completes watches le at_update,
    fun j lt at_back => charted.repeats watches lt at_back⟩
  obtain ⟨k, calls, levelled⟩ := arrives i hi at_i
  obtain ⟨k', calls', levelled'⟩ := arrives j hj at_j
  cases (levelled.calls.symm.trans same).trans levelled'.calls
  rw [levelled.size, levelled'.size]

/-- The loop of the function makes a second pass with the same stack, after a first one that has
come to its end. -/
theorem compiled_loop_steady_find : ∃ first test after body σ,
    findProgram.Visits (.part (.passes first test after body)) σ ∧
    ∃ l : Loop first test after body σ,
    let m := Machine.start findCode (#[] : Array Value)
    (m.Arrives 9 l.start ∧ m.Arrives 36 l.start ∧ m.openCalls 9 = m.openCalls 36 ∧
      (m.after 9).state.stack.size = (m.after 36).state.stack.size) ∧
    (m.Arrives 21 l.closing ∧
      ∃ b k calls, m.openCalls 21 = b :: k :: calls ∧ b.pc = l.pass.buffer.position + 1 ∧
        b.stack.size = k.stack.size + l.start.frames.current.next + 1 ∧
        m.SetsFlag (21 + 1) b ∧ m.ReadsFlag (21 + 3) b 1 ∧
        m.Arrives (21 + 8) l.update ∧ l.Levelled m (21 + 8) k calls) ∧
    (∃ k calls, l.Levelled m 29 k calls ∧
      m.Completes l.update.buffer.position l.back.buffer.position 29 69) ∧
    m.Arrives 35 l.back ∧
      ∃ k calls, l.Levelled m 35 k calls ∧ m.Arrives (35 + 1) l.start ∧
        l.Levelled m (35 + 1) k calls := by
  obtain ⟨first, test, after, body, σ, visited, addresses⟩ := visits_findProgram_loop
  obtain ⟨l, -, again, exits, completes, repeats⟩ := compiled_loop_steady compile_findProgram
    (by decide +kernel) (by decide +kernel) (by decide) (#[] : Array Value) 69
    (fun k _ => size_after_findCode k) visited
  obtain ⟨start, closing, update, back⟩ := addresses l
  let m := Machine.start findCode (#[] : Array Value)
  have start₁ : m.Arrives 9 l.start := ⟨by decide +kernel, by rw [start]; decide +kernel⟩
  have start₂ : m.Arrives 36 l.start := ⟨by decide +kernel, by rw [start]; decide +kernel⟩
  have same : m.openCalls 9 = m.openCalls 36 := by decide +kernel
  have closing₁ : m.Arrives 21 l.closing := ⟨by decide +kernel, by rw [closing]; decide +kernel⟩
  have update₁ : m.Arrives 29 l.update := ⟨by decide +kernel, by rw [update]; decide +kernel⟩
  have back₁ : m.Arrives 35 l.back := ⟨by decide +kernel, by rw [back]; decide +kernel⟩
  exact ⟨first, test, after, body, σ, visited, l,
    ⟨start₁, start₂, same, again 9 (by decide) 36 (by decide) start₁ start₂ same⟩,
    ⟨closing₁, exits 21 (by decide) closing₁⟩, completes 29 (by decide) update₁, back₁,
    repeats 35 (by decide) back₁⟩

/-! ## A declaration after each pass -/

/-- A loop that declares a variable after each pass. -/
def lateProgram : Program :=
  [.loop (.declare "i" (.int 0)) (.binary .lt (.var "i") (.int 3)) (.declare "j" (.int 0))
    [.expr (.call "print" [.var "i"]), .expr (.post .increment (.var "i"))]]

/-- The code of `lateProgram`. -/
def lateCode : Code :=
  #[.jump 5, .load 1 (-1), .print, .lit 0, .ret 1 1,
    .lit 0, .call 0 10, .load 0 0, .jumpIf 46, .ret 0 0,
    .lit 0, .lit 0, .store 1 2, .load 1 2, .lit 3, .binary .lt, .not, .jumpIf 42,
    .lit 0, .call 1 23, .load 1 3, .jumpIf 36, .ret 1 0,
    .load 1 2, .call 0 1, .pop, .load 1 2, .load 1 2, .lit 1, .binary .add, .store 1 2, .pop,
    .lit 1, .store 2 (-1), .lit 0, .ret 2 0, .pop, .pop,
    .lit 0, .lit 0, .store 1 3, .jump 13,
    .lit 1, .store 1 (-1), .lit 0, .ret 1 0, .pop, .pop]

/-- Compile `lateProgram` up to its loop. Returns the addresses of the loop. -/
def compileToLateLoop : CompileM (Nat × Nat × Nat × Nat) := do
  let _ ← openBlock
  Loop.addresses (.declare "i" (.int 0)) (.binary .lt (.var "i") (.int 3))
    (.declare "j" (.int 0))
    [.expr (.call "print" [.var "i"]), .expr (.post .increment (.var "i"))]

theorem visits_lateProgram_loop : ∃ first test after body σ,
    lateProgram.Visits (.part (.passes first test after body)) σ ∧
    ∀ l : Loop first test after body σ, l.start.buffer.position = 13 ∧
      l.closing.buffer.position = 32 ∧ l.update.buffer.position = 38 ∧
      l.back.buffer.position = 41 := by
  obtain ⟨_, run⟩ : ∃ τ, compileToLateLoop (Session.initial.starting lateProgram) =
      .ok (13, 32, 38, 41) τ := exists_of_value (by decide +kernel)
  rw [compileToLateLoop, bind_eq_ok] at run
  obtain ⟨_, σ, block, run⟩ := run
  have whole : lateProgram.Visits _ (Session.initial.starting lateProgram) := .start
  refine ⟨_, _, _, _, σ, ((whole.call .head rfl).call .loop rfl).call .content block,
    fun l => ?_⟩
  have values := (EStateM.Result.ok.inj (l.addresses_eq.symm.trans run)).1
  simpa only [Prod.mk.injEq] using values

/-- **A declaration after each pass** makes the stack grow: the second pass finds one more value
than the first one. The body of the second pass comes to its end, but its flag is read from another
slot than the one that was set, and so a return is executed where the loop should go on. -/
theorem late_declare_unsteady :
    compile lateProgram = .ok lateCode ∧ lateProgram.ReturnsInside ∧
    ∃ first test after body σ, lateProgram.Visits (.part (.passes first test after body)) σ ∧
    ∀ l : Loop first test after body σ,
      let m := Machine.start lateCode (#[] : Array Value)
      m.Arrives 6 l.start ∧ m.Arrives 38 l.start ∧ m.openCalls 6 = m.openCalls 38 ∧
      (m.after 6).state.stack.size = 4 ∧ (m.after 38).state.stack.size = 5 ∧
      m.Arrives 58 l.closing ∧ (m.after (58 + 6)).next? = some (.ret 1 0) ∧
      (m.after 68).status = .failed ∧ (m.after 68).state.output = #[0, 1] := by
  obtain ⟨first, test, after, body, σ, visited, addresses⟩ := visits_lateProgram_loop
  refine ⟨compile_of_toOption (by decide +kernel), by decide +kernel, first, test, after, body, σ,
    visited, fun l => ?_⟩
  obtain ⟨start, closing, -, -⟩ := addresses l
  simp only [Machine.Arrives, start, closing]
  decide +kernel

end NestLang
