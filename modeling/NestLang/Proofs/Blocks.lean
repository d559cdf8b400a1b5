import NestLang.Proofs.Expressions

/-!
# Code of blocks

A block is called like a function without parameters, above a flag that is `0`. At its end it sets
the flag, so that execution goes on behind the block. A return from within the block leaves the
flag as it is, and the value is returned from the frame around.

* `Knows.enterBlock`: the body of a block starts in a new frame.
* `Stands.reach_flag`: behind the call the flag decides how to go on.
* `Stands.follows_block`: **the code of a block.**
-/

namespace NestLang

variable {c : Chart} {size n : Nat} {ctx ctx' inner : Ctx} {link : Link} {env env' : Env}
  {φ φ' : Places} {mem mem' : Memory} {s s' s₁ : State (Array Value)} {a b pc : Nat} {v : Value}
  {stack : Stack} {display : Display}

/-- How a block ends whose body has ended so. -/
def Flow.close (env : Env) : Flow → Flow
  | .next _ => .next env
  | .returned v => .returned v

theorem Chart.Carries.block {content : Part} {sites : List Site}
    (h : c.Carries size ctx a (.block content) sites ctx) : ∃ body inner,
      c.Carries size (ctx.enterBlock (a + 5)) (a + 5) content body inner ∧
      c.Sits a (ctx.openSites a body.length) ∧
      c.Sits (a + 5 + body.length) (inner.closeSites ++ [ctx.site 2 .pop, ctx.site 1 .pop]) ∧
      sites.length = 5 + body.length + 6 := by
  obtain ⟨emits, sits, returns, late, small, level, depth⟩ := h
  cases emits with
  | @block _ _ _ body inner emits =>
    obtain ⟨opening, sits⟩ := Chart.sits_append.1 sits
    obtain ⟨sits, closing⟩ := Chart.sits_append.1 sits
    refine ⟨body, inner, ⟨emits, sits, returns, late, Nat.le_of_succ_le small, ?_, ?_⟩, opening,
      closing, ?_⟩
    · exact Nat.le_trans (Nat.succ_le_succ level) (by omega)
    · exact congrArg Nat.succ depth
    · simp only [List.length_append, Ctx.openSites, Ctx.closeSites, List.length_cons,
        List.length_nil]
      omega

theorem Knows.enterBlock {entry : Nat} (h : Knows c size ctx.scopes env φ mem s)
    (depth : ctx.scopes.depth = ctx.level) (reach : c.Reach s (s.entered ctx.level entry))
    (pc_lt : s.pc + 1 < addressBound) :
    Stands c size (ctx.enterBlock entry) (s.link ctx.level) env φ mem
      (s.entered ctx.level entry) where
  binds := .enter (h.binds.congr fun k hk =>
    State.base_entered_of_ne (Nat.ne_of_lt (Nat.lt_succ_of_le (depth ▸ hk))))
  models := h.models.congr fun a ha => State.getElem?_entered ha
  output := h.output
  bases := h.bases_entered
  bounded := h.bounded.reach reach
  height := by
    rw [State.size_entered]
    exact congrArg (· + 2) (State.base_entered s ctx.level entry).symm
  header := fun _ => by
    have base : (s.entered ctx.level entry).display.base (ctx.enterBlock entry).level =
      s.stack.size := State.base_entered s ctx.level entry
    rw [base]
    exact h.header (fun a ha => h.models.free ha) pc_lt (Nat.zero_le _)

theorem Stands.reach_flag {flag : Value} {target : Nat} {output : Array Value}
    (h : Stands c size ctx link env φ mem s) (bases : display.base = s.display.base)
    (value : stack[s.stack.size]? = some flag)
    (bounded : c.Bounded ⟨pc, stack.push v, display, output⟩)
    (load : c.instr? pc = some (.load ctx.level ctx.slots))
    (jump : c.instr? (pc + 1) = some (.jumpIf target)) :
    c.Reach ⟨pc, stack.push v, display, output⟩
      ⟨if flag = 0 then pc + 2 else target, stack.push v, display, output⟩ := by
  have inside : s.stack.size < stack.size := (Array.getElem?_eq_some_iff.1 value).1
  have base : display.base ctx.level < addressBound := by
    rw [bases]
    exact h.base_lt _
  have address : (display.base ctx.level : Int) + ctx.slots = s.stack.size := by
    rw [bases, h.height]
    rfl
  have read : (stack.push v)[s.stack.size]? = some flag := by
    rw [Stack.getElem?_push_of_lt inside, value]
  exact .step load (advance_load base bounded.size address read)
    (.one jump (advance_jumpIf target flag))

section Closing

variable {entry length : Nat} (h : Stands c size ctx link env φ mem s)
  (flag : Yields φ s (s.pc + 1) [0] mem s₁)
  (opening : c.Sits s.pc (ctx.openSites s.pc length))

include flag in
theorem Yields.kept_entered {m : Nat} (lt : s.stack.size < m)
    (kept : Kept φ m (s₁.entered ctx.level entry).stack mem' stack) :
    Kept φ s.stack.size s.stack mem' stack := by
  have size₁ : s₁.stack.size = s.stack.size + 1 := flag.size
  have entered : Kept φ s.stack.size s.stack mem (s₁.entered ctx.level entry).stack :=
    flag.kept.congr fun a ha => State.getElem?_entered (by omega)
  exact entered.trans kept .refl (Nat.le_of_lt lt)

include h flag opening in
/-- **A return from within a block is a return from the frame around.** -/
theorem Returned.closeBlock (inside : inFunction ctx.shapes = true) (reach : c.Reach s s')
    (returned : Returned (s₁.link ctx.level) (ctx.level + 1) 0 φ (s₁.entered ctx.level entry) v
      mem' s') :
    ∃ s'', c.Reach s' s'' ∧ Returned link ctx.level ctx.params φ s v mem' s'' := by
  obtain ⟨-, -, load, jump, ret, -⟩ := opening
  obtain ⟨pc, stack', display, output⟩ := s'
  obtain ⟨rfl, ⟨stack, rfl, height, kept⟩, bases, rfl⟩ := returned
  rw [State.base_restored, flag.display] at bases
  rw [State.base_entered, flag.size] at height kept
  have below : Kept φ s.stack.size s.stack mem' stack :=
    flag.kept_entered (Nat.lt_succ_self _) kept
  have unset : stack[s.stack.size]? = some 0 := by
    rw [kept.frame (Nat.lt_succ_self _) (h.models.free (Nat.le_refl _)),
      State.getElem?_entered (by rw [flag.size]; exact Nat.lt_succ_self _)]
    exact flag.values 0 Nat.one_pos
  have pc : (s₁.link ctx.level).pc = s.pc + 2 := congrArg Nat.succ flag.pc
  rw [pc] at reach ⊢
  have flagged := h.reach_flag bases unset (h.bounded.reach reach) (Chart.instr?_of_site load)
    (Chart.instr?_of_site jump)
  have header := h.header inside
  obtain ⟨s'', back, returned⟩ := (header.kept below header.lt_size).returns
    (Chart.instr?_of_site ret) (below.mono (Nat.le_trans (Nat.sub_le _ _) (h.bases _))) bases v
  exact ⟨s'', flagged.trans back, returned⟩

include h flag in
theorem Continued.reach_set
    (header : Header φ (s₁.entered ctx.level entry).stack s₁.stack.size 0 (s₁.link ctx.level))
    (level : inner.level = ctx.level + 1)
    (body : Continued c size ctx' (s₁.link ctx.level) φ φ' (s₁.entered ctx.level entry) b env' mem'
      s')
    (closing : c.Sits b inner.closeSites) : ∃ stack display,
      c.Reach s' ⟨s.pc + 2, stack.push 0, display, mem'.output⟩ ∧
      display.base = s.display.base ∧ stack.size = s.stack.size + 1 ∧
      stack[s.stack.size]? = some 1 ∧ Kept φ s.stack.size s.stack mem' stack := by
  obtain ⟨lit, store, lit', ret, -⟩ := closing
  obtain ⟨pc, stack, display, output⟩ := s'
  obtain rfl : pc = b := body.pc
  obtain rfl : output = mem'.output := body.output
  have size₁ : s₁.stack.size = s.stack.size + 1 := flag.size
  have size₂ : s₁.stack.size + 2 ≤ stack.size := State.size_entered s₁ _ _ ▸ body.le_size
  have bases : display.base = (s₁.entered ctx.level entry).display.base := body.display
  have base : display.base inner.level = s.stack.size + 1 := by
    rw [bases, level, State.base_entered, size₁]
  let flagged := stack.setIfInBounds s.stack.size 1
  have set : advance (.store inner.level (-1))
      ⟨pc + 1, stack.push 1, display, mem'.output⟩ =
        .ok () ⟨pc + 2, flagged, display, mem'.output⟩ :=
    advance_store (body.base_lt _) body.bounded.size (by rw [base]; omega) (by omega)
  have kept : Kept φ s.stack.size s.stack mem' flagged :=
    (flag.kept_entered (by rw [State.size_entered]; omega) body.kept).congr fun a ha =>
      Array.getElem?_setIfInBounds_ne (by omega)
  have header' : Header φ flagged (display.base inner.level) 0 (s₁.link ctx.level) := by
    rw [base, ← size₁]
    exact (header.kept body.kept header.lt_size).set (by omega) 1
  -- Nothing changes while the frame is left.
  obtain ⟨⟨_, _, display', _⟩, back, rfl, ⟨left, rfl, height, kept'⟩, bases', rfl⟩ :=
    Header.returns (s := ⟨pc + 3, flagged, display, mem'.output⟩) header'
      (Chart.instr?_of_site ret) ((h.models.of_kept kept).kept _) rfl 0
  rw [Nat.sub_zero, base] at height kept'
  have link_pc : (s₁.link ctx.level).pc = s.pc + 2 := congrArg Nat.succ flag.pc
  rw [link_pc] at back
  refine ⟨left, display', .step (Chart.instr?_of_site lit) (advance_lit 1)
    (.step (Chart.instr?_of_site store) set
      (.step (Chart.instr?_of_site lit') (advance_lit 0) back)), ?_, height, ?_, ?_⟩
  · rw [bases', level]
    simp only [bases]
    rw [State.base_restored, flag.display]
  · rw [kept'.frame (Nat.lt_succ_self _) (h.models.free (Nat.le_refl _))]
    exact Array.getElem?_setIfInBounds_self_of_lt (by omega)
  · exact kept.trans kept' .refl (Nat.le_succ _)

include h flag opening in
/-- **The end of a block leads behind it.** -/
theorem Continued.closeBlock (reach : c.Reach s s')
    (header : Header φ (s₁.entered ctx.level entry).stack s₁.stack.size 0 (s₁.link ctx.level))
    (level : inner.level = ctx.level + 1)
    (body : Continued c size ctx' (s₁.link ctx.level) φ φ' (s₁.entered ctx.level entry)
      (s.pc + 5 + length) env' mem' s')
    (closing : c.Sits (s.pc + 5 + length)
      (inner.closeSites ++ [ctx.site 2 .pop, ctx.site 1 .pop])) :
    ∃ s'', c.Reach s' s'' ∧ Yields φ s (s.pc + 5 + length + 6) [] mem' s'' := by
  obtain ⟨-, -, load, jump, -, -⟩ := opening
  obtain ⟨closing, pop, pop', -⟩ := Chart.sits_append.1 closing
  obtain ⟨stack, display, set, bases, height, value, kept⟩ :=
    body.reach_set h flag header level closing
  have flagged := h.reach_flag bases value (h.bounded.reach (reach.trans set))
    (Chart.instr?_of_site load) (Chart.instr?_of_site jump)
  rw [if_neg (by decide)] at flagged
  obtain ⟨below, top, rfl⟩ := Array.eq_push_of_size_ne_zero (by omega : stack.size ≠ 0)
  rw [Array.size_push] at height
  have pops : c.Reach ⟨s.pc + 5 + length + 4, (below.push top).push 0, display, mem'.output⟩
      ⟨s.pc + 5 + length + 6, below, display, mem'.output⟩ :=
    .step (Chart.instr?_of_site pop) (advance_pop 0)
      (.one (Chart.instr?_of_site pop') (advance_pop top))
  refine ⟨_, (set.trans flagged).trans pops, rfl, Nat.succ.inj height,
    fun _ hj => absurd hj (Nat.not_lt_zero _), ?_, bases, rfl⟩
  exact kept.congr fun a ha => (Stack.getElem?_push_of_lt (by simp only; omega) top).symm

end Closing

/-- **The code of a block.** The names declared in the block do not count at its end. -/
theorem Stands.follows_block {content : Part} {sites : List Site} {x : EvalM Flow}
    (loaded : c.Loaded) (h : Stands c size ctx link env φ mem s)
    (carries : c.Carries size ctx s.pc (.block content) sites ctx)
    (follows : ∀ {body inner link'} {s₂ : State (Array Value)},
      c.Carries size (ctx.enterBlock (s.pc + 5)) s₂.pc content body inner →
      Stands c size (ctx.enterBlock (s.pc + 5)) link' env φ mem s₂ →
      c.Follows n s₂ (fun flow mem' s' => ∃ ctx', Ends c size (ctx.enterBlock (s.pc + 5)) ctx' link'
        φ s₂ (s₂.pc + body.length) flow mem' s') (x mem)) :
    c.Follows n s (Ends c size ctx ctx link φ s (s.pc + sites.length))
      ((x >>= fun flow => pure (flow.close env)) mem) := by
  obtain ⟨body, inner, content, opening, closing, length⟩ := carries.block
  obtain ⟨lit, call, -⟩ := id opening
  obtain ⟨pc, stack, display, output⟩ := s
  obtain rfl : output = mem.output := h.output
  let s₁ : State (Array Value) := ⟨pc + 1, stack.push 0, display, mem.output⟩
  have flag : Yields φ _ (pc + 1) [0] mem s₁ := (Yields.nil h.toKnows).push 0
  have start : c.Reach ⟨pc, stack, display, mem.output⟩ s₁ :=
    .one (Chart.instr?_of_site lit) (advance_lit 0)
  have known := h.toKnows.yields start flag
  have instr : c.instr? s₁.pc = some (.call ctx.level (pc + 5)) := Chart.instr?_of_site call
  have pc_lt : s₁.pc + 1 < addressBound := loaded.succ_lt instr
  have bound : ctx.level + 1 < wordCount :=
    Nat.lt_trans (Nat.lt_of_le_of_lt (Nat.succ_le_succ (Nat.le_succ_of_le carries.level)) pc_lt)
      addressBound_lt_wordCount
  have step : advance (.call ctx.level (pc + 5)) s₁ = .ok () (s₁.entered ctx.level (pc + 5)) :=
    State.advance_call bound
  have reach := start.trans (.one instr step)
  refine Chart.Follows.reach reach (Chart.Follows.bind
    (follows content (known.enterBlock carries.depth (.one instr step) pc_lt)) ?_)
  intro flow mem' s' reach' ⟨ctx', ends⟩
  cases flow with
  | next env' =>
    obtain ⟨φ', ended⟩ := ends
    obtain ⟨s'', back, yields⟩ := ended.closeBlock h flag opening (reach.trans reach')
      (known.header (fun a ha => known.models.free ha) pc_lt (Nat.zero_le _))
      content.emits.level closing
    have address : pc + 5 + body.length + 6 = pc + sites.length := by omega
    rw [address] at yields
    exact ⟨s'', back, φ, h.continued ((reach.trans reach').trans back) yields⟩
  | returned v =>
    obtain ⟨inside, returned⟩ := ends
    obtain ⟨s'', back, returned⟩ := returned.closeBlock h flag opening inside (reach.trans reach')
    exact ⟨s'', back, inside, returned⟩

end NestLang
