import NestLang.Proofs.Store

/-!
# Agreement of machine and evaluation

When a state of the machine agrees with a memory and an environment, and what the code of an
expression and of a statement leads to.

* `Enough`: the fuel bounds the number of instructions from below.
* `Knows`: the stack holds the cells that the names in scope are bound to.
* `Yields`: some values have been put on the stack.
* `Stands`, `Header`: the state is between two statements of a frame.
* `Ends`: how a statement ends. `Continued.ends`: **one statement after the other.**
-/

namespace NestLang

/-! ## Fuel -/

/-- If the evaluation of a piece of the given weight runs out of fuel, `n` pieces of code have been
entered, none of which is heavier than `size`. -/
def Enough (weight size n fuel : Nat) : Prop := n = 0 ∨ weight + n * size ≤ fuel

section Enough

variable {weight weight' size n fuel : Nat}

theorem Enough.eq_zero (h : Enough (weight + 1) size n 0) : n = 0 := by
  rcases h with h | h
  · exact h
  · omega

theorem Enough.less (h : Enough weight size n (fuel + 1)) (lt : weight' < weight) :
    Enough weight' size n fuel := by
  rcases h with h | h
  · exact .inl h
  · exact .inr (by omega)

theorem Enough.enter (h : Enough (weight + 1) size n (fuel + 1)) (le : weight' ≤ size) :
    Enough weight' size (n - 1) fuel := by
  cases n with
  | zero => exact .inl rfl
  | succ n =>
    refine .inr ?_
    rcases h with h | h
    · cases h
    · rw [Nat.succ_mul] at h
      simp only [Nat.add_sub_cancel]
      omega

end Enough

/-! ## Values -/

/-- The stack holds the cells that the names in scope are bound to. -/
structure Knows (c : Chart) (size : Nat) (scopes : Scopes Decl) (env : Env) (φ : Places)
    (mem : Memory) (s : State (Array Value)) : Prop where
  binds : Binds c size φ s.display.base scopes env
  models : Models φ mem s.stack
  output : s.output = mem.output
  bases : ∀ level, s.display.base level ≤ s.stack.size
  bounded : c.Bounded s

/-- From the state `s` on, values have been put on the stack and the cells have changed, and
execution is at the address `a`. -/
structure Yields (φ : Places) (s : State (Array Value)) (a : Nat) (l : List Value) (mem' : Memory)
    (s' : State (Array Value)) : Prop where
  pc : s'.pc = a
  size : s'.stack.size = s.stack.size + l.length
  values : ∀ j < l.length, s'.stack[s.stack.size + j]? = l[j]?
  kept : Kept φ s.stack.size s.stack mem' s'.stack
  display : s'.display.base = s.display.base
  output : s'.output = mem'.output

section Yields

variable {c : Chart} {size : Nat} {scopes : Scopes Decl} {env : Env} {φ : Places}
  {mem mem' mem₁ mem₂ : Memory} {s s' s₁ s₂ : State (Array Value)} {a b pc : Nat}
  {l r : List Value} {v : Value} {stack : Stack} {display : Display}

theorem Knows.base_lt (h : Knows c size scopes env φ mem s) (level : Nat) :
    s.display.base level < addressBound :=
  Nat.lt_of_le_of_lt (h.bases level) h.bounded.size

theorem Knows.yields (h : Knows c size scopes env φ mem s) (reach : c.Reach s s')
    (yields : Yields φ s a l mem' s') : Knows c size scopes env φ mem' s' where
  binds := by
    rw [yields.display]
    exact h.binds
  models := h.models.of_kept yields.kept
  output := yields.output
  bases := fun level => by
    rw [yields.display, yields.size]
    exact Nat.le_add_right_of_le (h.bases level)
  bounded := h.bounded.reach reach

theorem Yields.nil (h : Knows c size scopes env φ mem s) : Yields φ s s.pc [] mem s :=
  ⟨rfl, rfl, fun _ hj => absurd hj (Nat.not_lt_zero _), h.models.kept _, rfl, h.output⟩

theorem Yields.goto {output : Array Value} (h : Yields φ s a l mem' ⟨pc, stack, display, output⟩)
    (b : Nat) : Yields φ s b l mem' ⟨b, stack, display, output⟩ :=
  ⟨rfl, h.size, h.values, h.kept, h.display, h.output⟩

theorem Yields.push (h : Yields φ s a l mem' ⟨pc, stack, display, mem'.output⟩) (v : Value) :
    Yields φ s b (l ++ [v]) mem' ⟨b, stack.push v, display, mem'.output⟩ where
  pc := rfl
  size := by simp [h.size, Nat.add_assoc]
  values := fun j hj => by
    have size := h.size
    simp only [List.length_append, List.length_singleton] at hj
    by_cases last : j = l.length
    · subst last
      simp [← size]
    · have lt : j < l.length := by omega
      rw [Stack.getElem?_push_of_lt (by simp only at size; omega), List.getElem?_append_left lt]
      exact h.values j lt
  kept := h.kept.congr fun a ha => Stack.getElem?_push_of_lt (by
    have size := h.size
    simp only at size
    omega) v
  display := h.display
  output := rfl

theorem Yields.pop (h : Yields φ s a (l ++ [v]) mem' s') : ∃ stack display,
    s' = ⟨a, stack.push v, display, mem'.output⟩ ∧
    Yields φ s a l mem' ⟨a, stack, display, mem'.output⟩ := by
  obtain ⟨pc, stack', display, output⟩ := s'
  obtain ⟨rfl, size, values, kept, hd, rfl⟩ := h
  simp only [List.length_append, List.length_singleton] at size values
  obtain ⟨stack, w, rfl⟩ := Array.eq_push_of_size_ne_zero (by omega : stack'.size ≠ 0)
  rw [Array.size_push] at size
  have top := values l.length (Nat.lt_succ_self _)
  have last : s.stack.size + l.length = stack.size := by omega
  rw [last, Array.getElem?_push_size, List.getElem?_append_right (Nat.le_refl _), Nat.sub_self]
    at top
  obtain rfl : w = v := Option.some.inj top
  refine ⟨stack, display, rfl, rfl, by simp only; omega, fun j hj => ?_, ?_, hd, rfl⟩
  · have lt : s.stack.size + j < stack.size := by omega
    rw [← Stack.getElem?_push_of_lt lt w, values j (by omega), List.getElem?_append_left hj]
  · refine kept.congr fun a ha => ?_
    have lt : a < stack.size := by omega
    exact (Stack.getElem?_push_of_lt lt w).symm

/-- **Values on top of values.** -/
theorem Yields.append (h : Knows c size scopes env φ mem s) (h₁ : Yields φ s a l mem₁ s₁)
    (h₂ : Yields φ s₁ b r mem₂ s₂) : Yields φ s b (l ++ r) mem₂ s₂ where
  pc := h₂.pc
  size := by rw [h₂.size, h₁.size, List.length_append, Nat.add_assoc]
  values := fun j hj => by
    have size := h₁.size
    rw [List.length_append] at hj
    by_cases lower : j < l.length
    · -- No cell lies among the values.
      have free : φ.Free (s.stack.size + j) := h.models.free (Nat.le_add_right _ _)
      rw [h₂.kept.frame (by omega) free, h₁.values j lower, List.getElem?_append_left lower]
    · have eq : s.stack.size + j = s₁.stack.size + (j - l.length) := by omega
      rw [eq, h₂.values _ (by omega), List.getElem?_append_right (Nat.le_of_not_lt lower)]
  kept := h₁.kept.trans h₂.kept .refl (h₁.size ▸ Nat.le_add_right _ _)
  display := h₂.display.trans h₁.display
  output := h₂.output

end Yields

/-! ## Frames -/

/-- Where a frame goes back to: the base that its level had before, and the address behind the
call. -/
structure Link where
  base : Nat
  pc : Nat

/-- The header of the frame with the given base holds the link, and no cell lies in it. -/
structure Header (φ : Places) (stack : Stack) (base params : Nat) (link : Link) : Prop where
  saved_base : stack[base]? = some (.ofAddress link.base)
  saved_pc : stack[base + 1]? = some (.ofAddress link.pc)
  free_base : φ.Free base
  free_pc : φ.Free (base + 1)
  base_lt : link.base < addressBound
  pc_lt : link.pc < addressBound
  params_le : params ≤ base

/-- The state is between two statements of a frame. Only inside of a function the frame is left by
a return, so that its header counts. -/
structure Stands (c : Chart) (size : Nat) (ctx : Ctx) (link : Link) (env : Env) (φ : Places)
    (mem : Memory) (s : State (Array Value)) : Prop
    extends Knows c size ctx.scopes env φ mem s where
  height : s.stack.size = s.display.base ctx.level + ctx.slots
  header : inFunction ctx.shapes = true →
    Header φ s.stack (s.display.base ctx.level) ctx.params link

/-- From the state `s` on, the frame has returned a value, which lies in place of the frame and of
its arguments. -/
structure Returned (link : Link) (level params : Nat) (φ : Places) (s : State (Array Value))
    (v : Value) (mem' : Memory) (s' : State (Array Value)) : Prop where
  pc : s'.pc = link.pc
  stack : ∃ stack, s'.stack = stack.push v ∧ stack.size = s.display.base level - params ∧
    Kept φ (s.display.base level - params) s.stack mem' stack
  display : s'.display.base = fun k => if k = level then link.base else s.display.base k
  output : s'.output = mem'.output

/-- From the state `s` on, execution has got to the address `a` in the same frame. -/
structure Continued (c : Chart) (size : Nat) (ctx' : Ctx) (link : Link) (φ φ' : Places)
    (s : State (Array Value)) (a : Nat) (env' : Env) (mem' : Memory) (s' : State (Array Value)) :
    Prop extends Stands c size ctx' link env' φ' mem' s' where
  pc : s'.pc = a
  extended : φ.Extends φ' s.stack.size
  le_size : s.stack.size ≤ s'.stack.size
  kept : Kept φ s.stack.size s.stack mem' s'.stack
  display : s'.display.base = s.display.base

/-- How a statement of the frame ends that starts in the state `s` and has its code in front of the
address `a`. -/
def Ends (c : Chart) (size : Nat) (ctx ctx' : Ctx) (link : Link) (φ : Places)
    (s : State (Array Value)) (a : Nat) : Flow → Memory → State (Array Value) → Prop
  | .next env', mem', s' => ∃ φ', Continued c size ctx' link φ φ' s a env' mem' s'
  | .returned v, mem', s' => inFunction ctx.shapes = true ∧
    Returned link ctx.level ctx.params φ s v mem' s'

section Frames

variable {c : Chart} {size : Nat} {ctx ctx₁ ctx₂ : Ctx} {link : Link} {env env₁ : Env}
  {φ φ₁ : Places} {mem mem' mem₁ : Memory} {s s' s₁ : State (Array Value)} {a b pc : Nat}
  {v : Value} {stack stack' : Stack} {base params m : Nat} {display : Display} {flow : Flow}

theorem Header.lt_size (h : Header φ stack base params link) : base + 1 < stack.size :=
  (Array.getElem?_eq_some_iff.1 h.saved_pc).1

theorem Header.kept (h : Header φ stack base params link) (kept : Kept φ m stack mem' stack')
    (lt : base + 1 < m) : Header φ stack' base params link where
  saved_base := (kept.frame (by omega) h.free_base).trans h.saved_base
  saved_pc := (kept.frame lt h.free_pc).trans h.saved_pc
  free_base := h.free_base
  free_pc := h.free_pc
  base_lt := h.base_lt
  pc_lt := h.pc_lt
  params_le := h.params_le

theorem Header.set (h : Header φ stack base params link) (lt : a < base) (v : Value) :
    Header φ (stack.setIfInBounds a v) base params link where
  saved_base := by
    rw [Array.getElem?_setIfInBounds_ne (Nat.ne_of_lt lt)]
    exact h.saved_base
  saved_pc := by
    rw [Array.getElem?_setIfInBounds_ne (by omega)]
    exact h.saved_pc
  free_base := h.free_base
  free_pc := h.free_pc
  base_lt := h.base_lt
  pc_lt := h.pc_lt
  params_le := h.params_le

theorem Header.extends (h : Header φ stack base params link) (ext : φ.Extends φ₁ m)
    (lt : base + 1 < m) : Header φ₁ stack base params link where
  saved_base := h.saved_base
  saved_pc := h.saved_pc
  free_base := h.free_base.extends ext (by omega)
  free_pc := h.free_pc.extends ext lt
  base_lt := h.base_lt
  pc_lt := h.pc_lt
  params_le := h.params_le

/-- **A return leaves the frame.** -/
theorem Header.returns {level : Nat}
    (header : Header φ₁ stack (s.display.base level) params link)
    (instr : c.instr? pc = some (.ret level params))
    (kept : Kept φ (s.display.base level - params) s.stack mem' stack)
    (bases : display.base = s.display.base) (v : Value) :
    ∃ s', c.Reach ⟨pc, stack.push v, display, mem'.output⟩ s' ∧
      Returned link level params φ s v mem' s' := by
  have lt := header.lt_size
  have step : advance (.ret level params) ⟨pc, stack.push v, display, mem'.output⟩ =
      .ok () ⟨link.pc, (stack.take (s.display.base level - params)).push v,
        display.setBase level link.base, mem'.output⟩ :=
    advance_ret (congrFun bases level) header.saved_base header.saved_pc header.base_lt
      header.pc_lt header.params_le
  refine ⟨_, .one instr step, rfl, ⟨_, rfl, ?_, ?_⟩, ?_, rfl⟩
  · exact Stack.size_take (by omega)
  · exact kept.congr fun a ha => Stack.getElem?_take (by omega) ha
  · rw [Display.setBase_base, bases]

theorem Stands.continued (h : Stands c size ctx link env φ mem s) (reach : c.Reach s s')
    (yields : Yields φ s a [] mem' s') : Continued c size ctx link φ φ s a env mem' s' where
  toKnows := h.toKnows.yields reach yields
  height := by
    rw [yields.size, yields.display]
    exact h.height
  header := fun inside => by
    rw [yields.display]
    exact (h.header inside).kept yields.kept (h.header inside).lt_size
  pc := yields.pc
  extended := .refl
  le_size := Nat.le_of_eq yields.size.symm
  kept := yields.kept
  display := yields.display

theorem Continued.rebind (h : Continued c size ctx₁ link φ φ₁ s a env₁ mem' s')
    (start : Stands c size ctx link env φ mem s) (shapes : ctx₁.shapes = ctx.shapes) :
    Continued c size ctx link φ φ₁ s a env mem' s' := by
  refine ⟨⟨⟨?_, h.models, h.output, h.bases, h.bounded⟩, ?_, ?_⟩, h.pc, h.extended, h.le_size,
    h.kept, h.display⟩
  · rw [h.display]
    exact start.binds.mono h.extended.old
  · have height := h.height
    rwa [Ctx.level, Ctx.slots, shapes] at height
  · have header := h.header
    rwa [Ctx.level, Ctx.params, shapes] at header

theorem Continued.goto {output : Array Value}
    (h : Continued c size ctx link φ φ₁ s a env mem' ⟨pc, stack, display, output⟩)
    (reach : c.Reach ⟨pc, stack, display, output⟩ ⟨b, stack, display, output⟩) :
    Continued c size ctx link φ φ₁ s b env mem' ⟨b, stack, display, output⟩ :=
  ⟨⟨⟨h.binds, h.models, h.output, h.bases, h.bounded.reach reach⟩, h.height, h.header⟩, rfl,
    h.extended, h.le_size, h.kept, h.display⟩

/-- **One statement after the other.** -/
theorem Continued.ends (h : Continued c size ctx₁ link φ φ₁ s a env₁ mem₁ s₁)
    (rest : Ends c size ctx₁ ctx₂ link φ₁ s₁ b flow mem' s') (level : ctx₁.level = ctx.level)
    (params : ctx₁.params = ctx.params) (inside : inFunction ctx₁.shapes = inFunction ctx.shapes)
    (le : s.display.base ctx.level ≤ s.stack.size) :
    Ends c size ctx ctx₂ link φ s b flow mem' s' := by
  cases flow with
  | next env' =>
    obtain ⟨φ₂, rest⟩ := rest
    exact ⟨φ₂, rest.toStands, rest.pc, h.extended.trans rest.extended h.le_size,
      Nat.le_trans h.le_size rest.le_size, h.kept.trans rest.kept h.extended h.le_size,
      rest.display.trans h.display⟩
  | returned v =>
    obtain ⟨inFunction, rest⟩ := rest
    obtain ⟨stack, hs, size, kept⟩ := rest.stack
    rw [level, params, h.display] at size kept
    refine ⟨inside ▸ inFunction, rest.pc, ⟨stack, hs, size, ?_⟩, ?_, rest.output⟩
    · have le : s.display.base ctx.level - ctx.params ≤ s.stack.size := by omega
      exact (h.kept.mono le).trans kept (h.extended.mono le) (Nat.le_refl _)
    · rw [rest.display, level, h.display]

end Frames

/-! ## Simulation -/

/-- What the chart of a whole program has besides the code of its statements. -/
structure Chart.Loaded (c : Chart) : Prop where
  print : c.Sits 0 printSites
  small : c.sites.length < addressBound

theorem Chart.Loaded.succ_lt {c : Chart} {a : Nat} {i : Instr} (h : c.Loaded)
    (instr : c.instr? a = some i) : a + 1 < addressBound := by
  obtain ⟨site, hs, -⟩ := Option.map_eq_some_iff.1 instr
  have lt := (List.getElem?_eq_some_iff.1 hs).1
  exact Nat.lt_of_le_of_lt lt h.small

/-- The code of the passes of a loop stands at `a`, and goes on at `stop` behind the last one. -/
structure Chart.Passes (c : Chart) (size : Nat) (ctx : Ctx) (a : Nat) (test : Expr) (after : Stmt)
    (body : List Stmt) (stop : Nat) : Prop where
  code : ∃ sites₁ sites₂ sites₃ ctx', Expr.Emits ctx 0 test sites₁ ∧ c.Sits a sites₁ ∧
    c.instr? (a + sites₁.length) = some .not ∧
    c.instr? (a + sites₁.length + 1) = some (.jumpIf stop) ∧
    c.Carries size ctx (a + sites₁.length + 2) (.block (.stmts body)) sites₂ ctx ∧
    c.Carries size ctx (a + sites₁.length + 2 + sites₂.length) (.stmt after) sites₃ ctx' ∧
    ctx'.shapes = ctx.shapes ∧
    c.instr? (a + sites₁.length + 2 + sites₂.length + sites₃.length) = some (.jump a)
  small : 3 * (sizeOf test + sizeOf after + sizeOf body) + 3 ≤ size

/-- With so much fuel, the machine follows every evaluation. -/
structure Chart.Simulates (c : Chart) (size fuel : Nat) : Prop where
  expr : ∀ {n ctx t e sites env φ mem} {s : State (Array Value)}, Expr.Emits ctx t e sites →
    c.Sits s.pc sites → Knows c size ctx.scopes env φ mem s →
    Enough (3 * sizeOf e + 1) size n fuel →
    c.Follows n s (fun v => Yields φ s (s.pc + sites.length) [v]) (e.eval fuel env mem)
  exprs : ∀ {n ctx t es sites env φ mem} {s : State (Array Value)}, Expr.EmitsAll ctx t es sites →
    c.Sits s.pc sites → Knows c size ctx.scopes env φ mem s →
    Enough (3 * sizeOf es + 1) size n fuel →
    c.Follows n s (fun l mem' s' => l.length = es.length ∧
      Yields φ s (s.pc + sites.length) l mem' s') (Expr.evalAll fuel env es mem)
  stmt : ∀ {n ctx ctx' st sites link env φ mem} {s : State (Array Value)},
    c.Carries size ctx s.pc (.stmt st) sites ctx' → Stands c size ctx link env φ mem s →
    Enough (3 * sizeOf st + 1) size n fuel →
    c.Follows n s (Ends c size ctx ctx' link φ s (s.pc + sites.length)) (st.eval fuel env mem)
  stmts : ∀ {n ctx ctx' body sites link env φ mem} {s : State (Array Value)},
    c.Carries size ctx s.pc (.stmts body) sites ctx' → Stands c size ctx link env φ mem s →
    Enough (3 * sizeOf body + 1) size n fuel →
    c.Follows n s (Ends c size ctx ctx' link φ s (s.pc + sites.length))
      (Stmt.evalAll fuel env body mem)
  block : ∀ {n ctx body sites link env φ mem} {s : State (Array Value)},
    c.Carries size ctx s.pc (.block (.stmts body)) sites ctx →
    Stands c size ctx link env φ mem s → Enough (3 * sizeOf body + 2) size n fuel →
    c.Follows n s (Ends c size ctx ctx link φ s (s.pc + sites.length))
      (Stmt.evalBlock fuel env body mem)
  branch : ∀ {n ctx test body alternative sites link env φ mem} {s : State (Array Value)},
    c.Carries size ctx s.pc (.stmt (.cond test body alternative)) sites ctx →
    Stands c size ctx link env φ mem s →
    Enough (3 * (sizeOf test + sizeOf body + sizeOf alternative) + 3) size n fuel →
    c.Follows n s (Ends c size ctx ctx link φ s (s.pc + sites.length))
      (Stmt.evalBranch fuel env test body alternative mem)
  loop : ∀ {n ctx test after body stop link env φ mem} {s : State (Array Value)},
    c.Passes size ctx s.pc test after body stop → Stands c size ctx link env φ mem s →
    Enough (3 * (sizeOf test + sizeOf after + sizeOf body) + 3) size n fuel →
    c.Follows n s (fun r => Ends c size ctx ctx link φ s stop (r.elim (.next env) .returned))
      (Stmt.evalLoop fuel env test after body mem)

end NestLang
