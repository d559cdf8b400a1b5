import NestLang.Proofs.Frames
import NestLang.Proofs.Typing

/-!
# Running states

A state runs if the chart knows its program counter, the stack has the size that the chart tells,
and the frames on it are in order. Every instruction leads from a running state to a running state,
unless it divides by zero or the output refuses a value.

* `Chart.Runs`: the state runs.
* `Chart.Runs.store`, `Chart.Runs.call`, `Chart.Runs.ret`, ...: the instructions one by one.
* `Chart.Runs.step`: **what one instruction does.**
-/

namespace NestLang

variable {ω : Type}

/-- What a point tells about the values on top of the stack. -/
def Mark.Top : Mark → Stack → Prop
  | .known v, stack => stack[stack.size - 1]? = some v
  | .passed, stack => stack[stack.size - 2]? = some 1
  | .plain, _ | .leaving, _ => True

/-- The state is at the point `p`, in a frame with the given base, with these calls open. -/
structure Chart.Runs (c : Chart) (s : State ω) (p : Point) (base : Nat) (calls : List (State ω)) :
    Prop where
  point : c.point? s.pc = some p
  live : Live c s.stack p base s.display.base calls
  size : s.stack.size = base + p.height
  mark : p.mark.Top s.stack

/-- The calls that are open after an instruction: a call is made in the state `s`, and a return ends
the last one. -/
def Instr.openCalls (i : Instr) (s : State ω) (calls : List (State ω)) : List (State ω) :=
  match i with
  | .call _ _ => s :: calls
  | .ret _ _ => calls.tail
  | _ => calls

/-- What an instruction can do to a running state. -/
inductive Chart.Outcome (c : Chart) (s : State ω) (calls : List (State ω)) (i : Instr) :
    EStateM.Result Fault (State ω) Unit → Prop
  | next {s'} (p base) (runs : c.Runs s' p base (i.openCalls s calls)) :
      Outcome c s calls i (.ok () s')
  | division {s'} (p base) (instr : i = .binary .div) (pc : s'.pc = s.pc + 1)
      (live : Live c s'.stack p base s'.display.base calls) :
      Outcome c s calls i (.error .divisionByZero s')
  | output {s' cause} (p base) (instr : i = .print) (pc : s'.pc = s.pc + 1)
      (live : Live c s'.stack p base s'.display.base calls) :
      Outcome c s calls i (.error (.output cause) s')

/-- The state after a return of `v` from the frame of a level, where `k` is the state in which the
call was made: execution goes on behind the call, the level has the base it had then, and the frame
and its arguments have made room for `v`. -/
def State.leave (s k : State ω) (level params : Nat) (v : Value) : State ω :=
  ⟨k.pc + 1, (s.stack.take (k.stack.size - params)).push v,
    s.display.setBase level (k.display.base level), s.output⟩

theorem BinaryOp.eq_div_of_apply? {op : BinaryOp} {a b : Value} (h : op.apply? a b = none) :
    op = .div := by
  cases op <;> first | rfl | cases h

theorem Chart.le_of_point? {c : Chart} {a : Nat} {p : Point} (h : c.point? a = some p) :
    a ≤ c.sites.length := by
  unfold Chart.point? at h
  split at h
  · exact Nat.le_of_eq ‹_›
  · obtain ⟨s, site, -⟩ := Option.bind_eq_some_iff.1 h
    exact Nat.le_of_lt (List.getElem?_eq_some_iff.1 site).1

/-- Behind a block that was called outside of all functions its flag is set, because only the end of
the block leads there. -/
theorem Chart.Opened.mark_top {c : Chart} {stack : Stack} {shapes : Levels Shape}
    {t level base : Nat} {mark : Mark} {k : State ω} {q : Point}
    (h : c.Opened stack k level base ⟨shapes, t, mark⟩ q)
    (left : mark = .leaving ∨ mark = .plain ∧ inFunction shapes = true)
    (fits : k.stack.size ≤ stack.size) (v : Value) :
    q.mark.Top ((stack.take (k.stack.size - shapes.current.owner.params)).push v) := by
  have kind := h.kind
  have size := h.size
  obtain ⟨⟨owner, slots⟩, outer⟩ := shapes
  dsimp only at kind size ⊢
  cases kind with
  | function _ _ resume =>
    rw [resume]
    trivial
  | block _ temps around resume flag _ _ _ =>
    rw [resume]
    cases inside : inFunction q.shapes with
    | true => trivial
    | false =>
      have same : inFunction ⟨⟨.block (k.pc + 4), slots⟩, outer⟩ = inFunction q.shapes := by
        simp only at around
        simp [inFunction, Levels.toList, around, Owner.isFunction]
      have leaving : mark = .leaving := by
        obtain leaving | ⟨-, returns⟩ := left
        · exact leaving
        · rw [same, inside] at returns
          cases returns
      simp only [leaving, if_true] at flag
      simp only [Owner.params, Point.height, temps] at size
      simp only [Bool.false_eq_true, if_false, Mark.Top, Owner.params, Nat.sub_zero]
      rw [Stack.size_take_push fits]
      exact (Stack.getElem?_take_push fits (by omega) v).trans flag

namespace Chart.Runs

variable {c : Chart} {s : State ω} {p : Point} {base : Nat} {calls : List (State ω)}
  {pc : Nat} {stack : Stack} {display : Display} {output : ω}

theorem next {s' : State ω} {q : Point} (h : c.Runs s p base calls)
    (point : c.point? s'.pc = some q) (outer : q.shapes.outer = p.shapes.outer)
    (owner : q.shapes.current.owner = p.shapes.current.owner)
    (slots : p.shapes.current.slots ≤ q.shapes.current.slots)
    (leaving : q.mark = .leaving ↔ p.mark = .leaving) (display : s'.display = s.display)
    (agree : ∀ a < base + p.shapes.current.slots, s'.stack[a]? = s.stack[a]?)
    (size : s'.stack.size = base + q.height) (mark : q.mark.Top s'.stack) :
    c.Runs s' q base calls where
  point := point
  live := by
    have header := h.live.header_le
    rw [display]
    exact (h.live.congr fun a ha => agree a (by omega)).move outer owner slots leaving
  size := size
  mark := mark

section Values

variable {shapes : Levels Shape} {t pc' : Nat} {mark mark' : Mark} {output' : ω}

theorem push {v : Value} (h : c.Runs ⟨pc, stack, display, output⟩ ⟨shapes, t, mark⟩ base calls)
    (point : c.point? pc' = some ⟨shapes, t + 1, mark'⟩)
    (leaving : mark' = .leaving ↔ mark = .leaving) (top : mark'.Top (stack.push v)) :
    c.Runs ⟨pc', stack.push v, display, output'⟩ ⟨shapes, t + 1, mark'⟩ base calls := by
  have size := h.size
  simp only [Point.height] at size
  refine h.next point rfl rfl (Nat.le_refl _) leaving rfl (fun a ha => ?_) ?_ top
  · exact Stack.getElem?_push_of_lt (by dsimp only at *; omega) v
  · simp only [Point.height, Array.size_push]
    omega

theorem pop {v : Value}
    (h : c.Runs ⟨pc, stack.push v, display, output⟩ ⟨shapes, t + 1, mark⟩ base calls)
    (point : c.point? pc' = some ⟨shapes, t, .plain⟩) (leaving : mark ≠ .leaving) :
    c.Runs ⟨pc', stack, display, output'⟩ ⟨shapes, t, .plain⟩ base calls := by
  have size := h.size
  simp only [Point.height, Array.size_push] at size
  refine h.next point rfl rfl (Nat.le_refl _) ⟨by simp, fun h => absurd h leaving⟩ rfl
    (fun a ha => ?_) ?_ trivial
  · exact (Stack.getElem?_push_of_lt (by dsimp only at *; omega) v).symm
  · simp only [Point.height]
    omega

theorem exists_push
    (h : c.Runs s ⟨shapes, t + 1, mark⟩ base calls) :
    ∃ (pc : Nat) (stack : Stack) (v : Value) (display : Display) (output : ω),
      s = ⟨pc, stack.push v, display, output⟩ ∧
        stack.size = base + (shapes.current.slots + t) := by
  obtain ⟨pc, stack, display, output⟩ := s
  have size := h.size
  simp only [Point.height] at size
  have ne : stack.size ≠ 0 := by omega
  obtain ⟨stack, v, rfl⟩ := Array.eq_push_of_size_ne_zero ne
  refine ⟨pc, stack, v, display, output, rfl, ?_⟩
  rw [Array.size_push] at size
  omega

end Values

/-! ## Addresses -/

theorem load_inside {level : Nat} {offset : Int} (h : c.Runs s p base calls)
    (fits : c.Fits s.pc p (.load level offset)) :
    ∃ a : Nat, (s.display.base level : Int) + offset = a ∧ a < s.stack.size := by
  have size := h.size
  cases fits with
  | load names _ =>
    obtain ⟨a, address, inside, -⟩ := h.live.store names
    exact ⟨a, address, by simp only [Point.height] at *; omega⟩
  | @loadFlag shapes _ _ _ _ =>
    refine ⟨base + shapes.current.slots, by rw [h.live.base_eq]; rfl, ?_⟩
    simp only [Point.height] at *
    omega
  | unary operator _ => simp at operator

theorem store_inside {level : Nat} {offset : Int} (h : c.Runs s p base calls)
    (fits : c.Fits s.pc p (.store level offset)) :
    ∃ a : Nat, (s.display.base level : Int) + offset = a ∧ a + 1 < s.stack.size := by
  have size := h.size
  cases fits with
  | store names _ =>
    obtain ⟨a, address, inside, -⟩ := h.live.store names
    exact ⟨a, address, by simp only [Point.height] at *; omega⟩
  | @storeFlag shapes _ owner _ =>
    have frame := h.live.base_eq
    simp only [Point.height] at size frame
    have pos := (h.live.setFlag owner (by omega) 0).1
    exact ⟨base - 1, by omega, by omega⟩
  | unary operator _ => simp at operator

/-! ## Steps -/

variable [Output ω]

theorem load {shapes : Levels Shape} {t level : Nat} {offset : Int}
    (h : c.Runs s ⟨shapes, t, .plain⟩ base calls) (bound : s.stack.size < addressBound)
    (names : Names shapes.toList level offset)
    (next : c.point? (s.pc + 1) = some ⟨shapes, t + 1, .plain⟩) :
    c.Outcome s calls (.load level offset) (advance (.load level offset) s) := by
  obtain ⟨a, address, inside, -⟩ := h.live.store names
  have small := h.live.bases_le level
  have size := h.size
  obtain ⟨pc, stack, display, output⟩ := s
  dsimp only [Point.height] at *
  have value : stack[a]? = some _ := Array.getElem?_eq_getElem (by omega)
  rw [advance_load (by omega) bound address value]
  exact .next _ base (h.push next Iff.rfl trivial)

theorem loadFlag {shapes : Levels Shape} {mark mark' : Mark}
    (h : c.Runs s ⟨shapes, 2, mark⟩ base calls) (bound : s.stack.size < addressBound)
    (known : mark = .plain ∧ mark' = .plain ∨ mark = .passed ∧ mark' = .known 1)
    (next : c.point? (s.pc + 1) = some ⟨shapes, 3, mark'⟩) :
    c.Outcome s calls (.load shapes.depth shapes.current.slots)
      (advance (.load shapes.depth shapes.current.slots) s) := by
  have frame := h.live.base_eq
  have size := h.size
  have top := h.mark
  obtain ⟨pc, stack, display, output⟩ := s
  dsimp only [Point.height] at *
  have value : stack[base + shapes.current.slots]? = some _ :=
    Array.getElem?_eq_getElem (by omega)
  rw [advance_load (by omega) bound (by rw [frame]; rfl) value]
  refine .next _ base (h.push next ?_ ?_)
  · obtain ⟨rfl, rfl⟩ | ⟨rfl, rfl⟩ := known <;> simp
  · obtain ⟨rfl, rfl⟩ | ⟨rfl, rfl⟩ := known
    · trivial
    · have below : stack.size - 2 = base + shapes.current.slots := by omega
      simp only [Mark.Top, below, value, Option.some.injEq] at top
      simp [Mark.Top, top]

theorem store {shapes : Levels Shape} {t level : Nat} {offset : Int}
    (h : c.Runs s ⟨shapes, t + 1, .plain⟩ base calls) (bound : s.stack.size < addressBound)
    (names : Names shapes.toList level offset)
    (next : c.point? (s.pc + 1) = some ⟨shapes, t, .plain⟩) :
    c.Outcome s calls (.store level offset) (advance (.store level offset) s) := by
  obtain ⟨a, address, inside, live⟩ := h.live.store names
  have small := h.live.bases_le level
  have header := h.live.header_le
  obtain ⟨pc, stack, v, display, output, rfl, size⟩ := h.exists_push
  dsimp only [Point.height] at *
  rw [Array.size_push] at bound
  rw [advance_store (by omega) (by omega) address (by omega)]
  refine .next _ base ⟨next, ?_, by simpa [Point.height] using size, trivial⟩
  refine ((live v).congr fun b hb => ?_).move rfl rfl (Nat.le_refl _) Iff.rfl
  exact Stack.getElem?_set_push (by dsimp only at hb; omega) v v

theorem storeFlag {shapes : Levels Shape} {entry : Nat}
    (h : c.Runs s ⟨shapes, 1, .known 1⟩ base calls) (bound : s.stack.size < addressBound)
    (owner : shapes.current.owner = .block entry)
    (next : c.point? (s.pc + 1) = some ⟨shapes, 0, .leaving⟩) :
    c.Outcome s calls (.store shapes.depth (-1)) (advance (.store shapes.depth (-1)) s) := by
  have frame := h.live.base_eq
  have header := h.live.header_le
  obtain ⟨pc, stack, v, display, output, rfl, size⟩ := h.exists_push
  have one : v = 1 := by simpa [Mark.Top] using h.mark
  obtain ⟨pos, live⟩ := h.live.setFlag owner (by rw [Array.size_push]; omega) 0
  dsimp only at *
  rw [Array.size_push] at bound
  rw [advance_store (a := base - 1) (by omega) (by omega) (by omega) (by omega), one]
  refine .next _ base
    ⟨next, live.congr fun b hb => ?_, by simpa [Point.height] using size, trivial⟩
  exact Stack.getElem?_set_push (by dsimp only at hb; omega) 1 v

theorem unary {shapes : Levels Shape} {t : Nat} {i : Instr}
    (h : c.Runs s ⟨shapes, t + 1, .plain⟩ base calls) (operator : i = .neg ∨ i = .not)
    (next : c.point? (s.pc + 1) = some ⟨shapes, t + 1, .plain⟩) :
    c.Outcome s calls i (advance i s) := by
  obtain ⟨pc, stack, v, display, output, rfl, size⟩ := h.exists_push
  have replaced (w : Value) :
      c.Runs ⟨pc + 1, stack.push w, display, output⟩ ⟨shapes, t + 1, .plain⟩ base calls := by
    refine h.next next rfl rfl (Nat.le_refl _) Iff.rfl rfl (fun a ha => ?_) ?_ trivial
    · dsimp only at ha ⊢
      rw [Stack.getElem?_push_of_lt (by omega), Stack.getElem?_push_of_lt (by omega)]
    · simp only [Point.height, Array.size_push]
      omega
  obtain rfl | rfl := operator
  · rw [advance_neg]
    exact .next _ base (replaced _)
  · rw [advance_not]
    exact .next _ base (replaced _)

theorem binary {shapes : Levels Shape} {t : Nat} {op : BinaryOp}
    (h : c.Runs s ⟨shapes, t + 2, .plain⟩ base calls)
    (next : c.point? (s.pc + 1) = some ⟨shapes, t + 1, .plain⟩) :
    c.Outcome s calls (.binary op) (advance (.binary op) s) := by
  obtain ⟨pc, stack, b, display, output, rfl, size⟩ := h.exists_push
  have ne : stack.size ≠ 0 := by omega
  obtain ⟨stack, a, rfl⟩ := Array.eq_push_of_size_ne_zero ne
  rw [Array.size_push] at size
  rw [advance_binary]
  cases result : op.apply? a b with
  | none =>
    have header := h.live.header_le
    refine .division _ base (by rw [BinaryOp.eq_div_of_apply? result]) rfl
      (h.live.congr fun x hx => ?_)
    dsimp only at hx header ⊢
    rw [Stack.getElem?_push_push_of_lt (by omega)]
  | some v =>
    refine .next _ base
      (h.next next rfl rfl (Nat.le_refl _) Iff.rfl rfl (fun x hx => ?_) ?_ trivial)
    · dsimp only at hx ⊢
      rw [Stack.getElem?_push_of_lt (by omega), Stack.getElem?_push_push_of_lt (by omega)]
    · simp only [Point.height, Array.size_push]
      omega

/-- **A call** opens a frame in front of the body. -/
theorem call {shapes : Levels Shape} {outer : List Shape} {owner : Owner}
    {level entry t : Nat} {mark mark' : Mark}
    (h : c.Runs s ⟨shapes, t + owner.params, mark⟩ base calls)
    (instr : c.instr? s.pc = some (.call level entry)) (bound : s.stack.size < addressBound)
    (body : c.point? entry = some ⟨⟨.opened owner, outer⟩, 0, .plain⟩)
    (address : owner.entry? = some entry) (depth : outer.length = level + 1)
    (below : Below outer shapes.toList) (resume : c.point? (s.pc + 1) = some ⟨shapes, t + 1, mark'⟩)
    (leaving : mark' = .leaving ↔ mark = .leaving)
    (kind : ∀ v w, c.Kind ((s.stack.push v).push w) s ⟨⟨.opened owner, outer⟩, 0, .plain⟩
      ⟨shapes, t + 1, mark'⟩ owner) :
    c.Outcome s calls (.call level entry) (advance (.call level entry) s) := by
  have header := h.live.header_le
  have size := h.size
  have depth_le := h.live.depth_le
  have length : outer.length ≤ shapes.depth + 1 := below.length_le
  have range := addressBound_lt_wordCount
  simp only [Point.height] at header size depth_le
  have lower {a : Nat} (ha : a < base + shapes.current.slots) : a < s.stack.size := by omega
  obtain ⟨pc, stack, display, output⟩ := s
  have level_lt : level + 1 < wordCount := by
    simp only [addressBound, wordCount] at *
    omega
  rw [advance_call level_lt]
  have opened : c.Opened ((stack.push (.ofAddress (display.base (level + 1)))).push
      (.ofAddress (pc + 1))) ⟨pc, stack, display, output⟩ level base
      ⟨⟨.opened owner, outer⟩, 0, .plain⟩ ⟨shapes, t + 1, mark'⟩ := by
    refine ⟨⟨entry, address, instr⟩, resume, depth, below, Nat.le_add_left _ _, ?_,
      Nat.le_refl _, ?_, ?_, kind _ _⟩
    · simp only [Point.height, Shape.opened] at *
      omega
    · exact Stack.getElem?_push_push _ _ _
    · rw [Array.getElem?_push, Array.size_push, if_pos rfl]
  refine .next _ stack.size ⟨body, ?_, ?_, trivial⟩
  · rw [Display.setBase_base]
    refine .call opened ((h.live.congr fun a ha => ?_).move rfl rfl (Nat.le_refl _) leaving)
    have lt := lower (Nat.lt_of_lt_of_le ha (Nat.add_le_add_left header _))
    exact Stack.getElem?_push_push_of_lt lt _ _
  · simp [Point.height, Shape.opened, Frame.headerSize]

/-- **A return** ends the last open call. -/
theorem ret {shapes : Levels Shape} {t : Nat} {mark : Mark}
    (h : c.Runs s ⟨shapes, t + 1, mark⟩ base calls) (bound : s.stack.size < addressBound)
    (length : c.sites.length < addressBound)
    (left : mark = .leaving ∨ mark = .plain ∧ inFunction shapes = true) :
    ∃ k calls' level base' q v, calls = k :: calls' ∧
      c.Opened s.stack k level base' ⟨shapes, t + 1, mark⟩ q ∧ s.stack.back? = some v ∧
      advance (.ret shapes.depth shapes.current.owner.params) s =
        .ok () (s.leave k shapes.depth shapes.current.owner.params v) ∧
      (s.leave k shapes.depth shapes.current.owner.params v).display.base = k.display.base ∧
      c.Runs (s.leave k shapes.depth shapes.current.owner.params v) q base' calls' := by
  have live := h.live
  generalize hp : (⟨shapes, t + 1, mark⟩ : Point) = p at live
  generalize hbases : s.display.base = bases at live
  cases live with
  | program outer owner mark' =>
    subst hp
    obtain rfl | ⟨rfl, inside⟩ := left
    · exact absurd rfl mark'
    · simp only at outer owner
      simp [inFunction, Levels.toList, outer, owner, Owner.isFunction] at inside
  | @call p q base' level k calls' opened caller =>
    subst hp
    obtain ⟨pc, stack, v, display, output, rfl, size⟩ := h.exists_push
    have lower := opened.slots_le
    have slots := opened.slots
    have depth := opened.depth
    have header := caller.header_le
    simp only [Frame.headerSize, Array.size_push] at lower slots depth bound
    have frame : display.base shapes.depth = k.stack.size := h.live.base_eq
    have saved := caller.bases_le (level + 1)
    have address := Chart.le_of_point? opened.resume
    have stays {a : Nat} (ha : a < k.stack.size + 2) : (stack.push v)[a]? = stack[a]? :=
      Stack.getElem?_push_of_lt (by omega) v
    have bases : (display.setBase shapes.depth (k.display.base shapes.depth)).base =
        k.display.base := by
      rw [Display.setBase_base, depth]
      funext n
      have old := congrFun hbases n
      simp only at old
      split
      · rw [‹n = level + 1›]
      · rw [old, if_neg ‹_›]
    have fits : k.stack.size - shapes.current.owner.params ≤ stack.size := by omega
    refine ⟨k, calls', level, base', q, v, rfl, opened, by simp, ?_, bases, opened.resume, ?_, ?_,
      ?_⟩
    · have step : advance (.ret shapes.depth shapes.current.owner.params)
          ⟨pc, stack.push v, display, output⟩ = _ :=
        advance_ret frame ((stays (by omega)).symm.trans opened.savedBase)
          ((stays (by omega)).symm.trans opened.savedPc) (by omega) (by omega) (by omega)
      rw [step, State.leave, Stack.take_push fits, depth]
    · change Live c _ q base' (display.setBase _ _).base calls'
      rw [bases]
      exact caller.congr fun a ha =>
        Stack.getElem?_take_push (by rw [Array.size_push]; omega) (by omega) v
    · have size := opened.size
      refine (Stack.size_take_push (by rw [Array.size_push]; omega) v).trans ?_
      dsimp only at size ⊢
      omega
    · exact opened.mark_top left (by rw [Array.size_push]; omega) v

/-- **What one instruction does** to a running state. -/
theorem step {i : Instr} (h : c.Runs s p base calls) (fits : c.Fits s.pc p i)
    (instr : c.instr? s.pc = some i) (bound : s.stack.size < addressBound)
    (length : c.sites.length < addressBound) : c.Outcome s calls i (advance i s) := by
  cases fits with
  | lit known next =>
    refine .next _ base (h.push next ?_ ?_)
    · obtain rfl | rfl := known <;> simp
    · obtain rfl | rfl := known <;> simp [Mark.Top]
  | declare next =>
    have size := h.size
    refine .next _ base
      (h.next next rfl rfl (Nat.le_succ _) Iff.rfl rfl (fun a ha => ?_) ?_ trivial)
    · exact Stack.getElem?_push_of_lt (by simp only [Point.height] at *; omega) _
    · simp only [Point.height, Levels.modify, Shape.grow, Array.size_push] at *
      omega
  | leave next => exact .next _ base (h.push next Iff.rfl trivial)
  | pop next =>
    obtain ⟨pc, stack, v, display, output, rfl, -⟩ := h.exists_push
    rw [advance_pop]
    exact .next _ base (h.pop next (by simp))
  | load names next => exact h.load bound names next
  | loadFlag known next => exact h.loadFlag bound known next
  | store names next => exact h.store bound names next
  | storeFlag owner next => exact h.storeFlag bound owner next
  | jump next =>
    exact .next _ base (h.next next rfl rfl (Nat.le_refl _) Iff.rfl rfl (fun _ _ => rfl) h.size
      trivial)
  | @jumpIf shapes t target next jump =>
    obtain ⟨pc, stack, v, display, output, rfl, -⟩ := h.exists_push
    rw [advance_jumpIf]
    refine .next ⟨shapes, t, .plain⟩ base (h.pop ?_ (by simp))
    split
    · exact next
    · exact jump
  | @skip shapes t target jump =>
    obtain ⟨pc, stack, v, display, output, rfl, -⟩ := h.exists_push
    have one : v = 1 := by simpa [Mark.Top] using h.mark
    rw [advance_jumpIf, one, if_neg (by decide)]
    exact .next _ base (h.pop jump (by simp))
  | unary operator next => exact h.unary operator next
  | binary next => exact h.binary next
  | print next =>
    obtain ⟨pc, stack, v, display, output, rfl, -⟩ := h.exists_push
    rw [advance_print]
    cases Output.print v output with
    | ok _ output' => exact .next _ base (h.pop next (by simp))
    | error cause output' => exact .output _ base rfl rfl (h.pop next (by simp)).live
  | callFunction landmark body depth below next =>
    exact h.call instr bound body rfl depth below next Iff.rfl
      fun _ _ => .function landmark (by simp) rfl
  | @callBlock shapes target landmark body next load jumpIf ret =>
    have h : c.Runs s ⟨shapes, 1 + (Owner.block (s.pc + 4)).params, .known 0⟩ base calls := h
    refine h.call instr bound body rfl rfl (.refl _) next ?_ ?_
    · split <;> simp
    · intro v w
      have flag := h.mark
      refine .block landmark rfl rfl rfl ?_ load jumpIf ret
      simp only [Mark.Top] at flag
      have lt : s.stack.size - 1 < s.stack.size := (Array.getElem?_eq_some_iff.1 flag).1
      rw [Stack.getElem?_push_push_of_lt lt, flag]
      rfl
  | ret left =>
    obtain ⟨k, calls', level, base', q, v, rfl, -, -, step, -, runs⟩ := h.ret bound length left
    rw [step]
    exact .next _ _ runs

end Chart.Runs

end NestLang
