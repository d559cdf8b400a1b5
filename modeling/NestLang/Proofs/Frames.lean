import NestLang.Proofs.Chart
import NestLang.Proofs.Step

/-!
# Live frames

The frames on the stack of a running program, from the innermost one down to that of the program.
Every other frame was opened by a call that is still open, and its header holds what the call has
written there.

* `Chart.Opened`: what is known of a frame and the call that has opened it.
* `Live`: all frames on the stack, with the states in which the open calls were made.
* `Live.store`: **a slot that code may use lies on the stack, and storing there does not touch what
  is known of the frames.**
-/

namespace NestLang

variable {ω : Type}

/-- The address of the body that the frame is open for. -/
def Owner.entry? : Owner → Option Nat
  | .program => none
  | .function entry _ | .block entry => some entry

/-- What is known of a frame by what it is open for, where `k` is the state in which its call was
made, `p` a point in it and `q` the point behind the call. -/
inductive Chart.Kind (c : Chart) (stack : Stack) (k : State ω) (p q : Point) : Owner → Prop
  | function {entry params} (landmark : (entry, .function params) ∈ c.landmarks)
      (mark : p.mark ≠ .leaving) (resume : q.mark = .plain) :
      Kind c stack k p q (.function entry params)
  /-- The flag lies just below the frame. It is set only when the block is about to be left. -/
  | block {target} (landmark : (k.pc + 4, .block) ∈ c.landmarks) (temps : q.temps = 2)
      (outer : p.shapes.outer = q.shapes.toList)
      (resume : q.mark = if inFunction q.shapes then .plain else .passed)
      (flag : stack[k.stack.size - 1]? = some (if p.mark = .leaving then 1 else 0))
      (load : c.instr? (k.pc + 1) = some (.load q.shapes.depth q.shapes.current.slots))
      (jumpIf : c.instr? (k.pc + 2) = some (.jumpIf target))
      (ret : c.instr? (k.pc + 3) = some (.ret q.shapes.depth q.shapes.current.owner.params)) :
      Kind c stack k p q (.block (k.pc + 4))

/-- The frame around the point `p` was opened by a call made in the state `k`. The point behind the
call is `q`, in a frame with the given base. -/
structure Chart.Opened (c : Chart) (stack : Stack) (k : State ω) (level base : Nat) (p q : Point) :
    Prop where
  instr : ∃ entry, p.shapes.current.owner.entry? = some entry ∧
    c.instr? k.pc = some (.call level entry)
  resume : c.point? (k.pc + 1) = some q
  depth : p.shapes.depth = level + 1
  below : Below p.shapes.outer q.shapes.toList
  temps : 1 ≤ q.temps
  size : k.stack.size + 1 = base + q.height + p.shapes.current.owner.params
  slots : Frame.headerSize ≤ p.shapes.current.slots
  savedBase : stack[k.stack.size]? = some (.ofAddress (k.display.base (level + 1)))
  savedPc : stack[k.stack.size + 1]? = some (.ofAddress (k.pc + 1))
  kind : c.Kind stack k p q p.shapes.current.owner

/-- The frames on the stack at a point: the base of the innermost one, the base of every level, and
the states in which the open calls were made, the last one first. -/
inductive Live (c : Chart) (stack : Stack) :
    Point → Nat → (Nat → Nat) → List (State ω) → Prop
  | program {p} (outer : p.shapes.outer = []) (owner : p.shapes.current.owner = .program)
      (mark : p.mark ≠ .leaving) : Live c stack p 0 (fun _ => 0) []
  | call {p q base level k calls} (opened : c.Opened stack k level base p q)
      (caller : Live c stack q base k.display.base calls) :
      Live c stack p k.stack.size
        (fun n => if n = level + 1 then k.stack.size else k.display.base n) (k :: calls)

section Opened

variable {c : Chart} {stack stack' : Stack} {k : State ω} {level base : Nat} {p p' q : Point}

theorem Chart.Opened.slots_le (h : c.Opened stack k level base p q) :
    base + q.shapes.current.slots + p.shapes.current.owner.params ≤ k.stack.size := by
  have size := h.size
  have temps := h.temps
  unfold Point.height at size
  omega

theorem Chart.Opened.congr (h : c.Opened stack k level base p q)
    (header : ∀ a, k.stack.size ≤ a → a < k.stack.size + 2 → stack'[a]? = stack[a]?)
    (flag : ∀ entry, p.shapes.current.owner = .block entry →
      stack'[k.stack.size - 1]? = stack[k.stack.size - 1]?) :
    c.Opened stack' k level base p q where
  instr := h.instr
  resume := h.resume
  depth := h.depth
  below := h.below
  temps := h.temps
  size := h.size
  slots := h.slots
  savedBase := (header _ (Nat.le_refl _) (by omega)).trans h.savedBase
  savedPc := (header _ (by omega) (by omega)).trans h.savedPc
  kind := by
    have kind := h.kind
    generalize p.shapes.current.owner = owner at kind flag
    cases kind with
    | function landmark mark resume => exact .function landmark mark resume
    | block landmark temps outer resume flag' load jumpIf ret =>
      exact .block landmark temps outer resume ((flag _ rfl).trans flag') load jumpIf ret

theorem Chart.Opened.move (h : c.Opened stack k level base p q)
    (outer : p'.shapes.outer = p.shapes.outer)
    (owner : p'.shapes.current.owner = p.shapes.current.owner)
    (slots : p.shapes.current.slots ≤ p'.shapes.current.slots)
    (mark : p'.mark = .leaving ↔ p.mark = .leaving) : c.Opened stack k level base p' q where
  instr := owner ▸ h.instr
  resume := h.resume
  depth := (congrArg List.length outer).trans h.depth
  below := outer ▸ h.below
  temps := h.temps
  size := owner ▸ h.size
  slots := Nat.le_trans h.slots slots
  savedBase := h.savedBase
  savedPc := h.savedPc
  kind := by
    have kind := h.kind
    rw [owner]
    generalize p.shapes.current.owner = owner at kind
    cases kind with
    | function landmark mark' resume => exact .function landmark (mt mark.1 mark') resume
    | block landmark temps outer' resume flag load jumpIf ret =>
      refine .block landmark temps (outer.trans outer') resume ?_ load jumpIf ret
      simpa only [mark] using flag

end Opened

namespace Live

variable {c : Chart} {stack stack' : Stack} {p p' : Point} {base : Nat} {bases : Nat → Nat}
  {calls : List (State ω)}

theorem header_le (h : Live c stack p base bases calls) :
    p.shapes.current.owner.header ≤ p.shapes.current.slots := by
  cases h with
  | program _ owner _ =>
    rw [owner]
    exact Nat.zero_le _
  | call opened _ =>
    refine Nat.le_trans ?_ opened.slots
    cases p.shapes.current.owner with
    | program => exact Nat.zero_le _
    | function _ _ | block _ => exact Nat.le_refl _

theorem base_eq (h : Live c stack p base bases calls) : bases p.shapes.depth = base := by
  cases h with
  | program _ _ _ => rfl
  | call opened _ => simp [opened.depth]

theorem bases_le (h : Live c stack p base bases calls) (n : Nat) : bases n ≤ base := by
  induction h with
  | program _ _ _ => exact Nat.le_refl _
  | call opened _ ih =>
    have := opened.slots_le
    dsimp only
    split
    · exact Nat.le_refl _
    · omega

theorem depth_le (h : Live c stack p base bases calls) : p.shapes.depth ≤ base + 1 := by
  induction h with
  | program outer _ _ => simp [Levels.depth, outer]
  | @call p q base level k calls opened caller ih =>
    have depth : p.shapes.depth ≤ q.shapes.depth + 1 := opened.below.length_le
    have lower := opened.slots_le
    generalize k.display.base = bases at caller
    cases caller with
    | program outer _ _ =>
      have : q.shapes.depth = 0 := by simp [Levels.depth, outer]
      omega
    | call opened' _ =>
      have slots := opened'.slots
      unfold Frame.headerSize at slots
      omega

theorem congr (h : Live c stack p base bases calls)
    (agree : ∀ a < base + p.shapes.current.owner.header, stack'[a]? = stack[a]?) :
    Live c stack' p base bases calls := by
  induction h with
  | program outer owner mark => exact .program outer owner mark
  | @call p q base level k calls opened caller ih =>
    have header : p.shapes.current.owner.header = 2 := by
      have kind := opened.kind
      revert kind
      cases p.shapes.current.owner with
      | program => exact nofun
      | function _ _ | block _ => exact fun _ => rfl
    have lower := opened.slots_le
    have below := caller.header_le
    rw [header] at agree
    refine .call (opened.congr (fun a _ => agree a) fun _ _ => ?_) (ih fun a ha => agree a ?_)
    · exact agree _ (by omega)
    · omega

theorem move (h : Live c stack p base bases calls)
    (outer : p'.shapes.outer = p.shapes.outer)
    (owner : p'.shapes.current.owner = p.shapes.current.owner)
    (slots : p.shapes.current.slots ≤ p'.shapes.current.slots)
    (mark : p'.mark = .leaving ↔ p.mark = .leaving) : Live c stack p' base bases calls := by
  cases h with
  | program outer' owner' mark' =>
    exact .program (outer.trans outer') (owner.trans owner') (mt mark.1 mark')
  | call opened caller => exact .call (opened.move outer owner slots mark) caller

/-- **A slot that code may use lies on the stack**, and storing there does not touch what is known
of the frames. -/
theorem store (h : Live c stack p base bases calls) {level : Nat} {offset : Int}
    (names : Names p.shapes.toList level offset) :
    ∃ a : Nat, (bases level : Int) + offset = a ∧ a < base + p.shapes.current.slots ∧
      ∀ v, Live c (stack.setIfInBounds a v) p base bases calls := by
  induction h generalizing level offset with
  | @program p outer owner mark =>
    obtain ⟨rfl, holds⟩ | ⟨_, names⟩ := names.current_or_outer
    · simp only [Shape.Holds, owner, Owner.header, Owner.params] at holds
      refine ⟨offset.toNat, ?_, by omega, fun v => .program outer owner mark⟩
      dsimp only
      omega
    · rw [outer] at names
      cases names
  | @call p q base level' k calls opened caller ih =>
    have lower := opened.slots_le
    have header := caller.header_le
    have other {a b : Nat} (ne : a ≠ b) (v : Value) :
        (stack.setIfInBounds a v)[b]? = stack[b]? := Array.getElem?_setIfInBounds_ne ne
    obtain ⟨rfl, holds⟩ | ⟨lt, names⟩ := names.current_or_outer
    · dsimp only
      rw [if_pos opened.depth]
      obtain ⟨first, last⟩ | ⟨first, last⟩ := holds
      · -- a variable of the frame itself
        refine ⟨k.stack.size + offset.toNat, by omega, by omega, fun v => ?_⟩
        refine (Live.call opened caller).congr fun a ha => other ?_ v
        omega
      · -- an argument lies between the frame and the slots of the caller
        refine ⟨k.stack.size - (-offset).toNat, by omega, by omega, fun v => ?_⟩
        refine .call (opened.congr (fun a ha _ => other ?_ v) fun entry owner => ?_)
          (caller.congr fun a ha => other ?_ v)
        · omega
        · rw [owner] at first
          exact absurd first (Int.not_le_of_gt last)
        · omega
    · -- a slot of a frame further down, below the slots of the caller
      have ne : level ≠ level' + 1 := by rw [← opened.depth]; exact Nat.ne_of_lt lt
      obtain ⟨a, address, inside, live⟩ := ih (names.mono opened.below)
      refine ⟨a, by simpa only [ne, if_false] using address, by omega, fun v => ?_⟩
      refine .call (opened.congr (fun b hb _ => other ?_ v) fun entry owner => ?_) (live v)
      · omega
      · have kind := opened.kind
        have size := opened.size
        rw [owner] at kind size
        cases kind with
        | block _ temps _ _ _ _ _ _ =>
          refine other ?_ v
          simp only [Point.height, temps, Owner.params] at size
          omega

theorem setFlag (h : Live c stack p base bases calls) {entry : Nat}
    (owner : p.shapes.current.owner = .block entry) (fits : base ≤ stack.size) (t : Nat) :
    0 < base ∧
      Live c (stack.setIfInBounds (base - 1) 1) ⟨p.shapes, t, .leaving⟩ base bases calls := by
  cases h with
  | program _ owner' _ =>
    rw [owner] at owner'
    cases owner'
  | @call p q base level k calls opened caller =>
    have kind := opened.kind
    have size := opened.size
    have header := caller.header_le
    rw [owner] at kind size
    cases kind with
    | block landmark temps outer resume flag load jumpIf ret =>
      simp only [Point.height, temps, Owner.params] at size
      -- the flag lies just below the frame, so the header and the frames around stay as they are
      have other {a : Nat} (ne : a ≠ k.stack.size - 1) :
          (stack.setIfInBounds (k.stack.size - 1) 1)[a]? = stack[a]? :=
        Array.getElem?_setIfInBounds_ne ne.symm
      refine ⟨by omega, .call ⟨opened.instr, opened.resume, opened.depth, opened.below,
        opened.temps, opened.size, opened.slots, ?_, ?_, ?_⟩ (caller.congr fun a ha => other ?_)⟩
      · exact (other (by omega)).trans opened.savedBase
      · exact (other (by omega)).trans opened.savedPc
      · change c.Kind _ k _ q p.shapes.current.owner
        rw [owner]
        refine .block landmark temps outer resume ?_ load jumpIf ret
        rw [Array.getElem?_setIfInBounds_self_of_lt (by omega), if_pos rfl]
      · omega

end Live

end NestLang
