import NestLang.Proofs.Chart
import NestLang.Proofs.Emission

/-!
# The chart of compiled code

Every instruction of compiled code fits the chart that its layout gives, so long as every return
stands inside a function and no loop declares a variable after its passes.

* `Expr.Emits.typed`, `Part.Emits.typed`: every instruction of a part fits.
* `Part.Emits.described`: what stands at the landmarks of a part.
* `Chart.Sound`, `exists_chart`: **the chart of a compiled program.**
-/

namespace NestLang

/-! ## Every instruction fits -/

section Typed

variable {c : Chart}

open Chart

mutual

/-- **Every instruction of an expression fits.** -/
theorem Expr.Emits.typed {ctx : Ctx} {t a : Nat} {e : Expr} {sites : List Site}
    (allows : c.Allows ctx) :
    Expr.Emits ctx t e sites → c.Shows a (ctx.point (t + 1)) sites → c.Typed a sites
  | .int, h => typed_site.2 ⟨.lit (.inl rfl) h.2, trivial⟩
  | .bool, h => typed_site.2 ⟨.lit (.inl rfl) h.2, trivial⟩
  | .var resolved slot, h => typed_site.2 ⟨.load (allows.names resolved slot) h.2, trivial⟩
  | .call resolved operands, h => by
    obtain ⟨landmark, outer, body, depth, below⟩ := allows _ _ resolved
    refine typed_append.2 ⟨operands.typed allows (h.left (point?_of_site h.right.1)), ?_⟩
    exact typed_site.2 ⟨.callFunction landmark body depth below h.right.2, trivial⟩
  | @Expr.Emits.unary _ _ op _ _ operand, h => by
    cases op with
    | plus => exact typed_append.2 ⟨operand.typed allows (h.left h.right), trivial⟩
    | not =>
      refine typed_append.2 ⟨operand.typed allows (h.left (point?_of_site h.right.1)), ?_⟩
      exact typed_site.2 ⟨.unary (.inr rfl) h.right.2, trivial⟩
    | minus =>
      refine typed_append.2 ⟨operand.typed allows (h.left (point?_of_site h.right.1)), ?_⟩
      exact typed_site.2 ⟨.unary (.inl rfl) h.right.2, trivial⟩
  | .binary left right, h => by
    have operator := h.right
    have operands := h.left (point?_of_site operator.1)
    have second := operands.right
    have middle := right.point (by rwa [List.append_nil])
    refine typed_append.2 ⟨typed_append.2 ⟨left.typed allows (operands.left middle), ?_⟩, ?_⟩
    · exact right.typed allows second
    · exact typed_site.2 ⟨.binary operator.2, trivial⟩
  | .post resolved, h => by
    have names := allows.names resolved rfl
    refine typed_site.2 ⟨.load names (point?_of_site h.2.1), ?_⟩
    refine typed_site.2 ⟨.load names (point?_of_site h.2.2.1), ?_⟩
    refine typed_site.2 ⟨.lit (.inl rfl) (point?_of_site h.2.2.2.1), ?_⟩
    refine typed_site.2 ⟨.binary (point?_of_site h.2.2.2.2.1), ?_⟩
    exact typed_site.2 ⟨.store names h.2.2.2.2.2, trivial⟩

theorem Expr.EmitsAll.typed {ctx : Ctx} {t a : Nat} {es : List Expr} {sites : List Site}
    (allows : c.Allows ctx) :
    Expr.EmitsAll ctx t es sites → c.Shows a (ctx.point (t + es.length)) sites → c.Typed a sites
  | .nil, _ => trivial
  | @Expr.EmitsAll.cons _ _ _ es _ _ head tail, h => by
    rw [List.length_cons, Nat.add_comm es.length, ← Nat.add_assoc] at h
    have middle := tail.point (by rw [List.append_nil]; exact h.right) h.right.next
    exact typed_append.2 ⟨head.typed allows (h.left middle), tail.typed allows h.right⟩

end

theorem Part.Emits.inFunction_eq {ctx ctx' : Ctx} {a : Nat} {part : Part} {sites : List Site}
    (h : Part.Emits ctx a part sites ctx') : inFunction ctx'.shapes = inFunction ctx.shapes := by
  obtain ⟨-, outer, owner, -⟩ := h.outer
  simp [inFunction, Levels.toList, outer, owner]

theorem Part.Emits.header_le {ctx ctx' : Ctx} {a : Nat} {part : Part} {sites : List Site}
    (h : Part.Emits ctx a part sites ctx') (header : ctx.shapes.current.owner.header ≤ ctx.slots) :
    ctx'.shapes.current.owner.header ≤ ctx'.slots := by
  obtain ⟨-, -, owner, slots⟩ := h.outer
  rw [owner]
  exact Nat.le_trans header slots

theorem Part.Emits.shapes_eq {ctx ctx' : Ctx} {a : Nat} {s : Stmt} {sites : List Site}
    (h : Part.Emits ctx a (.stmt s) sites ctx') (late : s.isDeclare = false) :
    ctx'.shapes = ctx.shapes := by
  cases h with
  | declare _ => cases late
  | _ => rfl

theorem Expr.Emits.typed_test {ctx : Ctx} {a target : Nat} {test : Expr} {q : Point}
    {sites rest : List Site} (condition : Expr.Emits ctx 0 test sites) (allows : c.Allows ctx)
    (shows : c.Shows a q
      (sites ++ ctx.site 1 .not :: ctx.site 1 (.jumpIf target) :: rest))
    (next : c.point? (a + sites.length + 2) = some (ctx.point 0))
    (jump : c.point? target = some (ctx.point 0)) (typed : c.Typed (a + sites.length + 2) rest) :
    c.Typed a (sites ++ ctx.site 1 .not :: ctx.site 1 (.jumpIf target) :: rest) := by
  have test := shows.right
  refine typed_append.2 ⟨condition.typed allows (shows.left (point?_of_site test.1)), ?_⟩
  refine typed_site.2 ⟨.unary (.inr rfl) (point?_of_site test.2.1), ?_⟩
  exact typed_site.2 ⟨.jumpIf next jump, typed⟩

theorem Part.Emits.typed_block {ctx inner : Ctx} {a : Nat} {content : Part} {sites : List Site}
    (body : Part.Emits (ctx.enterBlock (a + 5)) (a + 5) content sites inner)
    (shows : c.Shows a (ctx.point 0) (ctx.openSites a sites.length ++
      (sites ++ (inner.closeSites ++ [ctx.site 2 .pop, ctx.site 1 .pop]))))
    (landmark : (a + 5, .block) ∈ c.landmarks)
    (typed : c.Shows (a + 5) (inner.point 0) sites → c.Typed (a + 5) sites) :
    c.Typed a (ctx.openSites a sites.length ++
      (sites ++ (inner.closeSites ++ [ctx.site 2 .pop, ctx.site 1 .pop]))) := by
  obtain ⟨-, outer, owner, -⟩ := body.outer
  obtain ⟨_, call, load, jumpIf, ret, inside⟩ := shows
  have inside : c.Shows (a + 5) (ctx.point 0)
    (sites ++ (inner.closeSites ++ [ctx.site 2 .pop, ctx.site 1 .pop])) := inside
  obtain ⟨one, store, zero, exit, pop, pop', behind⟩ := inside.right
  have point := point?_of_site one
  have target := point?_of_site pop
  refine typed_append.2 ⟨?_, typed_append.2 ⟨typed (inside.left point), ?_⟩⟩
  · refine typed_site.2 ⟨.lit (.inr rfl) (point?_of_site call), ?_⟩
    refine typed_marked.2 ⟨.callBlock landmark (body.point inside point) (point?_of_site load)
      (instr?_of_site load) (instr?_of_site jumpIf) (instr?_of_site ret), ?_⟩
    cases h : inFunction ctx.shapes with
    | true =>
      simp only [h, if_true] at load jumpIf ret ⊢
      refine typed_marked.2 ⟨.loadFlag (.inl ⟨rfl, rfl⟩) (point?_of_site jumpIf), ?_⟩
      refine typed_marked.2 ⟨.jumpIf (point?_of_site ret) target, ?_⟩
      exact typed_site.2 ⟨.ret (.inr ⟨rfl, h⟩), trivial⟩
    | false =>
      -- no return can leave the block, so the jump is always taken
      simp only [h, Bool.false_eq_true, if_false] at load jumpIf ⊢
      refine typed_marked.2 ⟨.loadFlag (.inr ⟨rfl, rfl⟩) (point?_of_site jumpIf), ?_⟩
      refine typed_marked.2 ⟨.skip target, ?_⟩
      exact ⟨nofun, trivial⟩
  · refine typed_site.2 ⟨.lit (.inr rfl) (point?_of_site store), ?_⟩
    refine typed_marked.2 ⟨.storeFlag owner (point?_of_site zero), ?_⟩
    refine typed_marked.2 ⟨.leave (point?_of_site exit), ?_⟩
    have params : inner.shapes.current.owner.params = 0 := by rw [owner]; rfl
    refine typed_marked.2 ⟨?_, ?_⟩
    · rw [← params]
      exact .ret (.inl rfl)
    · refine typed_site.2 ⟨.pop (point?_of_site pop'), ?_⟩
      exact typed_site.2 ⟨.pop behind, trivial⟩

/-- **Every instruction of a part fits**, and the names declared by it can be used behind it. -/
theorem Part.Emits.typed {ctx ctx' : Ctx} {a : Nat} {part : Part} {sites : List Site}
    (h : Part.Emits ctx a part sites ctx') (r : Surrounding) (allows : c.Allows ctx)
    (header : ctx.shapes.current.owner.header ≤ ctx.slots)
    (shows : c.Shows a (ctx'.point 0) sites)
    (returns : part.returnsInside (inFunction ctx.shapes) = true)
    (late : part.noLateDeclare = true)
    (landmarks : ∀ x ∈ part.landmarks r a, x ∈ c.landmarks) :
    c.Typed a sites ∧ c.Allows ctx' := by
  induction h generalizing r with
  | nil => exact ⟨trivial, allows⟩
  | @cons ctx a s rest sites₁ ctx₁ sites₂ ctx₂ head tail ih₁ ih₂ =>
    simp only [Part.returnsInside, Stmt.returnsInsideAll, Part.noLateDeclare,
      Stmt.noLateDeclareAll, Bool.and_eq_true] at returns late
    have length : sites₁.length = s.codeLength := head.length_eq
    have middle := tail.point (by rw [List.append_nil]; exact shows.right) shows.right.next
    obtain ⟨typed₁, allows₁⟩ := ih₁ r allows header (shows.left middle) returns.1 late.1
      fun x hx => landmarks x (List.mem_append_left _ hx)
    obtain ⟨typed₂, allows₂⟩ := ih₂ r allows₁ (head.header_le header) shows.right
      (head.inFunction_eq ▸ returns.2) late.2
      fun x hx => landmarks x (List.mem_append_right _ (length ▸ hx))
    exact ⟨typed_append.2 ⟨typed₁, typed₂⟩, allows₂⟩
  | @declare ctx a name e sites value =>
    have allows' := allows.declareVar name header
    have resolved : (ctx.declareVar name).scopes.resolve? name =
        some (.var ctx.level ctx.slots) := by
      simp [Ctx.declareVar, Scopes.resolve?_declare]
    have store := shows.2.right
    refine ⟨typed_site.2 ⟨.declare (value.point shows.2), typed_append.2 ⟨?_, ?_⟩⟩, allows'⟩
    · exact value.typed allows' (shows.2.left (point?_of_site store.1))
    · exact typed_site.2 ⟨.store (allows'.names resolved rfl) store.2, trivial⟩
  | assign resolved slot value =>
    have store := shows.right
    refine ⟨typed_append.2 ⟨?_, ?_⟩, allows⟩
    · exact value.typed allows (shows.left (point?_of_site store.1))
    · exact typed_site.2 ⟨.store (allows.names resolved slot) store.2, trivial⟩
  | @function ctx a name names body sites inner content ih =>
    obtain ⟨-, outer, owner, -⟩ := content.outer
    obtain ⟨zero, exit, behind⟩ := shows.2.right
    have body := content.point shows.2 (point?_of_site zero)
    have allows' : c.Allows (ctx.declareFunc name (a + 1) names.length) :=
      allows.declare ⟨landmarks _ List.mem_cons_self, _, body, rfl, .refl _⟩
    have inside := ih ⟨0, a + 1, names.length⟩ (allows'.enterFunc _ _) (Nat.le_refl _)
      (shows.2.left (point?_of_site zero)) returns late
      fun x hx => landmarks x (List.mem_cons_of_mem _ hx)
    refine ⟨typed_site.2 ⟨.jump behind, typed_append.2 ⟨inside.1, ?_⟩⟩, allows'⟩
    refine typed_site.2 ⟨.lit (.inl rfl) (point?_of_site exit), ?_⟩
    have depth : inner.shapes.depth = ctx.level + 1 := content.level
    have params : inner.shapes.current.owner.params = names.length := by rw [owner]; rfl
    refine typed_site.2 ⟨?_, trivial⟩
    rw [← depth, ← params]
    exact .ret (.inr ⟨rfl, by rw [content.inFunction_eq]; rfl⟩)
  | ret =>
    refine ⟨typed_site.2 ⟨.lit (.inl rfl) (point?_of_site shows.2.1), ?_⟩, allows⟩
    exact typed_site.2 ⟨.ret (.inr ⟨rfl, returns⟩), trivial⟩
  | retValue value =>
    refine ⟨typed_append.2 ⟨?_, ?_⟩, allows⟩
    · exact value.typed allows (shows.left (point?_of_site shows.right.1))
    · exact typed_site.2 ⟨.ret (.inr ⟨rfl, returns⟩), trivial⟩
  | @cond ctx a test body alternative sites₁ sites₂ sites₃ condition branch other ih₁ ih₂ =>
    simp only [Part.returnsInside, Stmt.returnsInside, Part.noLateDeclare,
      Stmt.noLateDeclare, Bool.and_eq_true] at returns late
    have length₁ : sites₁.length = test.codeLength := condition.length_eq
    have length₂ : sites₂.length = blockLength (Stmt.codeLengthAll body) := branch.length_eq
    have behind := shows.right.2.2
    have alternate := behind.right.2
    have target := other.point (by rw [List.append_nil]; exact alternate) alternate.next
    have jump := point?_of_site behind.right.1
    obtain ⟨typed₁, -⟩ := ih₁ r allows header (behind.left jump) returns.1 late.1
      fun x hx => landmarks x (List.mem_append_left _ (length₁ ▸ hx))
    obtain ⟨typed₂, -⟩ := ih₂ r allows header alternate returns.2 late.2
      fun x hx => landmarks x (List.mem_append_right _ (length₁ ▸ length₂ ▸ hx))
    refine ⟨condition.typed_test allows shows (branch.point behind jump) target ?_, allows⟩
    exact typed_append.2 ⟨typed₁, typed_site.2 ⟨.jump alternate.next, typed₂⟩⟩
  | loop frame ih => exact ih r allows header shows returns late landmarks
  | blockStmt content ih => exact ih r allows header shows returns late landmarks
  | expr value =>
    have pop := shows.right
    refine ⟨typed_append.2 ⟨?_, ?_⟩, allows⟩
    · exact value.typed allows (shows.left (point?_of_site pop.1))
    · exact typed_site.2 ⟨.pop pop.2, trivial⟩
  | empty => exact ⟨trivial, allows⟩
  | noElse => exact ⟨trivial, allows⟩
  | elseBlock content ih => exact ih r allows header shows returns late landmarks
  | elseCond content ih => exact ih r allows header shows returns late landmarks
  | @passes ctx a first test after body sites₁ ctx₁ sites₂ sites₃ sites₄ ctx₂ head condition pass
      update ih₁ ih₂ ih₃ =>
    simp only [Part.returnsInside, Part.noLateDeclare, Bool.and_eq_true,
      Bool.not_eq_true'] at returns late
    have length₁ : sites₁.length = first.codeLength := head.length_eq
    have length₂ : sites₂.length = test.codeLength := condition.length_eq
    have length₃ : sites₃.length = blockLength (Stmt.codeLengthAll body) := pass.length_eq
    have shapes : ctx₂.shapes = ctx₁.shapes := update.shapes_eq late.1.2
    have point : ctx₂.point 0 = ctx₁.point 0 := by rw [Ctx.point, shapes]; rfl
    have loop := shows.right
    have start := condition.point loop
    have behind := loop.right.2.2
    have back := behind.right.right
    have middle := update.point behind.right (point?_of_site back.1)
    obtain ⟨typed₁, allows₁⟩ := ih₁ r allows header (shows.left start) returns.1.1 late.1.1.1
      fun x hx => landmarks x (List.mem_append_left _ hx)
    have header₁ := head.header_le header
    rw [← head.inFunction_eq] at returns
    obtain ⟨typed₂, -⟩ := ih₂ r allows₁ header₁ (behind.left middle) returns.2 late.2
      fun x hx => landmarks x (List.mem_append_right _ (List.mem_append_left _
        (length₁ ▸ length₂ ▸ hx)))
    obtain ⟨typed₃, allows₂⟩ := ih₃ r allows₁ header₁ (behind.right.left (point?_of_site back.1))
      returns.1.2 late.1.1.2
      fun x hx => landmarks x (List.mem_append_right _ (List.mem_append_right _
        (length₁ ▸ length₂ ▸ length₃ ▸ hx)))
    refine ⟨typed_append.2 ⟨typed₁, ?_⟩, allows₂⟩
    refine condition.typed_test allows₁ loop (pass.point behind middle) (point ▸ back.2) ?_
    refine typed_append.2 ⟨typed₂, typed_append.2 ⟨typed₃, ?_⟩⟩
    exact typed_site.2 ⟨.jump (start.trans (congrArg some point.symm)), trivial⟩
  | @block ctx a content sites inner body ih =>
    refine ⟨body.typed_block shows (landmarks _ List.mem_cons_self) fun shows' => ?_, allows⟩
    refine (ih r.enterBlock (allows.enterBlock _) (Nat.le_refl _) shows' returns late
      fun x hx => ?_).1
    exact landmarks x (List.mem_cons_of_mem _ (List.mem_append_left _ hx))

end Typed

/-! ## What stands at the landmarks -/

/-- The innermost frames belong to so many blocks, and the next one to the function at `entry`. -/
inductive Inside (entry params : Nat) : List Shape → Nat → Prop
  | function {s outer} (owner : s.owner = .function entry params) :
      Inside entry params (s :: outer) 0
  | block {s outer blocks entry'} (owner : s.owner = .block entry')
      (inside : Inside entry params outer blocks) :
      Inside entry params (s :: outer) (blocks + 1)

namespace Chart

/-- The sites stand at an address of the chart. -/
def Sits (c : Chart) (a : Nat) : List Site → Prop
  | [] => True
  | s :: rest => c.sites[a]? = some s ∧ c.Sits (a + 1) rest

/-- What stands at a landmark. In front of a body of a block, with the other instruction in between,
stands the jump that is taken when the block has been left at its end. -/
def Describes (c : Chart) (a : Nat) : Landmark → Prop
  | .function _ | .block => True
  | .ret blocks entry params => ∃ shapes : Levels Shape,
    c.sites[a]? = some ⟨.ret shapes.depth shapes.current.owner.params,
      some ⟨shapes, 1, .plain⟩⟩ ∧ Inside entry params shapes.toList blocks
  | .exit entry => ∃ shapes : Levels Shape,
    c.sites[a]? = some ⟨.ret shapes.depth 0, some ⟨shapes, 1, .leaving⟩⟩ ∧
      shapes.current.owner = .block entry ∧ c.instr? (entry - 2) = some (.jumpIf (a + 1)) ∧
      c.instr? (a + 1) = some .pop ∧ c.instr? (a + 2) = some .pop

variable {c : Chart} {a : Nat} {q : Point} {l r : List Site}

theorem sits_append : c.Sits a (l ++ r) ↔ c.Sits a l ∧ c.Sits (a + l.length) r := by
  induction l generalizing a with
  | nil => simp [Sits]
  | cons s l ih =>
    have len : a + (l.length + 1) = a + 1 + l.length := by omega
    simp [Sits, ih, len, and_assoc]

theorem Shows.sits (h : c.Shows a q l) : c.Sits a l := by
  induction l generalizing a with
  | nil => trivial
  | cons s l ih => exact ⟨h.1, ih h.2⟩

end Chart

theorem Inside.congr {entry params blocks : Nat} {shapes shapes' : Levels Shape}
    (h : Inside entry params shapes.toList blocks) (outer : shapes'.outer = shapes.outer)
    (owner : shapes'.current.owner = shapes.current.owner) :
    Inside entry params shapes'.toList blocks := by
  unfold Levels.toList at *
  rw [outer]
  cases h with
  | function owner' => exact .function (owner.trans owner')
  | block owner' inside => exact .block (owner.trans owner') inside

open Chart in
/-- **What stands at the landmarks of a part.** -/
theorem Part.Emits.described {c : Chart} {ctx ctx' : Ctx} {a : Nat} {part : Part}
    {sites : List Site} (h : Part.Emits ctx a part sites ctx') (r : Surrounding)
    (sits : c.Sits a sites) (returns : part.returnsInside (inFunction ctx.shapes) = true)
    (inside : inFunction ctx.shapes = true →
      Inside r.entry r.params ctx.shapes.toList r.blocks) :
    ∀ x ∈ part.landmarks r a, c.Describes x.1 x.2 := by
  induction h generalizing r with
  | nil => exact fun _ hx => absurd hx List.not_mem_nil
  | empty => exact fun _ hx => absurd hx List.not_mem_nil
  | noElse => exact fun _ hx => absurd hx List.not_mem_nil
  | declare _ => exact fun _ hx => absurd hx List.not_mem_nil
  | assign _ _ _ => exact fun _ hx => absurd hx List.not_mem_nil
  | expr _ => exact fun _ hx => absurd hx List.not_mem_nil
  | loop frame ih => exact ih r sits returns inside
  | blockStmt content ih => exact ih r sits returns inside
  | elseBlock content ih => exact ih r sits returns inside
  | elseCond content ih => exact ih r sits returns inside
  | @cons ctx a s rest sites₁ ctx₁ sites₂ ctx₂ head tail ih₁ ih₂ =>
    intro x hx
    obtain ⟨-, outer, owner, -⟩ := head.outer
    have length : sites₁.length = s.codeLength := head.length_eq
    simp only [Part.returnsInside, Stmt.returnsInsideAll, Bool.and_eq_true] at returns
    obtain ⟨sits₁, sits₂⟩ := sits_append.1 sits
    rcases List.mem_append.1 hx with hx | hx
    · exact ih₁ r sits₁ returns.1 inside x hx
    · rw [← head.inFunction_eq] at returns inside
      exact ih₂ r sits₂ returns.2 (fun h => (inside h).congr outer owner) x (length ▸ hx)
  | @function ctx a name names body sites inner content ih =>
    intro x hx
    obtain ⟨_, sits⟩ := sits
    rcases List.mem_cons.1 hx with rfl | hx
    · trivial
    · exact ih ⟨0, a + 1, names.length⟩ (sits_append.1 sits).1 returns
        (fun _ => .function rfl) x hx
  | ret =>
    intro x hx
    obtain rfl := List.mem_singleton.1 hx
    exact ⟨_, sits.2.1, inside returns⟩
  | retValue value =>
    intro x hx
    obtain rfl := List.mem_singleton.1 hx
    have ret := (sits_append.1 sits).2.1
    rw [value.length_eq] at ret
    exact ⟨_, ret, inside returns⟩
  | @cond ctx a test body alternative sites₁ sites₂ sites₃ condition branch other ih₁ ih₂ =>
    intro x hx
    have length₁ : sites₁.length = test.codeLength := condition.length_eq
    have length₂ : sites₂.length = blockLength (Stmt.codeLengthAll body) := branch.length_eq
    simp only [Part.returnsInside, Stmt.returnsInside, Bool.and_eq_true] at returns
    obtain ⟨-, -, -, sits⟩ := sits_append.1 sits
    obtain ⟨sits₂, -, sits₃⟩ := sits_append.1 sits
    rcases List.mem_append.1 hx with hx | hx
    · exact ih₁ r sits₂ returns.1 inside x (length₁ ▸ hx)
    · exact ih₂ r sits₃ returns.2 inside x (length₁ ▸ length₂ ▸ hx)
  | @passes ctx a first test after body sites₁ ctx₁ sites₂ sites₃ sites₄ ctx₂ head condition pass
      update ih₁ ih₂ ih₃ =>
    intro x hx
    obtain ⟨-, outer, owner, -⟩ := head.outer
    have length₁ : sites₁.length = first.codeLength := head.length_eq
    have length₂ : sites₂.length = test.codeLength := condition.length_eq
    have length₃ : sites₃.length = blockLength (Stmt.codeLengthAll body) := pass.length_eq
    simp only [Part.returnsInside, Bool.and_eq_true] at returns
    obtain ⟨sits₁, sits⟩ := sits_append.1 sits
    obtain ⟨-, -, -, sits⟩ := sits_append.1 sits
    obtain ⟨sits₃, sits⟩ := sits_append.1 sits
    rcases List.mem_append.1 hx with hx | hx
    · exact ih₁ r sits₁ returns.1.1 inside x hx
    rw [← head.inFunction_eq] at returns inside
    have inside₁ := fun h => (inside h).congr outer owner
    rcases List.mem_append.1 hx with hx | hx
    · exact ih₂ r sits₃ returns.2 inside₁ x (length₁ ▸ length₂ ▸ hx)
    · exact ih₃ r (sits_append.1 sits).1 returns.1.2 inside₁ x (length₁ ▸ length₂ ▸ length₃ ▸ hx)
  | @block ctx a content sites inner body ih =>
    intro x hx
    obtain ⟨-, -, -, jumpIf, -, sits⟩ := sits
    obtain ⟨-, outer, owner, -⟩ := body.outer
    have sits : c.Sits (a + 5)
      (sites ++ (inner.closeSites ++ [ctx.site 2 .pop, ctx.site 1 .pop])) := sits
    obtain ⟨sits₁, -, -, -, exit, pop, pop', -⟩ := sits_append.1 sits
    rcases List.mem_cons.1 hx with rfl | hx
    · trivial
    rcases List.mem_append.1 hx with hx | hx
    · exact ih r.enterBlock sits₁ returns (fun h => .block rfl (inside h)) x hx
    · obtain rfl := List.mem_singleton.1 hx
      rw [← body.length_eq]
      exact ⟨_, exit, owner, instr?_of_site jumpIf, instr?_of_site pop, instr?_of_site pop'⟩

/-! ## Compiled programs -/

/-- A chart of a compiled program: all its instructions fit, and its landmarks are those of the
program. -/
structure Chart.Sound (c : Chart) (program : Program) (code : Code) : Prop where
  length : c.sites.length = code.size
  instrs : ∀ a, c.instr? a = code[a]?
  landmarks : c.landmarks = program.landmarks
  start : c.point? 0 = some (Ctx.initial.point 0)
  last : c.last.shapes.outer = [] ∧ c.last.temps = 0
  fits : ∀ {a p i}, c.point? a = some p → c.instr? a = some i → c.Fits a p i
  described : ∀ x ∈ program.landmarks, c.Describes x.1 x.2

namespace Chart

variable {c : Chart} {a : Nat}

theorem Shows.of_sites {q : Point} {l : List Site} (sites : ∀ k < l.length, c.sites[a + k]? = l[k]?)
    (last : c.point? (a + l.length) = some q) : c.Shows a q l := by
  induction l generalizing a with
  | nil => exact last
  | cons s l ih =>
    have shift (k : Nat) : a + 1 + k = a + (k + 1) := by omega
    refine ⟨sites 0 (Nat.succ_pos _), ih (fun k hk => ?_) ?_⟩
    · rw [shift]
      exact sites (k + 1) (Nat.succ_lt_succ hk)
    · rw [shift]
      exact last

theorem shows_sites (c : Chart) : c.Shows 0 c.last c.sites :=
  .of_sites (fun k _ => by rw [Nat.zero_add]) (by simp [point?])

theorem Typed.getElem? {l : List Site} (h : c.Typed a l) {k : Nat} {s : Site} {p : Point}
    (site : l[k]? = some s) (point : s.point? = some p) : c.Fits (a + k) p s.instr := by
  induction l generalizing a k with
  | nil => cases site
  | cons s' l ih =>
    cases k with
    | zero =>
      cases site
      exact h.1 p point
    | succ k =>
      have := ih h.2 site
      rwa [Nat.add_assoc, Nat.add_comm 1] at this

theorem Typed.fits (h : c.Typed 0 c.sites) {p : Point} {i : Instr} (point : c.point? a = some p)
    (instr : c.instr? a = some i) : c.Fits a p i := by
  obtain ⟨s, site, rfl⟩ := Option.map_eq_some_iff.1 instr
  have lt : a < c.sites.length := (List.getElem?_eq_some_iff.1 site).1
  simp only [point?, Nat.ne_of_lt lt, if_false, site, Option.bind_some] at point
  have := h.getElem? site point
  rwa [Nat.zero_add] at this

theorem typed_printSites (shows : c.Shows 0 (Ctx.initial.point 0) printSites) :
    c.Typed 0 printSites := by
  obtain ⟨_, load, print, zero, ret, behind⟩ := shows
  have argument : Names Ctx.print.shapes.toList 1 (-1) :=
    .here (.inr ⟨by decide, by decide⟩)
  refine typed_site.2 ⟨.jump behind, ?_⟩
  refine typed_site.2 ⟨.load argument (point?_of_site print), ?_⟩
  refine typed_site.2 ⟨.print (point?_of_site zero), ?_⟩
  refine typed_site.2 ⟨.lit (.inl rfl) (point?_of_site ret), ?_⟩
  exact typed_site.2 ⟨.ret (.inr ⟨rfl, rfl⟩), trivial⟩

theorem resolve?_initial {name : String} {decl : Decl}
    (resolved : Ctx.initial.scopes.resolve? name = some decl) : decl = .func 0 1 1 := by
  by_cases h : name = "print"
  · subst h
    exact (Option.some.inj resolved).symm
  · have hb : (name == "print") = false := beq_false_of_ne h
    simp [Ctx.initial, Scopes.resolve?, Levels.root, Levels.toList, List.lookup_cons, hb]
      at resolved

theorem allows_initial (landmark : (1, .function 1) ∈ c.landmarks)
    (shows : c.Shows 0 (Ctx.initial.point 0) printSites) : c.Allows .initial := by
  intro name decl resolved
  obtain rfl := resolve?_initial resolved
  exact ⟨landmark, _, point?_of_site shows.2.1, rfl, .refl _⟩

end Chart

/-- **The layout of a program gives a chart** of its code. -/
theorem Part.Emits.exists_chart {program : Program} {code : Code} {sites : List Site} {ctx : Ctx}
    (emits : Part.Emits .initial 5 (.stmts program) sites ctx)
    (hcode : code.toList = Site.code (printSites ++ sites)) (returns : program.ReturnsInside)
    (late : program.NoLateDeclare) :
    ∃ c : Chart, c.Sound program code ∧ c.Shows 5 (ctx.point 0) sites ∧
      code.size = 5 + sites.length := by
  let c : Chart := ⟨printSites ++ sites, ctx.point 0, program.landmarks⟩
  have shows : c.Shows 0 (ctx.point 0) (printSites ++ sites) := c.shows_sites
  have middle : c.point? 5 = some (Ctx.initial.point 0) :=
    emits.point (by rw [List.append_nil]; exact shows.right) shows.right.next
  have prints := shows.left middle
  have typed := emits.typed ⟨0, 0, 0⟩ (Chart.allows_initial List.mem_cons_self prints)
    (Nat.le_refl _) shows.right returns late fun x hx => List.mem_cons_of_mem _ hx
  have all : c.Typed 0 c.sites := Chart.typed_append.2 ⟨Chart.typed_printSites prints, typed.1⟩
  have size : code.size = (printSites ++ sites).length := by
    rw [← Array.length_toList, hcode, Site.code, List.length_map]
  refine ⟨c, ?_, shows.right, size.trans List.length_append⟩
  refine ⟨size.symm, fun a => ?_, rfl, Chart.point?_of_site prints.1,
    ⟨emits.outer.2.1, rfl⟩, all.fits, ?_⟩
  · rw [← Array.getElem?_toList, hcode, Site.code, List.getElem?_map]
    rfl
  · intro x hx
    rcases List.mem_cons.1 hx with rfl | hx
    · trivial
    · exact emits.described ⟨0, 0, 0⟩ shows.right.sits returns (fun h => by cases h) x hx

theorem exists_chart_shows {program : Program} {code : Code} (compiled : compile program = .ok code)
    (returns : program.ReturnsInside) (late : program.NoLateDeclare) :
    ∃ (c : Chart) (sites : List Site) (ctx : Ctx), c.Sound program code ∧
      Part.Emits .initial 5 (.stmts program) sites ctx ∧ c.Shows 5 (ctx.point 0) sites ∧
      code.size = 5 + sites.length := by
  obtain ⟨sites, ctx, emits, hcode⟩ := emits_of_compile compiled
  obtain ⟨c, sound, shows, size⟩ := emits.exists_chart hcode returns late
  exact ⟨c, sites, ctx, sound, emits, shows, size⟩

/-- **A compiled program has a chart.** -/
theorem exists_chart {program : Program} {code : Code} (compiled : compile program = .ok code)
    (returns : program.ReturnsInside) (late : program.NoLateDeclare) :
    ∃ c : Chart, c.Sound program code := by
  obtain ⟨c, _, _, sound, -⟩ := exists_chart_shows compiled returns late
  exact ⟨c, sound⟩

end NestLang
