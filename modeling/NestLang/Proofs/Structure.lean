import NestLang.Proofs.Bodies
import NestLang.Proofs.Effects
import NestLang.Proofs.Safety

/-!
# The structure of compiled code

Jumps stay in the body they stand in, calls lead to bodies, and the levels that instructions name
are those of the bodies around them. This holds of every program that is compiled.

* `Placed`: an instruction stands where it may stand among the bodies.
* `Around`: the bodies around a stretch of code.
* `Expr.Emits.placed`, `Part.Emits.placed`: every instruction is placed.
* `Part.Emits.framed`: what stands at both ends of a body.
* `compiled_code_structured`: **bodies are nested, and jumps, calls and levels respect them.**
-/

namespace NestLang

/-! ## Instructions among bodies -/

/-- A body starts at the address, with so many bodies around it. -/
def Enters (bodies : List Body) (level entry : Nat) : Prop :=
  ∃ b ∈ bodies, b.entry = entry ∧ (enclosing bodies entry).getLast? = some b ∧
    (enclosing bodies entry).length = level + 1

/-- The instruction at the address is in order: the levels it names are those of bodies around it,
jumps lead into the same bodies, calls lead to bodies, and so does what follows it, if execution can
go on there. -/
def Placed (bodies : List Body) (size a : Nat) : Instr → Prop
  | .jump target =>
    0 < target ∧ target ≤ size ∧ enclosing bodies target = enclosing bodies a
  | .jumpIf target =>
    (0 < target ∧ target ≤ size ∧ enclosing bodies target = enclosing bodies a) ∧
      enclosing bodies (a + 1) = enclosing bodies a
  | .ret level _ => level = (enclosing bodies a).length
  | .call level target =>
    (level ≤ (enclosing bodies a).length ∧ Enters bodies level target) ∧
      enclosing bodies (a + 1) = enclosing bodies a
  | .load level _ | .store level _ =>
    level ≤ (enclosing bodies a).length ∧ enclosing bodies (a + 1) = enclosing bodies a
  | .lit _ | .pop | .neg | .not | .binary _ | .print =>
    enclosing bodies (a + 1) = enclosing bodies a

theorem Placed.next {bodies : List Body} {size a : Nat} {i : Instr} (h : Placed bodies size a i)
    (jump : ∀ target, i ≠ .jump target) (ret : ∀ level params, i ≠ .ret level params) :
    enclosing bodies (a + 1) = enclosing bodies a := by
  cases i with
  | jump target => exact absurd rfl (jump target)
  | ret level params => exact absurd rfl (ret level params)
  | jumpIf _ | call _ _ | load _ _ | store _ _ => exact h.2
  | lit _ | pop | neg | not | binary _ | print => exact h

/-- All instructions are as `P` tells, given their addresses. -/
def Each (P : Nat → Instr → Prop) (a : Nat) : List Site → Prop
  | [] => True
  | s :: rest => P a s.instr ∧ Each P (a + 1) rest

section Each

variable {P : Nat → Instr → Prop} {a : Nat} {l r : List Site}

theorem each_append : Each P a (l ++ r) ↔ Each P a l ∧ Each P (a + l.length) r := by
  induction l generalizing a with
  | nil => simp [Each]
  | cons s l ih =>
    have len : a + (l.length + 1) = a + 1 + l.length := by omega
    simp [Each, ih, len, and_assoc]

theorem Each.getElem? (h : Each P a l) {k : Nat} {s : Site} (site : l[k]? = some s) :
    P (a + k) s.instr := by
  induction l generalizing a k with
  | nil => cases site
  | cons s' l ih =>
    cases k with
    | zero =>
      cases site
      exact h.1
    | succ k =>
      have := ih h.2 site
      rwa [Nat.add_assoc, Nat.add_comm 1] at this

end Each

/-! ## Stretches of code -/

/-- From one address to the other, the bodies around are `outer` and what encloses the address among
`inner`. -/
def Around (bodies outer : List Body) (a b : Nat) (inner : List Body) : Prop :=
  ∀ x, a ≤ x → x ≤ b → enclosing bodies x = outer ++ enclosing inner x

namespace Around

variable {bodies outer inner l₁ l₂ : List Body} {a b c d : Nat}

theorem mono (h : Around bodies outer a b inner) (first : a ≤ c) (last : d ≤ b) :
    Around bodies outer c d inner :=
  fun x hc hd => h x (Nat.le_trans first hc) (Nat.le_trans hd last)

theorem left (h : Around bodies outer a b (l₁ ++ l₂)) (later : Nested c d l₂) (last : c ≤ b) :
    Around bodies outer a c l₁ := by
  intro x ha hc
  rw [h x ha (Nat.le_trans hc last), enclosing, List.filter_append]
  change outer ++ (enclosing l₁ x ++ enclosing l₂ x) = _
  rw [later.enclosing_of_le hc, List.append_nil]

theorem right (h : Around bodies outer a b (l₁ ++ l₂)) (earlier : Nested c d l₁) (first : a ≤ d) :
    Around bodies outer d b l₂ := by
  intro x hd hb
  rw [h x (Nat.le_trans first hd) hb, enclosing, List.filter_append]
  change outer ++ (enclosing l₁ x ++ enclosing l₂ x) = _
  rw [earlier.enclosing_of_ge hd, List.nil_append]

theorem before (h : Around bodies outer a b inner) (nested : Nested c d inner) (last : c ≤ b) :
    Around bodies outer a c [] := by
  have h : Around bodies outer a b ([] ++ inner) := h
  exact h.left nested last

theorem behind (h : Around bodies outer a b inner) (nested : Nested c d inner) (first : a ≤ d) :
    Around bodies outer d b [] :=
  right (by rwa [List.append_nil]) nested first

theorem body {body : Body} (h : Around bodies outer a b (body :: inner)) (first : a ≤ body.entry)
    (last : c < body.stop) (le : c ≤ b) :
    Around bodies (outer ++ [body]) body.entry c inner := by
  intro x hx hc
  have inside : body.contains x = true := by
    simp only [Body.contains, Bool.and_eq_true, decide_eq_true_eq]
    omega
  rw [h x (Nat.le_trans first hx) (Nat.le_trans hc le)]
  simp only [enclosing, List.filter_cons, inside, if_true, List.append_assoc, List.cons_append,
    List.nil_append]

theorem enters {body : Body} (h : Around bodies outer a b (body :: inner))
    (first : a ≤ body.entry) (last : body.entry ≤ b) (nonempty : body.entry < body.stop)
    (nested : Nested body.entry c inner) :
    Enters bodies outer.length body.entry := by
  have around := h.body first nonempty last body.entry (Nat.le_refl _) (Nat.le_refl _)
  rw [nested.enclosing_of_le (Nat.le_refl _), List.append_nil] at around
  have mem : body ∈ enclosing bodies body.entry := by
    rw [around]
    exact List.mem_append_right _ List.mem_cons_self
  refine ⟨body, (List.mem_filter.1 mem).1, rfl, ?_, ?_⟩
  · rw [around, List.getLast?_concat]
  · rw [around, List.length_append]
    rfl

end Around

section Flat

variable {bodies outer : List Body} {a b x : Nat}

theorem Around.enclosing_eq (h : Around bodies outer a b []) (first : a ≤ x) (last : x ≤ b) :
    enclosing bodies x = outer := by
  rw [h x first last]
  exact List.append_nil _

theorem Around.same (h : Around bodies outer a b []) {y : Nat} (hx : a ≤ x ∧ x ≤ b)
    (hy : a ≤ y ∧ y ≤ b) : enclosing bodies x = enclosing bodies y :=
  (h.enclosing_eq hx.1 hx.2).trans (h.enclosing_eq hy.1 hy.2).symm

theorem Around.step (h : Around bodies outer a b []) (first : a ≤ x) (last : x < b) :
    enclosing bodies (x + 1) = enclosing bodies x :=
  h.same ⟨Nat.le_succ_of_le first, last⟩ ⟨first, Nat.le_of_lt last⟩

theorem Around.depth_eq (h : Around bodies outer a b []) {level : Nat}
    (depth : outer.length = level) (first : a ≤ x) (last : x ≤ b) :
    level = (enclosing bodies x).length := by
  rw [h.enclosing_eq first last, depth]

theorem Around.slot (h : Around bodies outer a b []) {level : Nat} (le : level ≤ outer.length)
    (first : a ≤ x) (last : x < b) :
    level ≤ (enclosing bodies x).length ∧ enclosing bodies (x + 1) = enclosing bodies x :=
  ⟨by rwa [h.enclosing_eq first (Nat.le_of_lt last)], h.step first last⟩

end Flat

/-! ## Names -/

/-- What a name stands for on some level lies on this level or on one around it, and a function has
its body there. -/
def Reaches (bodies : List Body) (level : Nat) : Decl → Prop
  | .var l _ | .param l _ => l ≤ level
  | .func l entry _ => l ≤ level ∧ Enters bodies l entry

/-- All names stand for something that can be reached. -/
def Known (bodies : List Body) (ctx : Ctx) : Prop :=
  ∀ name decl, ctx.scopes.resolve? name = some decl → Reaches bodies ctx.level decl

section Known

variable {bodies : List Body} {ctx : Ctx}

theorem Reaches.mono {level level' : Nat} {decl : Decl} (h : Reaches bodies level decl)
    (le : level ≤ level') : Reaches bodies level' decl := by
  cases decl with
  | var l _ | param l _ => exact Nat.le_trans h le
  | func l entry _ => exact ⟨Nat.le_trans h.1 le, h.2⟩

theorem Known.declare {scopes : Scopes Decl} {shapes : Levels Shape} {name : String} {decl : Decl}
    (h : Known bodies ⟨scopes, shapes⟩) (reaches : Reaches bodies shapes.depth decl) :
    Known bodies ⟨scopes.declare name decl, shapes⟩ := by
  intro other decl' resolved
  simp only [Scopes.resolve?_declare] at resolved
  split at resolved
  · cases resolved
    exact reaches
  · exact h other decl' resolved

theorem Known.declareVar (h : Known bodies ctx) (name : String) :
    Known bodies (ctx.declareVar name) := by
  have grown : Known bodies ⟨ctx.scopes, ctx.shapes.modify Shape.grow⟩ := h
  exact grown.declare (Nat.le_refl _)

theorem Known.enterBlock (h : Known bodies ctx) (entry : Nat) :
    Known bodies (ctx.enterBlock entry) := by
  intro name decl resolved
  exact (h name decl resolved).mono (Nat.le_succ _)

theorem Known.declareParams {shapes : Levels Shape} (names : List String) {scopes : Scopes Decl}
    (h : Known bodies ⟨scopes, shapes⟩) :
    Known bodies ⟨Scopes.declareParams shapes.depth names scopes, shapes⟩ := by
  induction names generalizing scopes with
  | nil => exact h
  | cons name names ih => exact ih (h.declare (Nat.le_refl _))

theorem Known.enterFunc (h : Known bodies ctx) (entry : Nat) (names : List String) :
    Known bodies (ctx.enterFunc entry names) := by
  have entered : Known bodies
      ⟨ctx.scopes.enter [], ctx.shapes.enter (.opened (.function entry names.length))⟩ :=
    fun name decl resolved => (h name decl resolved).mono (Nat.le_succ _)
  exact entered.declareParams names

theorem Known.level_le {name : String} {decl : Decl} {level : Nat} {offset : Int}
    (h : Known bodies ctx) (resolved : ctx.scopes.resolve? name = some decl)
    (slot : decl.slot? = some (level, offset)) : level ≤ ctx.level := by
  have reaches := h name decl resolved
  cases decl with
  | var l _ | param l _ =>
    cases slot
    exact reaches
  | func _ _ _ => cases slot

end Known

/-! ## Expressions -/

section Placed

variable {bodies outer : List Body} {size : Nat} {ctx : Ctx}

mutual

/-- **Every instruction of an expression is placed**, because no body starts or ends in it. -/
theorem Expr.Emits.placed {t a : Nat} {e : Expr} {sites : List Site} (known : Known bodies ctx)
    (depth : outer.length = ctx.level) :
    Expr.Emits ctx t e sites → Around bodies outer a (a + sites.length) [] →
      Each (Placed bodies size) a sites
  | .int, flat => ⟨flat.step (Nat.le_refl a) (Nat.lt_succ_self a), trivial⟩
  | .bool, flat => ⟨flat.step (Nat.le_refl a) (Nat.lt_succ_self a), trivial⟩
  | .var resolved slot, flat => by
    have le := depth ▸ known.level_le resolved slot
    exact ⟨flat.slot le (Nat.le_refl a) (Nat.lt_succ_self a), trivial⟩
  | @Expr.Emits.call _ _ _ _ _ _ sites resolved operands, flat => by
    obtain ⟨le, enters⟩ := known _ _ resolved
    simp only [List.length_append, List.length_cons, List.length_nil] at flat
    obtain ⟨le, step⟩ := flat.slot (x := a + sites.length) (depth ▸ le) (by omega) (by omega)
    refine each_append.2 ⟨operands.placed known depth (flat.mono ?_ ?_), ⟨⟨le, enters⟩, step⟩,
      trivial⟩
    all_goals omega
  | @Expr.Emits.unary _ _ op _ sites operand, flat => by
    simp only [List.length_append, List.length_map] at flat
    refine each_append.2 ⟨operand.placed known depth (flat.mono (Nat.le_refl _) (by omega)), ?_⟩
    cases op with
    | plus => trivial
    | not | minus => exact ⟨flat.step (Nat.le_add_right a _) (by simp [UnaryOp.instrs]), trivial⟩
  | .binary left right, flat => by
    simp only [List.length_append, List.length_cons, List.length_nil] at flat
    refine each_append.2 ⟨each_append.2 ⟨left.placed known depth (flat.mono ?_ ?_),
      right.placed known depth (flat.mono ?_ ?_)⟩, flat.step ?_ ?_, trivial⟩
    all_goals first | omega | (simp only [List.length_append]; omega)
  | .post resolved, flat => by
    have le := depth ▸ known.level_le resolved rfl
    simp only [List.length_cons, List.length_nil] at flat
    refine ⟨flat.slot le ?_ ?_, flat.slot le ?_ ?_, flat.step ?_ ?_, flat.step ?_ ?_,
      flat.slot le ?_ ?_, trivial⟩
    all_goals omega

theorem Expr.EmitsAll.placed {t a : Nat} {es : List Expr} {sites : List Site}
    (known : Known bodies ctx) (depth : outer.length = ctx.level) :
    Expr.EmitsAll ctx t es sites → Around bodies outer a (a + sites.length) [] →
      Each (Placed bodies size) a sites
  | .nil, _ => trivial
  | .cons head tail, flat => by
    rw [List.length_append] at flat
    refine each_append.2 ⟨head.placed known depth (flat.mono ?_ ?_),
      tail.placed known depth (flat.mono ?_ ?_)⟩
    all_goals omega

end

theorem Part.Emits.placed_block {inner : Ctx} {a : Nat} {content : Part} {sites : List Site}
    (body : Part.Emits (ctx.enterBlock (a + 5)) (a + 5) content sites inner)
    (around : Around bodies outer a (a + 5 + sites.length + 6)
      (blockBodies a sites.length fun a => content.bodies a))
    (depth : outer.length = ctx.level) (fits : a + 5 + sites.length + 6 ≤ size)
    (placed : Around bodies (outer ++ [⟨.block, a + 5, a + 5 + sites.length + 4⟩]) (a + 5)
      (a + 5 + sites.length) (content.bodies (a + 5)) → Each (Placed bodies size) (a + 5) sites) :
    Each (Placed bodies size) a (ctx.openSites a sites.length ++
      (sites ++ (inner.closeSites ++ [ctx.site 2 .pop, ctx.site 1 .pop]))) := by
  have nested := content.nested (a + 5)
  rw [← body.length_eq] at nested
  have all : Nested (a + 4) (a + 5 + sites.length + 4)
      (blockBodies a sites.length fun a => content.bodies a) := by
    refine .cons nested ?_ ?_ ?_ ?_
    all_goals omega
  have before := around.before all (by omega)
  have behind := around.behind all (by omega)
  have inside : Around bodies (outer ++ [⟨.block, a + 5, a + 5 + sites.length + 4⟩]) (a + 5)
      (a + 5 + sites.length + 3) (content.bodies (a + 5)) :=
    Around.body around (by dsimp only; omega) (by dsimp only; omega) (by omega)
  have close := inside.behind nested (by omega)
  have enters : Enters bodies outer.length (a + 5) :=
    Around.enters around (by dsimp only; omega) (by dsimp only; omega) (by dsimp only; omega) nested
  have deeper : (outer ++ [(⟨.block, a + 5, a + 5 + sites.length + 4⟩ : Body)]).length =
      inner.level := by
    rw [List.length_append, depth, body.level]
    rfl
  refine each_append.2 ⟨?_, each_append.2 ⟨placed (inside.mono ?_ ?_), ?_⟩⟩
  · have level := Nat.le_of_eq depth.symm
    rw [depth] at enters
    obtain ⟨le, step⟩ := before.slot (x := a + 1) level (by omega) (by omega)
    have target : enclosing bodies (a + 5 + sites.length + 4) = enclosing bodies (a + 3) :=
      (behind.enclosing_eq (by omega) (by omega)).trans
        (before.enclosing_eq (by omega) (by omega)).symm
    refine ⟨before.step ?_ ?_, ⟨⟨le, enters⟩, step⟩, before.slot level ?_ ?_,
      ⟨⟨?_, ?_, target⟩, before.step ?_ ?_⟩, before.depth_eq depth ?_ ?_, trivial⟩
    all_goals omega
  · exact Nat.le_refl _
  · exact Nat.le_add_right _ 3
  · change Each (Placed bodies size) (a + 5 + sites.length) _
    have level := Nat.le_of_eq deeper.symm
    refine ⟨close.step ?_ ?_, close.slot level ?_ ?_, close.step ?_ ?_,
      close.depth_eq deeper ?_ ?_, behind.step ?_ ?_, behind.step ?_ ?_, trivial⟩
    all_goals omega

/-- **Every instruction of a part is placed**, and the names declared by it are known behind it. -/
theorem Part.Emits.placed {ctx' : Ctx} {a : Nat} {part : Part} {sites : List Site}
    (h : Part.Emits ctx a part sites ctx') (known : Known bodies ctx)
    (depth : outer.length = ctx.level)
    (around : Around bodies outer a (a + sites.length) (part.bodies a)) (pos : 0 < a)
    (fits : a + sites.length ≤ size) :
    Each (Placed bodies size) a sites ∧ Known bodies ctx' := by
  induction h generalizing outer with
  | nil => exact ⟨trivial, known⟩
  | empty => exact ⟨trivial, known⟩
  | noElse => exact ⟨trivial, known⟩
  | loop frame ih => exact ih known depth around pos fits
  | blockStmt content ih => exact ih known depth around pos fits
  | elseBlock content ih => exact ih known depth around pos fits
  | elseCond content ih => exact ih known depth around pos fits
  | @cons ctx a s rest sites₁ ctx₁ sites₂ ctx₂ head tail ih₁ ih₂ =>
    change Around bodies outer a _ (s.bodies a ++ Stmt.bodiesAll (a + s.codeLength) rest) at around
    have length : sites₁.length = s.codeLength := head.length_eq
    rw [List.length_append] at around fits
    rw [← length] at around
    have nested₁ := s.nested a
    rw [← length] at nested₁
    have nested₂ := Stmt.nestedAll rest (a + sites₁.length)
    obtain ⟨placed₁, known₁⟩ := ih₁ known depth (around.left nested₂ (by omega)) pos (by omega)
    have later := (around.right nested₁ (by omega)).mono (Nat.le_refl _)
      (Nat.le_of_eq (Nat.add_assoc _ _ _))
    obtain ⟨placed₂, known₂⟩ := ih₂ known₁ (depth.trans head.level.symm) later (by omega) (by omega)
    exact ⟨each_append.2 ⟨placed₁, placed₂⟩, known₂⟩
  | @declare ctx a name e sites value =>
    simp only [List.length_cons, List.length_append, List.length_nil] at around
    have known' := known.declareVar name
    refine ⟨⟨around.step ?_ ?_, each_append.2 ⟨value.placed known' depth (around.mono ?_ ?_),
      around.slot (Nat.le_of_eq depth.symm) ?_ ?_, trivial⟩⟩, known'⟩
    all_goals omega
  | @assign ctx a name e decl level offset sites resolved slot value =>
    simp only [List.length_cons, List.length_append, List.length_nil] at around
    have le := depth ▸ known.level_le resolved slot
    refine ⟨each_append.2 ⟨value.placed known depth (around.mono ?_ ?_), around.slot le ?_ ?_,
      trivial⟩, known⟩
    all_goals omega
  | @function ctx a name names body sites inner content ih =>
    have length : sites.length = Stmt.codeLengthAll body := content.length_eq
    change Around bodies outer a _ (⟨.function, a + 1, a + 1 + Stmt.codeLengthAll body + 2⟩ ::
      Stmt.bodiesAll (a + 1) body) at around
    have nested := Stmt.nestedAll body (a + 1)
    rw [← length] at around nested
    simp only [List.length_cons, List.length_append, List.length_nil] at around fits
    have all : Nested a (a + 1 + sites.length + 2)
        (⟨.function, a + 1, a + 1 + sites.length + 2⟩ :: Stmt.bodiesAll (a + 1) body) := by
      refine .cons nested ?_ ?_ ?_ ?_
      all_goals omega
    have target : enclosing bodies (a + 1 + sites.length + 2) = enclosing bodies a :=
      ((around.behind all (by omega)).enclosing_eq (Nat.le_refl _) (by omega)).trans
        ((around.before all (by omega)).enclosing_eq (Nat.le_refl a) (Nat.le_refl a)).symm
    have enters : Enters bodies outer.length (a + 1) :=
      Around.enters around (Nat.le_succ a) (by dsimp only; omega) (by dsimp only; omega) nested
    have known' : Known bodies (ctx.declareFunc name (a + 1) names.length) :=
      known.declare ⟨Nat.le_refl _, depth ▸ enters⟩
    have deeper : (outer ++ [(⟨.function, a + 1, a + 1 + sites.length + 2⟩ : Body)]).length =
        ctx.level + 1 := by
      rw [List.length_append, depth]
      rfl
    have inside : Around bodies (outer ++ [⟨.function, a + 1, a + 1 + sites.length + 2⟩]) (a + 1)
        (a + 1 + sites.length + 1) (Stmt.bodiesAll (a + 1) body) :=
      Around.body around (Nat.le_succ a) (by dsimp only; omega) (by omega)
    have close := inside.behind nested (by omega)
    obtain ⟨placed, -⟩ := ih (known'.enterFunc _ _) deeper
      (inside.mono (Nat.le_refl _) (Nat.le_succ _)) (Nat.succ_pos a) (by omega)
    refine ⟨⟨⟨Nat.succ_pos _, ?_, target⟩, each_append.2 ⟨placed, close.step ?_ ?_,
      close.depth_eq deeper ?_ ?_, trivial⟩⟩, known'⟩
    all_goals omega
  | @ret ctx a =>
    simp only [List.length_cons, List.length_nil] at around
    refine ⟨⟨around.step ?_ ?_, around.depth_eq depth ?_ ?_, trivial⟩, known⟩
    all_goals omega
  | @retValue ctx a e sites value =>
    simp only [List.length_cons, List.length_append, List.length_nil] at around
    refine ⟨each_append.2 ⟨value.placed known depth (around.mono ?_ ?_),
      around.depth_eq depth ?_ ?_, trivial⟩, known⟩
    all_goals omega
  | @cond ctx a test body alternative sites₁ sites₂ sites₃ condition branch other ih₁ ih₂ =>
    change Around bodies outer a _ ((Part.block (.stmts body)).bodies (a + test.codeLength + 2) ++
      (Part.otherwise alternative).bodies
        (a + test.codeLength + 2 + (Part.block (.stmts body)).codeLength + 1)) at around
    rw [← condition.length_eq, ← branch.length_eq] at around
    simp only [List.length_append, List.length_cons] at around fits
    have nested₁ := (Part.block (.stmts body)).nested (a + sites₁.length + 2)
    have nested₂ := (Part.otherwise alternative).nested
      (a + sites₁.length + 2 + sites₂.length + 1)
    rw [← branch.length_eq] at nested₁
    rw [← other.length_eq] at nested₂
    -- up to the alternative, and from the end of the branch on
    have left := around.left nested₂ (by omega)
    have right := around.right nested₁ (by omega)
    have start := left.before nested₁ (by omega)
    have middle := right.before nested₂ (by omega)
    have behind := right.behind nested₂ (by omega)
    obtain ⟨placed₁, -⟩ := ih₁ known depth (left.mono (by omega) (by omega)) (by omega) (by omega)
    obtain ⟨placed₂, -⟩ := ih₂ known depth (right.mono (by omega) (by omega)) (by omega) (by omega)
    have other : enclosing bodies (a + sites₁.length + 2 + sites₂.length + 1) =
        enclosing bodies (a + sites₁.length + 1) :=
      (middle.enclosing_eq (by omega) (by omega)).trans
        (start.enclosing_eq (by omega) (by omega)).symm
    have target : enclosing bodies (a + sites₁.length + 2 + sites₂.length + 1 + sites₃.length) =
        enclosing bodies (a + sites₁.length + 2 + sites₂.length) :=
      (behind.enclosing_eq (by omega) (by omega)).trans
        (middle.enclosing_eq (by omega) (by omega)).symm
    refine ⟨each_append.2 ⟨condition.placed known depth (start.mono ?_ ?_), start.step ?_ ?_,
      ⟨⟨?_, ?_, other⟩, start.step ?_ ?_⟩, each_append.2 ⟨placed₁, ⟨?_, ?_, target⟩, placed₂⟩⟩,
      known⟩
    all_goals omega
  | @expr ctx a e sites value =>
    simp only [List.length_cons, List.length_append, List.length_nil] at around
    refine ⟨each_append.2 ⟨value.placed known depth (around.mono ?_ ?_), around.step ?_ ?_,
      trivial⟩, known⟩
    all_goals omega
  | @passes ctx a first test after body sites₁ ctx₁ sites₂ sites₃ sites₄ ctx₂ head condition pass
      update ih₁ ih₂ ih₃ =>
    change Around bodies outer a _ ((Part.stmt first).bodies a ++
      ((Part.block (.stmts body)).bodies (a + first.codeLength + test.codeLength + 2) ++
        (Part.stmt after).bodies (a + first.codeLength + test.codeLength + 2 +
          (Part.block (.stmts body)).codeLength))) at around
    have length₁ : sites₁.length = first.codeLength := head.length_eq
    rw [← length₁, ← condition.length_eq, ← pass.length_eq] at around
    simp only [List.length_append, List.length_cons, List.length_nil] at around fits
    have nested₁ := (Part.stmt first).nested a
    have nested₂ := (Part.block (.stmts body)).nested (a + sites₁.length + sites₂.length + 2)
    have nested₃ := (Part.stmt after).nested
      (a + sites₁.length + sites₂.length + 2 + sites₃.length)
    rw [← head.length_eq] at nested₁
    rw [← pass.length_eq] at nested₂
    rw [← update.length_eq] at nested₃
    have left := around.left (nested₂.append nested₃ (by omega) (by omega) (by omega)) (by omega)
    have right := around.right nested₁ (by omega)
    have loop := left.behind nested₁ (by omega)
    have last := right.right nested₂ (by omega)
    have behind := last.behind nested₃ (by omega)
    have depth₁ := depth.trans head.level.symm
    obtain ⟨placed₁, known₁⟩ :=
      ih₁ known depth (left.mono (Nat.le_refl a) (by omega)) pos (by omega)
    obtain ⟨placed₂, -⟩ := ih₂ known₁ depth₁
      ((right.left nested₃ (by omega)).mono (by omega) (by omega)) (by omega) (by omega)
    obtain ⟨placed₃, known₂⟩ := ih₃ known₁ depth₁ (last.mono (Nat.le_refl _) (by omega))
      (by omega) (by omega)
    have exit : enclosing bodies
          (a + sites₁.length + sites₂.length + 2 + sites₃.length + sites₄.length + 1) =
        enclosing bodies (a + sites₁.length + sites₂.length + 1) :=
      (behind.enclosing_eq (by omega) (by omega)).trans
        (loop.enclosing_eq (by omega) (by omega)).symm
    have back : enclosing bodies (a + sites₁.length) = enclosing bodies
        (a + sites₁.length + sites₂.length + 2 + sites₃.length + sites₄.length) :=
      (loop.enclosing_eq (by omega) (by omega)).trans
        (behind.enclosing_eq (by omega) (by omega)).symm
    refine ⟨each_append.2 ⟨placed₁, each_append.2 ⟨condition.placed known₁ depth₁ (loop.mono ?_ ?_),
      loop.step ?_ ?_, ⟨⟨?_, ?_, exit⟩, loop.step ?_ ?_⟩,
      each_append.2 ⟨placed₂, each_append.2 ⟨placed₃, ⟨?_, ?_, back⟩, trivial⟩⟩⟩⟩, known₂⟩
    all_goals omega
  | @block ctx a content sites inner body ih =>
    change Around bodies outer a _ (blockBodies a content.codeLength fun a => content.bodies a)
      at around
    have length : a + (ctx.openSites a sites.length ++ (sites ++ (inner.closeSites ++
        [ctx.site 2 .pop, ctx.site 1 .pop]))).length = a + 5 + sites.length + 6 := by
      simp [Ctx.openSites, Ctx.closeSites]
      omega
    rw [length] at around fits
    rw [← body.length_eq] at around
    refine ⟨body.placed_block around depth fits fun inside => ?_, known⟩
    refine (ih (known.enterBlock _) ?_ inside (Nat.succ_pos _) (by omega)).1
    rw [List.length_append, depth]
    rfl

end Placed

/-! ## Both ends of a body -/

/-- A body ends with a return, and the body of a function stands behind a jump over it. -/
def Chart.Frames (c : Chart) (b : Body) : Prop :=
  (∃ level params, c.instr? (b.stop - 1) = some (.ret level params)) ∧
    (b.kind = .function → c.instr? (b.entry - 1) = some (.jump b.stop))

open Chart in
/-- **What stands at both ends of a body.** -/
theorem Part.Emits.framed {c : Chart} {ctx ctx' : Ctx} {a : Nat} {part : Part} {sites : List Site}
    (h : Part.Emits ctx a part sites ctx') (sits : c.Sits a sites) :
    ∀ b ∈ part.bodies a, c.Frames b := by
  induction h with
  | nil => exact fun _ hb => absurd hb List.not_mem_nil
  | empty => exact fun _ hb => absurd hb List.not_mem_nil
  | noElse => exact fun _ hb => absurd hb List.not_mem_nil
  | declare _ => exact fun _ hb => absurd hb List.not_mem_nil
  | assign _ _ _ => exact fun _ hb => absurd hb List.not_mem_nil
  | ret => exact fun _ hb => absurd hb List.not_mem_nil
  | retValue _ => exact fun _ hb => absurd hb List.not_mem_nil
  | expr _ => exact fun _ hb => absurd hb List.not_mem_nil
  | loop frame ih => exact ih sits
  | blockStmt content ih => exact ih sits
  | elseBlock content ih => exact ih sits
  | elseCond content ih => exact ih sits
  | @cons ctx a s rest sites₁ ctx₁ sites₂ ctx₂ head tail ih₁ ih₂ =>
    intro b hb
    have length : sites₁.length = s.codeLength := head.length_eq
    obtain ⟨sits₁, sits₂⟩ := sits_append.1 sits
    rcases List.mem_append.1 hb with hb | hb
    · exact ih₁ sits₁ b hb
    · exact ih₂ sits₂ b (length ▸ hb)
  | @function ctx a name names body sites inner content ih =>
    intro b hb
    have length : sites.length = Stmt.codeLengthAll body := content.length_eq
    obtain ⟨jump, sits⟩ := sits
    obtain ⟨sits, -, ret, -⟩ := sits_append.1 sits
    rcases List.mem_cons.1 hb with rfl | hb
    · rw [← length]
      exact ⟨⟨_, _, instr?_of_site ret⟩, fun _ => instr?_of_site jump⟩
    · exact ih sits b hb
  | @cond ctx a test body alternative sites₁ sites₂ sites₃ condition branch other ih₁ ih₂ =>
    intro b hb
    have length₁ : sites₁.length = test.codeLength := condition.length_eq
    have length₂ : sites₂.length = blockLength (Stmt.codeLengthAll body) := branch.length_eq
    obtain ⟨-, -, -, sits⟩ := sits_append.1 sits
    obtain ⟨sits₂, -, sits₃⟩ := sits_append.1 sits
    rcases List.mem_append.1 hb with hb | hb
    · exact ih₁ sits₂ b (length₁ ▸ hb)
    · exact ih₂ sits₃ b (length₁ ▸ length₂ ▸ hb)
  | @passes ctx a first test after body sites₁ ctx₁ sites₂ sites₃ sites₄ ctx₂ head condition pass
      update ih₁ ih₂ ih₃ =>
    intro b hb
    have length₁ : sites₁.length = first.codeLength := head.length_eq
    have length₂ : sites₂.length = test.codeLength := condition.length_eq
    have length₃ : sites₃.length = blockLength (Stmt.codeLengthAll body) := pass.length_eq
    obtain ⟨sits₁, sits⟩ := sits_append.1 sits
    obtain ⟨-, -, -, sits⟩ := sits_append.1 sits
    obtain ⟨sits₃, sits⟩ := sits_append.1 sits
    rcases List.mem_append.1 hb with hb | hb
    · exact ih₁ sits₁ b hb
    rcases List.mem_append.1 hb with hb | hb
    · exact ih₂ sits₃ b (length₁ ▸ length₂ ▸ hb)
    · exact ih₃ (sits_append.1 sits).1 b (length₁ ▸ length₂ ▸ length₃ ▸ hb)
  | @block ctx a content sites inner body ih =>
    intro b hb
    obtain ⟨-, -, -, -, -, sits⟩ := sits
    have sits : c.Sits (a + 5)
      (sites ++ (inner.closeSites ++ [ctx.site 2 .pop, ctx.site 1 .pop])) := sits
    obtain ⟨sits₁, -, -, -, exit, -⟩ := sits_append.1 sits
    rcases List.mem_cons.1 hb with rfl | hb
    · rw [← body.length_eq]
      exact ⟨⟨_, _, instr?_of_site exit⟩, nofun⟩
    · exact ih sits₁ b hb

/-! ## Compiled programs -/

section Programs

variable (program : Program) {size : Nat}

theorem Program.around : Around program.bodies [] 5 size (Stmt.bodiesAll 5 program) := by
  have print : Nested 0 5 [⟨.function, 1, 5⟩] :=
    .cons (.nil : Nested 1 1 []) (by decide) (by decide) (by decide) (by decide)
  have all : Around program.bodies [] 0 size
    ([⟨.function, 1, 5⟩] ++ Stmt.bodiesAll 5 program) := fun _ _ _ => rfl
  exact all.right print (Nat.zero_le 5)

theorem Program.around_print : Around program.bodies [⟨.function, 1, 5⟩] 1 4 [] := by
  have all : Around program.bodies [] 0 5
    (⟨.function, 1, 5⟩ :: Stmt.bodiesAll 5 program) := fun _ _ _ => rfl
  have inside : Around program.bodies [⟨.function, 1, 5⟩] 1 4 (Stmt.bodiesAll 5 program) :=
    Around.body all (Nat.zero_le 1) (Nat.lt_succ_self 4) (Nat.le_succ 4)
  have nested := (Stmt.nestedAll program 5).mono (Nat.le_succ 4) (Nat.le_refl _)
  exact inside.before nested (Nat.le_refl 4)

theorem Program.enters_print : Enters program.bodies 0 1 := by
  have all : Around program.bodies [] 0 5
    (⟨.function, 1, 5⟩ :: Stmt.bodiesAll 5 program) := fun _ _ _ => rfl
  have nested := (Stmt.nestedAll program 5).mono (show 1 ≤ 5 by decide) (Nat.le_refl _)
  exact Around.enters all (Nat.zero_le 1) (by decide) (by decide) nested

theorem Program.placed_print (fits : 5 ≤ size) :
    Each (Placed program.bodies size) 0 printSites := by
  have inside := program.around_print
  have behind : enclosing program.bodies 5 = [] := by
    rw [program.around 5 (Nat.le_refl 5) (Nat.le_refl 5)]
    exact (Stmt.nestedAll program 5).enclosing_of_le (Nat.le_refl 5)
  have start : enclosing program.bodies 0 = [] := program.nested.enclosing_of_le (Nat.le_refl 0)
  refine ⟨⟨by decide, fits, behind.trans start.symm⟩, inside.slot (Nat.le_refl 1) ?_ ?_,
    inside.step ?_ ?_, inside.step ?_ ?_, inside.depth_eq rfl ?_ ?_, trivial⟩
  all_goals decide

end Programs

theorem size_of_compile {program : Program} {code : Code} (compiled : compile program = .ok code) :
    code.size = 5 + Stmt.codeLengthAll program := by
  obtain ⟨sites, ctx, emits, hcode⟩ := emits_of_compile compiled
  rw [← Array.length_toList, hcode, Site.code, List.length_map, List.length_append,
    emits.length_eq]
  rfl

theorem placed_of_compile {program : Program} {code : Code} (compiled : compile program = .ok code)
    {a : Nat} {i : Instr} (instr : code[a]? = some i) :
    Placed program.bodies code.size a i := by
  obtain ⟨sites, ctx, emits, hcode⟩ := emits_of_compile compiled
  have size : code.size = 5 + sites.length := by
    rw [size_of_compile compiled, emits.length_eq]
    rfl
  have known : Known program.bodies .initial := by
    intro name decl resolved
    obtain rfl := Chart.resolve?_initial resolved
    exact ⟨Nat.le_refl 0, program.enters_print⟩
  have depth : ([] : List Body).length = Ctx.initial.level := rfl
  obtain ⟨placed, -⟩ := emits.placed known depth program.around (Nat.succ_pos 4)
    (Nat.le_of_eq size.symm)
  have all : Each (Placed program.bodies code.size) 0 (printSites ++ sites) :=
    each_append.2 ⟨program.placed_print (by omega), placed⟩
  rw [← Array.getElem?_toList, hcode, Site.code, List.getElem?_map] at instr
  obtain ⟨site, found, rfl⟩ := Option.map_eq_some_iff.1 instr
  have placed := all.getElem? found
  rwa [Nat.zero_add] at placed

theorem framed_of_compile {program : Program} {code : Code} (compiled : compile program = .ok code)
    {b : Body} (mem : b ∈ program.bodies) :
    (∃ level params, code[b.stop - 1]? = some (.ret level params)) ∧
      (b.kind = .function → code[b.entry - 1]? = some (.jump b.stop)) := by
  obtain ⟨sites, ctx, emits, hcode⟩ := emits_of_compile compiled
  let c : Chart := ⟨printSites ++ sites, ctx.point 0, []⟩
  have instrs (a : Nat) : c.instr? a = code[a]? := by
    rw [← Array.getElem?_toList, hcode, Site.code, List.getElem?_map]
    rfl
  have framed : c.Frames b := by
    rcases List.mem_cons.1 mem with rfl | mem
    · exact ⟨⟨1, 1, rfl⟩, fun _ => rfl⟩
    · exact emits.framed (Chart.sits_append.1 c.shows_sites.sits).2 b mem
  unfold Chart.Frames at framed
  simpa only [instrs] using framed

/-- **Compiled code is well structured.** Let the depth of an address be the number of bodies of
functions and blocks around it.

* Bodies lie in the code and are properly nested. Each ends with a return, and in front of that of a
  function stands a jump over it.
* Jumps lead to addresses of the code, or just behind it, in the same bodies.
* A call leads to the first address of a body. Its level is at most the depth, and directly inside
  the body the depth is one more than its level.
* The level of a return is the depth, and that of a load or a store is at most the depth.
* Bodies are entered only by calls and left only by returns. -/
theorem compiled_code_structured {program : Program} {code : Code}
    (compiled : compile program = .ok code) (ω : Type) [Output ω] :
    let around := enclosing program.bodies
    (∀ b ∈ program.bodies, 0 < b.entry ∧ b.entry < b.stop ∧ b.stop ≤ code.size ∧
      (∃ level params, code[b.stop - 1]? = some (.ret level params)) ∧
      (b.kind = .function → code[b.entry - 1]? = some (.jump b.stop))) ∧
    program.bodies.Pairwise Body.Apart ∧
    (∀ a target, code[a]? = some (.jump target) ∨ code[a]? = some (.jumpIf target) →
      0 < target ∧ target ≤ code.size ∧ around target = around a) ∧
    (∀ a level target, code[a]? = some (.call level target) → level ≤ (around a).length ∧
      ∃ b ∈ program.bodies, b.entry = target ∧ (around target).getLast? = some b ∧
        ∀ x, (around x).getLast? = some b → (around x).length = level + 1) ∧
    (∀ a level params, code[a]? = some (.ret level params) → level = (around a).length) ∧
    (∀ a level offset, code[a]? = some (.load level offset) ∨
      code[a]? = some (.store level offset) → level ≤ (around a).length) ∧
    (∀ (s s' : State ω) i, code[s.pc]? = some i → advance i s = .ok () s' →
      (∀ level target, i ≠ .call level target) → (∀ level params, i ≠ .ret level params) →
      around s'.pc = around s.pc) := by
  intro around
  have nested := program.nested
  rw [← size_of_compile compiled] at nested
  refine ⟨fun b mem => ?_, nested.apart, fun a target instr => ?_, fun a level target instr => ?_,
    fun a level params instr => ?_, fun a level offset instr => ?_,
    fun s s' i instr ok call ret => ?_⟩
  · obtain ⟨entry, nonempty, stop⟩ := nested.within b mem
    exact ⟨entry, nonempty, stop, framed_of_compile compiled mem⟩
  · rcases instr with instr | instr
    · exact placed_of_compile compiled instr
    · exact (placed_of_compile compiled instr).1
  · obtain ⟨⟨le, b, mem, rfl, innermost, depth⟩, -⟩ := placed_of_compile compiled instr
    refine ⟨le, b, mem, rfl, innermost, fun x directly => ?_⟩
    rw [← depth]
    exact congrArg List.length (nested.enclosing_eq directly)
  · exact placed_of_compile compiled instr
  · rcases instr with instr | instr
    · exact (placed_of_compile compiled instr).1
    · exact (placed_of_compile compiled instr).1
  · have placed := placed_of_compile compiled instr
    rcases advance_pc ok call ret with ⟨next, jump⟩ | rfl | rfl
    · rw [next]
      exact placed.next jump ret
    · exact placed.2.2
    · exact placed.1.2.2

/-- The jump back in the loop stays in the body of the loop, the call of the branch leads to a body
of depth `4`, and the return in that body has this level. -/
theorem compiled_code_structured_find :
    let around := enclosing findProgram.bodies
    findProgram.bodies = [⟨.function, 1, 5⟩, ⟨.function, 6, 66⟩, ⟨.block, 11, 62⟩, ⟨.block, 24, 49⟩,
      ⟨.block, 34, 42⟩] ∧
    (0 < 14 ∧ 14 ≤ findCode.size ∧ around 14 = around 57) ∧
    (3 ≤ (around 30).length ∧
      ∃ b ∈ findProgram.bodies, b.entry = 34 ∧ (around 34).getLast? = some b ∧
        ∀ x, (around x).getLast? = some b → (around x).length = 3 + 1) ∧
    4 = (around 37).length := by
  obtain ⟨-, -, jumps, calls, returns, -⟩ :=
    compiled_code_structured compile_findProgram (Array Value)
  exact ⟨by decide, jumps 57 14 (.inl rfl), calls 30 3 34 rfl, returns 37 4 0 rfl⟩

end NestLang
