import NestLang.Proofs.Layout
import NestLang.Proofs.Session

/-!
# Compiled code has its layout

The code that the compiler appends to a session is the code of the layout, with all jumps and calls
leading where they should, and afterwards names and frames are those behind the part compiled.

* `Session.Shows`: names and frames of a session are those of a context.
* `Expr.emits_of_compile`, `Stmt.emits_of_compile`: what compiling an expression and a statement
  appends.
* **`emits_of_compile`**: the code of a whole program.
-/

namespace NestLang

open CompileM

/-- The session writes at the end of its code, its names are those of the context, and so is its
innermost frame. -/
structure Session.Shows (σ : Session) (ctx : Ctx) : Prop where
  atEnd : σ.buffer.AtEnd
  scopes : σ.scopes = ctx.scopes
  current : σ.frames.current = ctx.shapes.current.frame
  depth : σ.frames.depth = ctx.level

/-- From `σ` to `σ'` the code of some sites was appended, and the levels around the innermost one
were left alone. -/
structure Session.Emitted (σ : Session) (sites : List Site) (ctx : Ctx) (σ' : Session) : Prop where
  shows : σ'.Shows ctx
  buffer : σ'.buffer = σ.buffer.written (Site.code sites)
  outer : σ'.frames.outer = σ.frames.outer

theorem Session.Shows.written {σ : Session} {ctx : Ctx} (hσ : σ.Shows ctx) (b : Buffer)
    (is : List Instr) : Session.Shows ⟨b.written is, σ.scopes, σ.frames, σ.log⟩ ctx :=
  ⟨Buffer.atEnd_written _ _, hσ.scopes, hσ.current, hσ.depth⟩

theorem Session.Shows.declared {σ : Session} {ctx : Ctx} (hσ : σ.Shows ctx) (name : String)
    (b : Buffer) (is : List Instr) :
    Session.Shows ⟨b.written is,
      σ.scopes.declare name (.var σ.frames.depth σ.frames.current.next),
      σ.frames.modify fun f => { f with next := f.next + 1 }, σ.log⟩ (ctx.declareVar name) where
  atEnd := Buffer.atEnd_written _ _
  scopes := by
    have hnext : σ.frames.current.next = ctx.slots := congrArg Frame.next hσ.current
    rw [hσ.depth, hnext, hσ.scopes]
    rfl
  current := by
    simp only [Levels.modify, hσ.current]
    rfl
  depth := hσ.depth

@[simp] theorem Site.code_nil : Site.code [] = [] := rfl

@[simp] theorem Site.code_cons (s : Site) (sites : List Site) :
    Site.code (s :: sites) = s.instr :: Site.code sites := rfl

@[simp] theorem Site.code_append (sites₁ sites₂ : List Site) :
    Site.code (sites₁ ++ sites₂) = Site.code sites₁ ++ Site.code sites₂ := by
  simp [Site.code]

@[simp] theorem Site.length_code (sites : List Site) : (Site.code sites).length = sites.length := by
  simp [Site.code]

@[simp] theorem Ctx.instr_site (ctx : Ctx) (t : Nat) (i : Instr) : (ctx.site t i).instr = i := rfl

@[simp] theorem Ctx.instr_marked (ctx : Ctx) (t : Nat) (m : Mark) (i : Instr) :
    (ctx.marked t m i).instr = i := rfl

/-! ## Names -/

section Names

variable {σ σ' : Session} {name : String} {level : Nat} {offset : Int}

theorem slotOf_eq_ok {function undeclared : CompileError}
    (h : slotOf function undeclared name σ = .ok (level, offset) σ') :
    σ = σ' ∧ ∃ decl, σ.scopes.resolve? name = some decl ∧ decl.slot? = some (level, offset) := by
  rw [slotOf, bind_ok (resolve?_eq name σ)] at h
  cases hr : σ.scopes.resolve? name with
  | none => simp [hr, throw_ne_ok] at h
  | some decl =>
    cases decl with
    | var l o | param l o =>
      simp only [hr, pure_eq_ok] at h
      exact ⟨h.2, _, rfl, by simp [Decl.slot?, h.1]⟩
    | func l e n => simp [hr, throw_ne_ok] at h

theorem callTarget_eq_ok {given entry : Nat}
    (h : callTarget name given σ = .ok (level, entry) σ') :
    σ = σ' ∧ σ.scopes.resolve? name = some (.func level entry given) := by
  rw [callTarget, bind_ok (resolve?_eq name σ)] at h
  cases hr : σ.scopes.resolve? name with
  | none => simp [hr, throw_ne_ok] at h
  | some decl =>
    cases decl with
    | var l o | param l o => simp [hr, throw_ne_ok] at h
    | func l e n =>
      simp only [hr] at h
      split at h
      · rename_i hg
        simp only [pure_eq_ok, Prod.mk.injEq] at h
        obtain ⟨⟨rfl, rfl⟩, rfl⟩ := h
        exact ⟨rfl, by rw [hg]⟩
      · simp [throw_ne_ok] at h

theorem postTarget_eq_ok {op : PostOp} {e : Expr}
    (h : postTarget op e σ = .ok (level, offset) σ') :
    σ = σ' ∧ ∃ name, e = .var name ∧ σ.scopes.resolve? name = some (.var level offset) := by
  cases e with
  | var name =>
    rw [postTarget, bind_ok (resolve?_eq name σ)] at h
    cases hr : σ.scopes.resolve? name with
    | none => simp [hr, throw_ne_ok] at h
    | some decl =>
      cases decl with
      | var l o =>
        simp only [hr, pure_eq_ok, Prod.mk.injEq] at h
        obtain ⟨⟨rfl, rfl⟩, rfl⟩ := h
        exact ⟨rfl, name, rfl, hr⟩
      | param l o => simp [hr, throw_ne_ok] at h
      | func l e n => simp [hr, throw_ne_ok] at h
  | int v => simp [postTarget, throw_ne_ok] at h
  | bool b => simp [postTarget, throw_ne_ok] at h
  | call n args => simp [postTarget, throw_ne_ok] at h
  | unary o e => simp [postTarget, throw_ne_ok] at h
  | binary o l r => simp [postTarget, throw_ne_ok] at h
  | post o e => simp [postTarget, throw_ne_ok] at h

end Names

/-! ## Expressions -/

theorem UnaryOp.compile_eq {b : Buffer} {scopes : Scopes Decl} {frames : Levels Frame}
    {log : Array Event} (h : b.AtEnd) (op : UnaryOp) :
    op.compile ⟨b, scopes, frames, log⟩ = .ok () ⟨b.written op.instrs, scopes, frames, log⟩ := by
  cases op with
  | not => exact emit_eq h _
  | minus => exact emit_eq h _
  | plus =>
    simp only [UnaryOp.instrs, h.written_nil]
    rfl

mutual

/-- **Compiling an expression** appends the code of the expression and changes nothing else. -/
theorem Expr.emits_of_compile : ∀ (e : Expr) {ctx : Ctx} {t : Nat} {σ σ' : Session},
    e.compile σ = .ok () σ' → σ.buffer.AtEnd → σ.scopes = ctx.scopes →
    ∃ sites, Expr.Emits ctx t e sites ∧
      σ' = { σ with buffer := σ.buffer.written (Site.code sites) }
  | .int v, ctx, t, σ, σ', h, hb, hs => by
    rw [Expr.compile, emit_eq hb] at h
    cases h
    exact ⟨_, .int, rfl⟩
  | .bool b, ctx, t, σ, σ', h, hb, hs => by
    rw [Expr.compile, emit_eq hb] at h
    cases h
    exact ⟨_, .bool, rfl⟩
  | .var name, ctx, t, σ, σ', h, hb, hs => by
    rw [Expr.compile, bind_eq_ok] at h
    obtain ⟨⟨level, offset⟩, τ, hv, h⟩ := h
    obtain ⟨rfl, decl, hr, hslot⟩ := slotOf_eq_ok hv
    dsimp only at h
    rw [emit_eq hb] at h
    cases h
    exact ⟨_, .var (hs ▸ hr) hslot, rfl⟩
  | .call name args, ctx, t, σ, σ', h, hb, hs => by
    rw [Expr.compile, bind_eq_ok] at h
    obtain ⟨⟨level, entry⟩, τ, hc, h⟩ := h
    obtain ⟨rfl, hr⟩ := callTarget_eq_ok hc
    rw [bind_eq_ok] at h
    obtain ⟨_, τ, ha, h⟩ := h
    obtain ⟨sites, hsites, rfl⟩ := Expr.emitsAll_of_compile args ha hb hs
    rw [emit_eq (Buffer.atEnd_written _ _)] at h
    cases h
    exact ⟨_, .call (hs ▸ hr) hsites, by simp⟩
  | .unary op e, ctx, t, σ, σ', h, hb, hs => by
    rw [Expr.compile, bind_eq_ok] at h
    obtain ⟨_, τ, he, h⟩ := h
    obtain ⟨sites, hsites, rfl⟩ := Expr.emits_of_compile e he hb hs
    rw [UnaryOp.compile_eq (Buffer.atEnd_written _ _)] at h
    cases h
    refine ⟨_, .unary hsites, ?_⟩
    simp [Site.code, Function.comp_def]
  | .binary op l r, ctx, t, σ, σ', h, hb, hs => by
    rw [Expr.compile, bind_eq_ok] at h
    obtain ⟨_, τ, hl, h⟩ := h
    obtain ⟨sites₁, hsites₁, rfl⟩ := Expr.emits_of_compile l hl hb hs
    rw [bind_eq_ok] at h
    obtain ⟨_, τ, hr, h⟩ := h
    obtain ⟨sites₂, hsites₂, rfl⟩ := Expr.emits_of_compile r hr (Buffer.atEnd_written _ _) hs
    rw [emit_eq (Buffer.atEnd_written _ _)] at h
    cases h
    exact ⟨_, .binary hsites₁ hsites₂, by simp⟩
  | .post op e, ctx, t, σ, σ', h, hb, hs => by
    rw [Expr.compile, bind_eq_ok] at h
    obtain ⟨⟨level, offset⟩, τ, hp, h⟩ := h
    obtain ⟨rfl, name, rfl, hr⟩ := postTarget_eq_ok hp
    dsimp only at h
    rw [bind_ok (emit_eq hb _), bind_ok (emit_eq (Buffer.atEnd_written _ _) _),
      bind_ok (emit_eq (Buffer.atEnd_written _ _) _),
      bind_ok (emit_eq (Buffer.atEnd_written _ _) _), emit_eq (Buffer.atEnd_written _ _) _] at h
    cases h
    exact ⟨_, .post (hs ▸ hr), by simp⟩

theorem Expr.emitsAll_of_compile : ∀ (es : List Expr) {ctx : Ctx} {t : Nat} {σ σ' : Session},
    Expr.compileAll es σ = .ok () σ' → σ.buffer.AtEnd → σ.scopes = ctx.scopes →
    ∃ sites, Expr.EmitsAll ctx t es sites ∧
      σ' = { σ with buffer := σ.buffer.written (Site.code sites) }
  | [], ctx, t, σ, σ', h, hb, hs => by
    rw [Expr.compileAll, pure_eq_ok] at h
    obtain ⟨-, rfl⟩ := h
    exact ⟨[], .nil, by simp [hb.written_nil]⟩
  | e :: es, ctx, t, σ, σ', h, hb, hs => by
    rw [Expr.compileAll, bind_eq_ok] at h
    obtain ⟨_, τ, he, h⟩ := h
    obtain ⟨sites₁, hsites₁, rfl⟩ := Expr.emits_of_compile e he hb hs
    obtain ⟨sites₂, hsites₂, rfl⟩ := Expr.emitsAll_of_compile es h (Buffer.atEnd_written _ _) hs
    exact ⟨_, .cons hsites₁ hsites₂, by simp⟩

end

/-! ## Code around code -/

section Around

variable {b : Buffer} {scopes : Scopes Decl} {frames : Levels Frame} {log : Array Event}

/-- The session at the start of a block. -/
def Session.openedBlock : Session → Session := fun ⟨b, scopes, frames, log⟩ =>
  ⟨b.written [.lit 0, .call frames.depth (b.code.size + 5), .load frames.depth frames.current.next,
      .jumpIf 0, .ret frames.depth frames.current.params],
    scopes.enter [], (frames.modify fun f => { f with next := f.next + 1 }).enter (.opened 0),
    log.push (.blockOpened (frames.depth + 1) (b.code.size + 5))⟩

theorem openBlock_eq (hb : b.AtEnd) : openBlock ⟨b, scopes, frames, log⟩ =
    .ok (b.code.size + 3) (Session.openedBlock ⟨b, scopes, frames, log⟩) := by
  have he := Buffer.atEnd_written b
  obtain ⟨⟨next, params⟩, outer⟩ := frames
  have hp := fun frames => patch_written b scopes frames log
    [.lit 0] [.load outer.length next, .jumpIf 0, .ret outer.length params]
    (.call outer.length 0) (.call outer.length (b.code.size + 5))
  simp only [List.length_cons, List.length_nil, List.cons_append, List.nil_append,
    Nat.reduceAdd] at hp
  simp only [openBlock, bind_run, level_eq, reserve_eq, emit_eq, write_eq, emitReturn_eq, here_eq,
    hb, he, Buffer.written_written, Buffer.size_written, Buffer.position_written,
    List.cons_append, List.nil_append, List.length_cons, List.length_nil, Levels.modify,
    Levels.depth, Nat.reduceAdd, hp, openLevel_eq, record_eq, pure_run, Session.openedBlock]

variable (b scopes log) in
theorem closeBlock_eq (is js : List Instr) (current outer : Frame) (rest : List Frame) :
    closeBlock (b.code.size + is.length)
        ⟨b.written (is ++ .jumpIf 0 :: js), scopes, ⟨current, outer :: rest⟩, log⟩ =
      .ok () ⟨b.written (is ++ .jumpIf (b.code.size + is.length + 1 + js.length + 4) ::
          (js ++ [.lit 1, .store (rest.length + 1) (-1), .lit 0, .ret (rest.length + 1) 0,
            .pop, .pop])),
        scopes.leave, ⟨{ outer with next := outer.next - 1 }, rest⟩,
        log.push (.blockClosed (rest.length + 1))⟩ := by
  have he := Buffer.atEnd_written b
  have hp := fun scopes frames target => patch_written b scopes frames log is
    (js ++ [.lit 1, .store (rest.length + 1) (-1), .lit 0, .ret (rest.length + 1) 0])
    (.jumpIf 0) (.jumpIf target)
  have hlen : b.code.size + (is.length + (js.length + 4 + 1)) =
      b.code.size + is.length + 1 + js.length + 4 := by omega
  simp only [closeBlock, bind_run, level_eq, emit_eq, here_eq, he, closeLevel_eq,
    Buffer.written_written, Buffer.position_written, List.append_assoc, List.cons_append,
    List.nil_append, List.length_append, List.length_cons, List.length_nil, Levels.depth,
    Levels.modify, Nat.reduceAdd, hp, release_eq, record_eq, hlen]

theorem declareParams_eq (level : Nat) (names : List String) :
    CompileM.declareParams level names ⟨b, scopes, frames, log⟩ =
      .ok () ⟨b, Scopes.declareParams level names scopes, frames, log⟩ := by
  induction names generalizing scopes with
  | nil => rfl
  | cons name names ih =>
    rw [CompileM.declareParams, bind_ok (declare_eq _ _ _), ih]
    rfl

/-- What is done between the jump over a function and its body. Returns the level of the body. -/
def openFunction (name : String) (names : List String) : CompileM Nat := do
  let outer ← level
  let entry ← here
  record (.functionDeclared name outer entry)
  declare name (.func outer entry names.length)
  openLevel (.opened names.length)
  let inner ← level
  declareParams inner names
  return inner

theorem inFunction_eq (name : String) (names : List String) (body : CompileM Unit) :
    CompileM.inFunction name names body = forward .jump (do
      let inner ← openFunction name names
      body
      emit (.lit 0)
      emit (.ret inner names.length)
      closeLevel .function) := by
  simp [CompileM.inFunction, openFunction]

/-- The session at the start of the body of a function. -/
def Session.openedFunction (name : String) (names : List String) : Session → Session :=
  fun ⟨b, scopes, frames, log⟩ =>
    ⟨b, Scopes.declareParams (frames.depth + 1) names
        ((scopes.declare name (.func frames.depth b.position names.length)).enter []),
      frames.enter (.opened names.length),
      log.push (.functionDeclared name frames.depth b.position)⟩

theorem openFunction_eq (name : String) (names : List String) (σ : Session) :
    openFunction name names σ = .ok (σ.frames.depth + 1) (σ.openedFunction name names) := by
  simp only [openFunction, bind_run, level_eq, here_eq, record_eq, declare_eq, openLevel_eq,
    declareParams_eq, pure_run, Session.openedFunction, Levels.depth_enter]

theorem forward_eq_ok {α : Type} {jump : Nat → Instr} {rest : CompileM α} {a : α} {σ' : Session}
    (hb : b.AtEnd) (h : forward jump rest ⟨b, scopes, frames, log⟩ = .ok a σ') :
    ∃ τ, rest ⟨b.written [jump 0], scopes, frames, log⟩ = .ok a τ ∧
      ∀ is, τ.buffer = b.written (jump 0 :: is) →
        σ' = { τ with buffer := b.written (jump (b.code.size + 1 + is.length) :: is) } := by
  rw [forward, bind_ok (write_eq hb _), bind_eq_ok] at h
  obtain ⟨_, ⟨buffer, scopes', frames', log'⟩, hr, h⟩ := h
  rw [bind_ok (here_eq _), bind_eq_ok] at h
  obtain ⟨_, τ, hp, h⟩ := h
  obtain ⟨rfl, rfl⟩ := pure_eq_ok.mp h
  refine ⟨_, hr, fun is hbuf => ?_⟩
  dsimp only at hbuf
  subst hbuf
  have hpos : (b.written (jump 0 :: is)).position = b.code.size + 1 + is.length := by
    simp only [Buffer.position_written, List.length_cons]
    omega
  have hpatch := patch_written b scopes' frames' log'
    [] is (jump 0) (jump (b.code.size + 1 + is.length))
  rw [hpos] at hp
  simp only [List.length_nil, Nat.add_zero, List.nil_append] at hpatch
  rw [hpatch] at hp
  cases hp
  rfl

end Around

/-! ## What a part leaves alone -/

theorem Scopes.leave_of_outer {α : Type} {s t : Scopes α} (h : s.outer = t.toList) :
    s.leave = t := by
  simp [Scopes.leave, Levels.leave?, h, Levels.toList]

/-! ## Blocks and functions -/

section Bodies

variable {ctx : Ctx} {σ σ' : Session}

theorem Session.Shows.openedBlock (hσ : σ.Shows ctx) (entry : Nat) :
    σ.openedBlock.Shows (ctx.enterBlock entry) where
  atEnd := Buffer.atEnd_written _ _
  scopes := by rw [Ctx.enterBlock, ← hσ.scopes]; rfl
  current := rfl
  depth := congrArg (· + 1) hσ.depth

/-- **A block** is written around whatever its body writes. -/
theorem inBlock_emits {content : Part} {body : CompileM Unit} (hσ : σ.Shows ctx)
    (hbody : ∀ {inner τ τ'}, τ.Shows inner → body τ = .ok () τ' →
      ∃ sites inner', Part.Emits inner τ.buffer.code.size content sites inner' ∧
        τ.Emitted sites inner' τ')
    (h : inBlock body σ = .ok () σ') :
    ∃ sites, Part.Emits ctx σ.buffer.code.size (.block content) sites ctx ∧
      σ.Emitted sites ctx σ' := by
  rw [inBlock, bind_ok (openBlock_eq hσ.atEnd), bind_eq_ok] at h
  obtain ⟨_, ⟨b', scopes', ⟨current', outer'⟩, log'⟩, hτ, h⟩ := h
  obtain ⟨sites, inner, hemits, hsh, hbuf, hout⟩ :=
    hbody (hσ.openedBlock (σ.buffer.code.size + 5)) hτ
  obtain ⟨hsc, hshapes, -, -⟩ := hemits.outer
  obtain ⟨b, scopes, ⟨⟨next, params⟩, outer⟩, log⟩ := σ
  obtain ⟨hb, hscopes, hcurrent, hdepth⟩ := hσ
  dsimp only [Session.openedBlock, Levels.modify, Levels.enter, Levels.toList, Levels.depth] at *
  simp only [Buffer.size_written, List.length_cons, List.length_nil, Nat.reduceAdd] at hemits
  refine ⟨_, .block hemits, ?_⟩
  subst hbuf hout
  have hclose := closeBlock_eq b scopes' log'
    [.lit 0, .call outer.length (b.code.size + 5), .load outer.length next]
    (.ret outer.length params :: Site.code sites) current' ⟨next + 1, params⟩ outer
  simp only [Buffer.written_written, List.cons_append, List.nil_append, List.length_cons,
    List.length_nil, Nat.reduceAdd] at h hclose
  rw [hclose] at h
  cases h
  refine ⟨⟨Buffer.atEnd_written _ _, ?_, hcurrent, hdepth⟩, ?_, rfl⟩
  · have hs : scopes' = inner.scopes := hsh.scopes
    exact Scopes.leave_of_outer (hs ▸ hsc)
  · have hnext : next = ctx.slots := congrArg Frame.next hcurrent
    have hparams : params = ctx.params := congrArg Frame.params hcurrent
    have hlevel : inner.level = outer.length + 1 := by rw [hdepth, hemits.level]; rfl
    have hend : b.code.size + 3 + 1 + (sites.length + 1) = b.code.size + 5 + sites.length := by
      omega
    dsimp only
    congr 1
    simp [Ctx.openSites, Ctx.closeSites, hdepth, hnext, hparams, hlevel, hend]

theorem Session.Shows.openedFunction {name : String} {names : List String} (hσ : σ.Shows ctx) :
    (σ.openedFunction name names).Shows ((ctx.declareFunc name σ.buffer.code.size
      names.length).enterFunc σ.buffer.code.size names) where
  atEnd := hσ.atEnd
  scopes := by
    have hp : σ.buffer.position = σ.buffer.code.size := hσ.atEnd
    simp only [Session.openedFunction, Ctx.enterFunc, Ctx.declareFunc, hσ.scopes, hσ.depth, hp]
    rfl
  current := rfl
  depth := congrArg (· + 1) hσ.depth

/-- **A function** is written around whatever its body writes. -/
theorem inFunction_emits {name : String} {names : List String} {stmts : List Stmt}
    {body : CompileM Unit} (hσ : σ.Shows ctx)
    (hbody : ∀ {inner τ τ'}, τ.Shows inner → body τ = .ok () τ' →
      ∃ sites inner', Part.Emits inner τ.buffer.code.size (.stmts stmts) sites inner' ∧
        τ.Emitted sites inner' τ')
    (h : CompileM.inFunction name names body σ = .ok () σ') :
    ∃ sites ctx',
      Part.Emits ctx σ.buffer.code.size (.stmt (.function name names stmts)) sites ctx' ∧
        σ.Emitted sites ctx' σ' := by
  rw [inFunction_eq] at h
  obtain ⟨τ, hrest, hpatch⟩ := forward_eq_ok hσ.atEnd h
  rw [bind_ok (openFunction_eq _ _ _), bind_eq_ok] at hrest
  obtain ⟨_, ⟨b', scopes', ⟨current', outer'⟩, log'⟩, hτ, hrest⟩ := hrest
  obtain ⟨sites, inner, hemits, hsh, hbuf, hout⟩ :=
    hbody (hσ.written _ [.jump 0]).openedFunction hτ
  obtain ⟨b, scopes, ⟨current, outer⟩, log⟩ := σ
  obtain ⟨hb, hscopes, hcurrent, hdepth⟩ := hσ
  dsimp only [Session.openedFunction, Levels.enter, Levels.toList, Levels.depth] at *
  simp only [Buffer.size_written, List.length_cons, List.length_nil, Nat.reduceAdd] at hemits
  refine ⟨_, _, .function hemits, ?_⟩
  obtain ⟨hsc, hshapes, -, -⟩ := hemits.outer
  subst hbuf hout
  rw [bind_ok (emit_eq (Buffer.atEnd_written _ _) _),
    bind_ok (emit_eq (Buffer.atEnd_written _ _) _), closeLevel_eq] at hrest
  cases hrest
  rw [hpatch _ (by simp only [Buffer.written_written, List.cons_append, List.nil_append]; rfl)]
  refine ⟨⟨Buffer.atEnd_written _ _, ?_, hcurrent, hdepth⟩, ?_, rfl⟩
  · have hs : scopes' = inner.scopes := hsh.scopes
    rw [Ctx.enterFunc, Scopes.outer_declareParams] at hsc
    exact Scopes.leave_of_outer (hs ▸ hsc)
  · simp [hdepth, Nat.add_assoc]

/-- **A conditional** is written around whatever its parts write. -/
theorem branch_emits {test : Expr} {body : List Stmt} {alternative : Else} (hσ : σ.Shows ctx)
    (hbody : ∀ {τ τ'}, τ.Shows ctx → inBlock (Stmt.compileAll body) τ = .ok () τ' →
      ∃ sites, Part.Emits ctx τ.buffer.code.size (.block (.stmts body)) sites ctx ∧
        τ.Emitted sites ctx τ')
    (hother : ∀ {τ τ'}, τ.Shows ctx → alternative.compile τ = .ok () τ' →
      ∃ sites, Part.Emits ctx τ.buffer.code.size (.otherwise alternative) sites ctx ∧
        τ.Emitted sites ctx τ')
    (h : branch test.compile (inBlock (Stmt.compileAll body)) alternative.compile σ = .ok () σ') :
    ∃ sites, Part.Emits ctx σ.buffer.code.size (.stmt (.cond test body alternative)) sites ctx ∧
      σ.Emitted sites ctx σ' := by
  rw [branch, bind_eq_ok] at h
  obtain ⟨_, τ, ht, h⟩ := h
  obtain ⟨sites₁, hsites₁, rfl⟩ := test.emits_of_compile (t := 0) ht hσ.atEnd hσ.scopes
  rw [bind_ok (emit_eq (Buffer.atEnd_written _ _) _), bind_eq_ok] at h
  obtain ⟨skip, τ₂, hf, h⟩ := h
  -- the branch, with the jump at its end and the jump over both
  obtain ⟨τ₁, hthen, hpatch⟩ := forward_eq_ok (Buffer.atEnd_written _ _) hf
  rw [bind_eq_ok] at hthen
  obtain ⟨_, ⟨b₂, scopes₂, frames₂, log₂⟩, hblock, hthen⟩ := hthen
  simp only [Buffer.written_written] at hblock
  obtain ⟨sites₂, hsites₂, hsh₂, hbuf₂, hout₂⟩ := hbody (hσ.written _ _) hblock
  rw [write_eq hsh₂.atEnd] at hthen
  cases hthen
  dsimp only at hbuf₂
  subst hbuf₂
  have hτ₂ := hpatch (Site.code sites₂ ++ [.jump 0]) (by simp)
  subst hτ₂
  -- the alternative, and the target of the jump at the end of the branch
  rw [bind_eq_ok] at h
  obtain ⟨_, ⟨b₃, scopes₃, frames₃, log₃⟩, halt, h⟩ := h
  obtain ⟨sites₃, hsites₃, hsh₃, hbuf₃, hout₃⟩ := hother (hsh₂.written _ _) halt
  dsimp only at hbuf₃
  subst hbuf₃
  have h₂ : σ.buffer.code.size + (sites₁.length + 2) = σ.buffer.code.size + sites₁.length + 2 := by
    omega
  have h₃ : σ.buffer.code.size + (sites₁.length + (sites₂.length + 1 + 1 + 1)) =
      σ.buffer.code.size + sites₁.length + 2 + sites₂.length + 1 := by omega
  have hjump : σ.buffer.code.size + (sites₁.length + 1) + 1 + (sites₂.length + 1) =
      σ.buffer.code.size + sites₁.length + 2 + sites₂.length + 1 := by omega
  have hend : σ.buffer.code.size + (sites₁.length + (sites₂.length + (sites₃.length + 1) + 1 + 1)) =
      σ.buffer.code.size + sites₁.length + 2 + sites₂.length + 1 + sites₃.length := by omega
  have hpatch := patch_written σ.buffer scopes₃ frames₃ log₃
    (Site.code sites₁ ++ .not ::
      .jumpIf (σ.buffer.code.size + sites₁.length + 2 + sites₂.length + 1) :: Site.code sites₂)
    (Site.code sites₃) (.jump 0)
    (.jump (σ.buffer.code.size + sites₁.length + 2 + sites₂.length + 1 + sites₃.length))
  simp only [bind_run, here_eq, Buffer.written_written, Buffer.size_written,
    Buffer.position_written, Site.length_code, List.append_assoc, List.cons_append,
    List.nil_append, List.length_append, List.length_cons, List.length_nil, Nat.zero_add,
    Nat.reduceAdd, h₂, h₃, hjump, hend] at h hpatch hsites₂ hsites₃
  rw [hpatch] at h
  cases h
  exact ⟨_, .cond hsites₁ hsites₂ hsites₃, hsh₃.written _ _, by simp, hout₃.trans hout₂⟩

/-- Write what stands in the frame of a loop. -/
def compilePasses (first : Stmt) (test : Expr) (after : Stmt) (body : List Stmt) :
    CompileM Unit := do
  first.compile
  let start ← here
  test.compile
  emit .not
  forward .jumpIf do
    inBlock (Stmt.compileAll body)
    after.compile
    emit (.jump start)

/-- **What stands in the frame of a loop** is written around whatever its parts write. -/
theorem passes_emits {first after : Stmt} {test : Expr} {body : List Stmt} (hσ : σ.Shows ctx)
    (hfirst : ∀ {τ τ'}, τ.Shows ctx → first.compile τ = .ok () τ' →
      ∃ sites ctx', Part.Emits ctx τ.buffer.code.size (.stmt first) sites ctx' ∧
        τ.Emitted sites ctx' τ')
    (hbody : ∀ {inner τ τ'}, τ.Shows inner → inBlock (Stmt.compileAll body) τ = .ok () τ' →
      ∃ sites, Part.Emits inner τ.buffer.code.size (.block (.stmts body)) sites inner ∧
        τ.Emitted sites inner τ')
    (hafter : ∀ {inner τ τ'}, τ.Shows inner → after.compile τ = .ok () τ' →
      ∃ sites inner', Part.Emits inner τ.buffer.code.size (.stmt after) sites inner' ∧
        τ.Emitted sites inner' τ')
    (h : compilePasses first test after body σ = .ok () σ') :
    ∃ sites ctx', Part.Emits ctx σ.buffer.code.size (.passes first test after body) sites ctx' ∧
      σ.Emitted sites ctx' σ' := by
  rw [compilePasses, bind_eq_ok] at h
  obtain ⟨_, ⟨b₁, scopes₁, frames₁, log₁⟩, hf, h⟩ := h
  obtain ⟨sites₁, ctx₁, hsites₁, hsh₁, hbuf₁, hout₁⟩ := hfirst hσ hf
  rw [bind_ok (here_eq _), bind_eq_ok] at h
  obtain ⟨_, τ, ht, h⟩ := h
  obtain ⟨sites₂, hsites₂, rfl⟩ := test.emits_of_compile (t := 0) ht hsh₁.atEnd hsh₁.scopes
  rw [bind_ok (emit_eq (Buffer.atEnd_written _ _) _)] at h
  obtain ⟨τ₁, hrest, hpatch⟩ := forward_eq_ok (Buffer.atEnd_written _ _) h
  -- the pass and what follows it
  rw [bind_eq_ok] at hrest
  obtain ⟨_, ⟨b₃, scopes₃, frames₃, log₃⟩, hblock, hrest⟩ := hrest
  obtain ⟨sites₃, hsites₃, hsh₃, hbuf₃, hout₃⟩ := hbody (hsh₁.written _ _) hblock
  rw [bind_eq_ok] at hrest
  obtain ⟨_, ⟨b₄, scopes₄, frames₄, log₄⟩, hupdate, hrest⟩ := hrest
  obtain ⟨sites₄, ctx₂, hsites₄, hsh₄, hbuf₄, hout₄⟩ := hafter hsh₃ hupdate
  rw [emit_eq hsh₄.atEnd] at hrest
  cases hrest
  dsimp only at hbuf₁ hbuf₃ hbuf₄
  subst hbuf₁ hbuf₃ hbuf₄
  have h₃ : σ.buffer.code.size + (sites₁.length + (sites₂.length + 1 + 1)) =
      σ.buffer.code.size + sites₁.length + sites₂.length + 2 := by omega
  have h₄ : σ.buffer.code.size + (sites₁.length + (sites₂.length + (sites₃.length + 1 + 1))) =
      σ.buffer.code.size + sites₁.length + sites₂.length + 2 + sites₃.length := by omega
  have hexit : σ.buffer.code.size + (sites₁.length + (sites₂.length + 1)) + 1 +
        (sites₃.length + (sites₄.length + 1)) =
      σ.buffer.code.size + sites₁.length + sites₂.length + 2 + sites₃.length +
        sites₄.length + 1 := by
    omega
  have hτ := hpatch (Site.code sites₃ ++ Site.code sites₄ ++
    [.jump (σ.buffer.code.size + sites₁.length)]) (by simp)
  simp only [Buffer.written_written, Buffer.size_written, Site.length_code, List.append_assoc,
    List.cons_append, List.nil_append, List.length_append, List.length_cons, List.length_nil,
    Nat.zero_add, Nat.reduceAdd, h₃, h₄, hexit] at hsites₃ hsites₄ hτ
  subst hτ
  exact ⟨_, _, .passes hsites₁ hsites₂ hsites₃ hsites₄, hsh₄.written _ _, by simp,
    hout₄.trans (hout₃.trans hout₁)⟩

end Bodies

/-! ## Statements and programs -/

mutual

/-- **Compiling a statement** appends the code of the statement and leaves the names and the
innermost frame as they are behind it. -/
theorem Stmt.emits_of_compile : ∀ (s : Stmt) {ctx : Ctx} {σ σ' : Session}, σ.Shows ctx →
    s.compile σ = .ok () σ' →
    ∃ sites ctx', Part.Emits ctx σ.buffer.code.size (.stmt s) sites ctx' ∧ σ.Emitted sites ctx' σ'
  | .declare name e, ctx, σ, σ', hσ, h => by
    rw [Stmt.compile, bind_ok (level_eq _), bind_ok (reserve_eq _), bind_ok (emit_eq hσ.atEnd _),
      bind_ok (declare_eq _ _ _), bind_eq_ok] at h
    obtain ⟨_, τ, he, h⟩ := h
    have hnext : σ.frames.current.next = ctx.slots := congrArg Frame.next hσ.current
    have hdeclared := hσ.declared name σ.buffer [.lit 0]
    obtain ⟨sites, hsites, rfl⟩ :=
      e.emits_of_compile (t := 0) he hdeclared.atEnd hdeclared.scopes
    rw [emit_eq (Buffer.atEnd_written _ _)] at h
    cases h
    refine ⟨_, _, .declare hsites, hdeclared.written _ _, ?_, rfl⟩
    simp [hσ.depth, hnext]
  | .assign name e, ctx, σ, σ', hσ, h => by
    rw [Stmt.compile, bind_eq_ok] at h
    obtain ⟨⟨level, offset⟩, τ, ha, h⟩ := h
    obtain ⟨rfl, decl, hr, hslot⟩ := slotOf_eq_ok ha
    rw [bind_eq_ok] at h
    obtain ⟨_, τ, he, h⟩ := h
    obtain ⟨sites, hsites, rfl⟩ := e.emits_of_compile (t := 0) he hσ.atEnd hσ.scopes
    rw [emit_eq (Buffer.atEnd_written _ _)] at h
    cases h
    exact ⟨_, _, .assign (hσ.scopes ▸ hr) hslot hsites, hσ.written _ _, by simp, rfl⟩
  | .function name names body, ctx, σ, σ', hσ, h => by
    rw [Stmt.compile] at h
    exact inFunction_emits hσ (Stmt.emitsAll_of_compile body) h
  | .ret none, ctx, σ, σ', hσ, h => by
    rw [Stmt.compile, bind_ok (emit_eq hσ.atEnd _), emitReturn_eq (Buffer.atEnd_written _ _)] at h
    cases h
    refine ⟨_, _, .ret, hσ.written _ _, ?_, rfl⟩
    simp [hσ.depth, hσ.current, Ctx.params, Shape.frame]
  | .ret (some e), ctx, σ, σ', hσ, h => by
    rw [Stmt.compile, bind_eq_ok] at h
    obtain ⟨_, τ, he, h⟩ := h
    obtain ⟨sites, hsites, rfl⟩ := e.emits_of_compile (t := 0) he hσ.atEnd hσ.scopes
    rw [emitReturn_eq (Buffer.atEnd_written _ _)] at h
    cases h
    refine ⟨_, _, .retValue hsites, hσ.written _ _, ?_, rfl⟩
    simp [hσ.depth, hσ.current, Ctx.params, Shape.frame]
  | .cond test body alternative, ctx, σ, σ', hσ, h => by
    rw [Stmt.compile] at h
    obtain ⟨sites, hsites, hemitted⟩ := branch_emits hσ
      (fun hτ hblock => inBlock_emits hτ (Stmt.emitsAll_of_compile body) hblock)
      (Else.emits_of_compile alternative) h
    exact ⟨sites, ctx, hsites, hemitted⟩
  | .loop first test after body, ctx, σ, σ', hσ, h => by
    rw [Stmt.compile] at h
    have hpasses {inner : Ctx} {τ τ' : Session} (hτ : τ.Shows inner)
        (hcompile : compilePasses first test after body τ = .ok () τ') :
        ∃ sites inner', Part.Emits inner τ.buffer.code.size (.passes first test after body) sites
          inner' ∧ τ.Emitted sites inner' τ' :=
      passes_emits hτ (Stmt.emits_of_compile first)
        (fun hτ hblock => inBlock_emits hτ (Stmt.emitsAll_of_compile body) hblock)
        (Stmt.emits_of_compile after) hcompile
    obtain ⟨sites, hsites, hemitted⟩ := inBlock_emits hσ hpasses h
    exact ⟨sites, ctx, .loop hsites, hemitted⟩
  | .block body, ctx, σ, σ', hσ, h => by
    rw [Stmt.compile] at h
    obtain ⟨sites, hsites, hemitted⟩ := inBlock_emits hσ (Stmt.emitsAll_of_compile body) h
    exact ⟨sites, ctx, .blockStmt hsites, hemitted⟩
  | .expr e, ctx, σ, σ', hσ, h => by
    rw [Stmt.compile, bind_eq_ok] at h
    obtain ⟨_, τ, he, h⟩ := h
    obtain ⟨sites, hsites, rfl⟩ := e.emits_of_compile (t := 0) he hσ.atEnd hσ.scopes
    rw [emit_eq (Buffer.atEnd_written _ _)] at h
    cases h
    exact ⟨_, _, .expr hsites, hσ.written _ _, by simp, rfl⟩
  | .empty, ctx, σ, σ', hσ, h => by
    rw [Stmt.compile, pure_eq_ok] at h
    obtain ⟨-, rfl⟩ := h
    exact ⟨[], ctx, .empty, hσ, by simp [hσ.atEnd.written_nil], rfl⟩

theorem Stmt.emitsAll_of_compile : ∀ (body : List Stmt) {ctx : Ctx} {σ σ' : Session}, σ.Shows ctx →
    Stmt.compileAll body σ = .ok () σ' →
    ∃ sites ctx', Part.Emits ctx σ.buffer.code.size (.stmts body) sites ctx' ∧
      σ.Emitted sites ctx' σ'
  | [], ctx, σ, σ', hσ, h => by
    rw [Stmt.compileAll, pure_eq_ok] at h
    obtain ⟨-, rfl⟩ := h
    exact ⟨[], ctx, .nil, hσ, by simp [hσ.atEnd.written_nil], rfl⟩
  | s :: rest, ctx, σ, σ', hσ, h => by
    rw [Stmt.compileAll, bind_eq_ok] at h
    obtain ⟨_, τ, hs, h⟩ := h
    obtain ⟨sites₁, ctx₁, hsites₁, hsh₁, hbuf₁, hout₁⟩ := Stmt.emits_of_compile s hσ hs
    obtain ⟨sites₂, ctx₂, hsites₂, hsh₂, hbuf₂, hout₂⟩ := Stmt.emitsAll_of_compile rest hsh₁ h
    have hsize : τ.buffer.code.size = σ.buffer.code.size + sites₁.length := by simp [hbuf₁]
    rw [hsize] at hsites₂
    exact ⟨_, _, .cons hsites₁ hsites₂, hsh₂, by simp [hbuf₂, hbuf₁], hout₂.trans hout₁⟩

theorem Else.emits_of_compile : ∀ (alternative : Else) {ctx : Ctx} {σ σ' : Session}, σ.Shows ctx →
    alternative.compile σ = .ok () σ' →
    ∃ sites, Part.Emits ctx σ.buffer.code.size (.otherwise alternative) sites ctx ∧
      σ.Emitted sites ctx σ'
  | .none, ctx, σ, σ', hσ, h => by
    rw [Else.compile, pure_eq_ok] at h
    obtain ⟨-, rfl⟩ := h
    exact ⟨[], .noElse, hσ, by simp [hσ.atEnd.written_nil], rfl⟩
  | .block body, ctx, σ, σ', hσ, h => by
    rw [Else.compile] at h
    obtain ⟨sites, hsites, hemitted⟩ := inBlock_emits hσ (Stmt.emitsAll_of_compile body) h
    exact ⟨sites, .elseBlock hsites, hemitted⟩
  | .cond test body alternative, ctx, σ, σ', hσ, h => by
    rw [Else.compile] at h
    obtain ⟨sites, hsites, hemitted⟩ := branch_emits hσ
      (fun hτ hblock => inBlock_emits hτ (Stmt.emitsAll_of_compile body) hblock)
      (Else.emits_of_compile alternative) h
    exact ⟨sites, .elseCond hsites, hemitted⟩

end

theorem Stmt.compileAll_append (l r : List Stmt) :
    Stmt.compileAll (l ++ r) = (do Stmt.compileAll l; Stmt.compileAll r) := by
  induction l with
  | nil => simp [Stmt.compileAll]
  | cons s l ih => simp [Stmt.compileAll, ih]

/-- The session in which the first statement of a program is compiled. -/
def Session.starting (σ : Session) (program : Program) : Session :=
  { σ with log := σ.log.push (.compiling program.length) }

theorem Session.shows_starting (program : Program) :
    (Session.initial.starting program).Shows .initial :=
  ⟨rfl, rfl, rfl, rfl⟩

/-- **A program is compiled as its statements are**, but for what is reported. -/
theorem Program.compile_eq (program : Program) (σ : Session) : Program.compile program σ =
    match Stmt.compileAll program (σ.starting program) with
    | .ok _ τ => .ok () { τ with log := τ.log.push (.compiled τ.buffer.code.size) }
    | .error e τ => .error e τ := by
  rw [Program.compile, bind_ok (record_eq _ _), bind_run, ← Session.starting]
  cases Stmt.compileAll program (σ.starting program) <;> rfl

theorem Program.compile_eq_ok {program : Program} {σ τ : Session} :
    Program.compile program σ = .ok () τ ↔
      ∃ τ', Stmt.compileAll program (σ.starting program) = .ok () τ' ∧
        { τ' with log := τ'.log.push (.compiled τ'.buffer.code.size) } = τ := by
  rw [Program.compile_eq]
  cases Stmt.compileAll program (σ.starting program) <;> simp

theorem Program.compile_eq_error {program : Program} {σ τ : Session} {e : CompileError} :
    Program.compile program σ = .error e τ ↔
      Stmt.compileAll program (σ.starting program) = .error e τ := by
  rw [Program.compile_eq]
  cases Stmt.compileAll program (σ.starting program) <;> simp

theorem compile_eq (program : Program) : compile program =
    match Stmt.compileAll program (Session.initial.starting program) with
    | .ok _ τ => .ok τ.buffer.code
    | .error e _ => .error e := by
  unfold compile EStateM.run
  rw [Program.compile_eq]
  cases Stmt.compileAll program (Session.initial.starting program) <;> rfl

theorem compileAll_of_compile {program : Program} {code : Code} (h : compile program = .ok code) :
    ∃ σ, Stmt.compileAll program (Session.initial.starting program) = .ok () σ ∧
      σ.buffer.code = code := by
  rw [compile_eq] at h
  cases hσ : Stmt.compileAll program (Session.initial.starting program) with
  | ok _ σ =>
    rw [hσ] at h
    exact ⟨σ, rfl, Except.ok.inj h⟩
  | error e σ =>
    rw [hσ] at h
    cases h

/-- **The code of a compiled program** is that of `print`, followed by that of its statements. -/
theorem emits_of_compile {program : Program} {code : Code} (h : compile program = .ok code) :
    ∃ sites ctx, Part.Emits .initial 5 (.stmts program) sites ctx ∧
      code.toList = Site.code (printSites ++ sites) := by
  obtain ⟨σ, hσ, rfl⟩ := compileAll_of_compile h
  obtain ⟨sites, ctx, hsites, -, hbuf, -⟩ :=
    Stmt.emitsAll_of_compile program (Session.shows_starting program) hσ
  refine ⟨sites, ctx, hsites, ?_⟩
  rw [hbuf, Buffer.toList_written, Site.code_append]
  rfl

end NestLang
