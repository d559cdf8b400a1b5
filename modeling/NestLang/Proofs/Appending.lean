import NestLang.Proofs.Emission

/-!
# Code is only appended

Whatever the compiler does, the instructions written before stay where they are, and the position
stays at the end of the code. This holds also of a compilation that fails, at whatever depth.

* `Leads`: what an action leads to, whether it succeeds or fails.
* `Session.Holds`: a session that has only appended to a buffer.
* `Appends`: an action that only appends.
* `Stmt.appends`, `Program.appends`: **compiling only appends.**
-/

namespace NestLang

open CompileM

/-! ## Both ways an action can end -/

/-- From a session as `P` tells, the action succeeds with a result and a session as `Q` tells, or
fails with a session as `E` tells. -/
def Leads {α : Type} (P : Session → Prop) (x : CompileM α) (Q : α → Session → Prop)
    (E : Session → Prop) : Prop :=
  ∀ σ, P σ → match x σ with
    | .ok a τ => Q a τ
    | .error _ τ => E τ

namespace Leads

variable {α β : Type} {P E : Session → Prop} {x : CompileM α} {f : α → CompileM β}
  {Q : α → Session → Prop} {R : β → Session → Prop}

/-- **One action after the other.** -/
theorem bind (first : Leads P x Q E) (rest : ∀ a, Leads (Q a) (f a) R E) :
    Leads P (x >>= f) R E := by
  intro σ hσ
  have h := first σ hσ
  rw [bind_run]
  cases hx : x σ with
  | ok a τ =>
    rw [hx] at h
    exact rest a τ h
  | error e τ =>
    rw [hx] at h
    exact h

theorem mono {P' : Session → Prop} {Q' : α → Session → Prop} (h : Leads P x Q E)
    (before : ∀ σ, P' σ → P σ) (after : ∀ a σ, Q a σ → Q' a σ) : Leads P' x Q' E := by
  intro σ hσ
  have h := h σ (before σ hσ)
  cases hx : x σ with
  | ok a τ =>
    rw [hx] at h
    exact after a τ h
  | error e τ =>
    rw [hx] at h
    exact h

end Leads

/-! ## Sessions that have only appended -/

/-- To the buffer `b` instructions were only appended, among them those at the given addresses. -/
structure Session.Holds (b : Buffer) (addresses : List Nat) (σ : Session) : Prop where
  written : ∃ is, σ.buffer = b.written is
  since : ∀ a ∈ addresses, b.code.size ≤ a ∧ a < σ.buffer.code.size

/-- The action only appends instructions, whether it succeeds or fails. -/
def Appends {α : Type} (x : CompileM α) : Prop :=
  ∀ b as, Leads (Session.Holds b as) x (fun _ => Session.Holds b as) (Session.Holds b [])

namespace Session.Holds

variable {b : Buffer} {as as' : List Nat} {σ τ : Session}

theorem atEnd (h : σ.Holds b as) : σ.buffer.AtEnd := by
  obtain ⟨is, hb⟩ := h.written
  rw [hb]
  exact Buffer.atEnd_written b is

theorem weaken (h : σ.Holds b as) (subset : ∀ a ∈ as', a ∈ as) : σ.Holds b as' :=
  ⟨h.written, fun a ha => h.since a (subset a ha)⟩

theorem forget (h : σ.Holds b as) : σ.Holds b [] := h.weaken fun _ ha => absurd ha List.not_mem_nil

theorem congr (h : σ.Holds b as) (same : τ.buffer = σ.buffer) : τ.Holds b as :=
  ⟨same ▸ h.written, same ▸ h.since⟩

theorem append (h : σ.Holds b as) {is : List Instr} (same : τ.buffer = σ.buffer.written is) :
    τ.Holds b as := by
  obtain ⟨js, hb⟩ := h.written
  refine ⟨⟨js ++ is, ?_⟩, fun a ha => ?_⟩
  · rw [same, hb, Buffer.written_written]
  · have := h.since a ha
    rw [same, Buffer.size_written]
    omega

end Session.Holds

/-! ## Actions -/

section Actions

variable {α β : Type} {x : CompileM α} {f : α → CompileM β} {b : Buffer} {as : List Nat}

theorem Appends.bind (first : Appends x) (rest : ∀ a, Appends (f a)) : Appends (x >>= f) :=
  fun b as => (first b as).bind fun a => rest a b as

theorem appends_of_buffer (h : ∀ σ, match x σ with
    | .ok _ τ | .error _ τ => τ.buffer = σ.buffer) : Appends x := by
  intro b as σ hσ
  have h := h σ
  cases hx : x σ with
  | ok a τ =>
    rw [hx] at h
    exact hσ.congr h
  | error e τ =>
    rw [hx] at h
    exact (hσ.congr h).forget

theorem appends_pure (a : α) : Appends (pure a : CompileM α) := appends_of_buffer fun _ => rfl

theorem write_leads (i : Instr) :
    Leads (Session.Holds b as) (write i) (fun a => Session.Holds b (a :: as))
      (Session.Holds b []) := by
  intro σ hσ
  rw [write_eq hσ.atEnd]
  have grown : Session.Holds b as ⟨σ.buffer.written [i], σ.scopes, σ.frames, σ.log⟩ :=
    hσ.append rfl
  refine ⟨grown.written, fun a ha => ?_⟩
  rcases List.mem_cons.1 ha with rfl | ha
  · obtain ⟨is, hb⟩ := hσ.written
    simp only [hb, Buffer.size_written]
    exact ⟨Nat.le_add_right _ _, Nat.lt_succ_self _⟩
  · exact grown.since a ha

theorem appends_write (i : Instr) : Appends (write i) := fun _ _ =>
  (write_leads i).mono (fun _ h => h) fun _ _ h => h.weaken fun _ => List.mem_cons_of_mem _

theorem appends_emit (i : Instr) : Appends (emit i) :=
  (appends_write i).bind fun _ => appends_pure ()

theorem appends_emitReturn : Appends emitReturn :=
  (appends_of_buffer fun _ => rfl).bind fun _ =>
    (appends_of_buffer fun _ => rfl).bind fun _ => appends_emit _

/-- **A patch** of what was written since changes nothing before. -/
theorem patch_leads {a : Nat} (since : a ∈ as) (i : Instr) :
    Leads (Session.Holds b as) (patch a i) (fun _ => Session.Holds b as) (Session.Holds b []) := by
  intro σ hσ
  obtain ⟨is, hb⟩ := hσ.written
  have inside := hσ.since a since
  rw [hb, Buffer.size_written] at inside
  obtain ⟨buffer, scopes, frames, log⟩ := σ
  dsimp only at hb
  subst hb
  have split : is.take (a - b.code.size) ++ is.drop (a - b.code.size) = is :=
    List.take_append_drop _ _
  cases rest : is.drop (a - b.code.size) with
  | nil =>
    have short := List.drop_eq_nil_iff.1 rest
    omega
  | cons old behind =>
    rw [rest] at split
    have address : b.code.size + (is.take (a - b.code.size)).length = a := by
      rw [List.length_take]
      omega
    have patched := patch_written b scopes frames log (is.take (a - b.code.size)) behind old i
    rw [split, address] at patched
    rw [patched]
    refine ⟨⟨_, rfl⟩, fun a' ha' => ?_⟩
    have := hσ.since a' ha'
    rw [← split] at this
    simpa using this

theorem forward_leads {jump : Nat → Instr} {rest : CompileM α} (new : α → List Nat)
    (h : ∀ as, Leads (Session.Holds b as) rest (fun r => Session.Holds b (new r ++ as))
      (Session.Holds b [])) :
    Leads (Session.Holds b as) (forward jump rest) (fun r => Session.Holds b (new r ++ as))
      (Session.Holds b []) := by
  refine (write_leads _).bind fun address => (h _).bind fun r => ?_
  refine (appends_of_buffer (fun _ => rfl) _ _).bind fun stop => ?_
  refine (patch_leads (List.mem_append_right _ List.mem_cons_self) _).bind fun _ => ?_
  intro σ hσ
  refine hσ.weaken fun a ha => ?_
  rcases List.mem_append.1 ha with ha | ha
  · exact List.mem_append_left _ ha
  · exact List.mem_append_right _ (List.mem_cons_of_mem _ ha)

theorem Appends.forward {jump : Nat → Instr} {rest : CompileM α} (h : Appends rest) :
    Appends (CompileM.forward jump rest) :=
  fun b _ => forward_leads (fun _ => []) fun as => h b as

/-- **A conditional** only appends if its parts do. -/
theorem Appends.branch {test body alternative : CompileM Unit} (htest : Appends test)
    (hbody : Appends body) (hother : Appends alternative) :
    Appends (CompileM.branch test body alternative) := by
  intro b as
  refine (htest b as).bind fun _ => (appends_emit _ b as).bind fun _ => ?_
  refine (forward_leads (fun skip => [skip]) fun as =>
    (hbody b as).bind fun _ => write_leads _).bind fun skip => ?_
  refine (hother b _).bind fun _ => (appends_of_buffer (fun _ => rfl) b _).bind fun stop => ?_
  exact (patch_leads List.mem_cons_self _).mono (fun _ h => h) fun _ _ h =>
    h.weaken fun _ => List.mem_cons_of_mem _

theorem appends_closeLevel (kind : LevelKind) : Appends (closeLevel kind) := by
  refine (appends_of_buffer fun _ => rfl).bind fun σ => ?_
  cases σ.frames.leave? with
  | some frames => exact appends_of_buffer fun _ => rfl
  | none => exact appends_of_buffer fun _ => rfl

theorem openBlock_leads : Leads (Session.Holds b as) openBlock
    (fun skip => Session.Holds b (skip :: as)) (Session.Holds b []) := by
  refine (appends_of_buffer (fun _ => rfl) b as).bind fun outer => ?_
  refine (appends_of_buffer (fun _ => rfl) b as).bind fun flag => ?_
  refine (appends_emit _ b as).bind fun _ => (write_leads _).bind fun call => ?_
  refine (appends_emit _ b _).bind fun _ => (write_leads _).bind fun skip => ?_
  refine (appends_emitReturn b _).bind fun _ => ?_
  refine (appends_of_buffer (fun _ => rfl) b _).bind fun entry => ?_
  refine (patch_leads (List.mem_cons_of_mem _ List.mem_cons_self) _).bind fun _ => ?_
  refine (appends_of_buffer (fun _ => rfl) b _).bind fun _ => ?_
  refine (appends_of_buffer (fun _ => rfl) b _).bind fun _ => ?_
  intro σ hσ
  refine hσ.weaken fun a ha => ?_
  rcases List.mem_cons.1 ha with rfl | ha
  · exact List.mem_cons_self
  · exact List.mem_cons_of_mem _ (List.mem_cons_of_mem _ ha)

theorem closeBlock_leads (skip : Nat) : Leads (Session.Holds b (skip :: as)) (closeBlock skip)
    (fun _ => Session.Holds b as) (Session.Holds b []) := by
  refine (appends_of_buffer (fun _ => rfl) b _).bind fun inner => ?_
  refine (appends_emit _ b _).bind fun _ => (appends_emit _ b _).bind fun _ => ?_
  refine (appends_emit _ b _).bind fun _ => (appends_emit _ b _).bind fun _ => ?_
  refine (appends_closeLevel _ b _).bind fun _ => ?_
  refine (appends_of_buffer (fun _ => rfl) b _).bind fun stop => ?_
  refine (patch_leads List.mem_cons_self _).bind fun _ => ?_
  refine (appends_emit _ b _).bind fun _ => (appends_emit _ b _).bind fun _ => ?_
  refine (appends_of_buffer (fun _ => rfl) b _).bind fun _ => ?_
  exact (appends_of_buffer (fun _ => rfl) b _).mono (fun _ h => h) fun _ _ h =>
    h.weaken fun _ => List.mem_cons_of_mem _

/-- **A block** only appends if its body does. -/
theorem Appends.inBlock {body : CompileM Unit} (h : Appends body) :
    Appends (CompileM.inBlock body) :=
  fun b _ => openBlock_leads.bind fun skip => (h b _).bind fun _ => closeBlock_leads skip

theorem appends_declareParams (level : Nat) (names : List String) :
    Appends (declareParams level names) := by
  induction names with
  | nil => exact appends_pure ()
  | cons name names ih => exact (appends_of_buffer fun _ => rfl).bind fun _ => ih

/-- **A function** only appends if its body does. -/
theorem Appends.inFunction {body : CompileM Unit} (h : Appends body) (name : String)
    (names : List String) : Appends (CompileM.inFunction name names body) := by
  refine Appends.forward ?_
  refine (appends_of_buffer fun _ => rfl).bind fun outer => ?_
  refine (appends_of_buffer fun _ => rfl).bind fun entry => ?_
  refine (appends_of_buffer fun _ => rfl).bind fun _ => ?_
  refine (appends_of_buffer fun _ => rfl).bind fun _ => ?_
  refine (appends_of_buffer fun _ => rfl).bind fun _ => ?_
  refine (appends_of_buffer fun _ => rfl).bind fun inner => ?_
  refine (appends_declareParams inner names).bind fun _ => h.bind fun _ => ?_
  exact (appends_emit _).bind fun _ => (appends_emit _).bind fun _ => appends_closeLevel _

end Actions

/-! ## Compiling -/

theorem appends_resolve {α : Type} {name : String} {f : Option Decl → CompileM α}
    (h : ∀ meaning, Appends (f meaning)) : Appends (resolve? name >>= f) :=
  (appends_of_buffer fun _ => rfl).bind h

theorem appends_slotOf (function undeclared : CompileError) (name : String) :
    Appends (slotOf function undeclared name) := by
  refine appends_resolve fun meaning => ?_
  rcases meaning with _ | (_ | _ | _) <;> exact appends_of_buffer fun _ => rfl

theorem appends_callTarget (name : String) (given : Nat) : Appends (callTarget name given) := by
  refine appends_resolve fun meaning => ?_
  rcases meaning with _ | (_ | _ | ⟨level, entry, params⟩)
  case some.func =>
    by_cases same : given = params
    · simp only [if_pos same]
      exact appends_pure _
    · simp only [if_neg same]
      exact appends_of_buffer fun _ => rfl
  all_goals exact appends_of_buffer fun _ => rfl

theorem appends_postTarget (op : PostOp) (operand : Expr) : Appends (postTarget op operand) := by
  cases operand with
  | var name =>
    refine appends_resolve fun meaning => ?_
    rcases meaning with _ | (_ | _ | _) <;> exact appends_of_buffer fun _ => rfl
  | _ => exact appends_of_buffer fun _ => rfl

theorem UnaryOp.appends (op : UnaryOp) : Appends op.compile := by
  cases op with
  | not | minus => exact appends_emit _
  | plus => exact appends_pure ()

mutual

theorem Expr.appends : (e : Expr) → Appends e.compile
  | .int _ | .bool _ => appends_emit _
  | .var name => (appends_slotOf _ _ name).bind fun _ => appends_emit _
  | .call name args => (appends_callTarget name args.length).bind fun _ =>
      (Expr.appendsAll args).bind fun _ => appends_emit _
  | .unary op operand => operand.appends.bind fun _ => op.appends
  | .binary _ left right => left.appends.bind fun _ => right.appends.bind fun _ => appends_emit _
  | .post op operand => (appends_postTarget op operand).bind fun _ =>
      (appends_emit _).bind fun _ => (appends_emit _).bind fun _ => (appends_emit _).bind fun _ =>
        (appends_emit _).bind fun _ => appends_emit _

theorem Expr.appendsAll : (es : List Expr) → Appends (Expr.compileAll es)
  | [] => appends_pure ()
  | e :: es => e.appends.bind fun _ => Expr.appendsAll es

end

theorem appends_passes {first after : Stmt} {test : Expr} {body : List Stmt}
    (hfirst : Appends first.compile) (hafter : Appends after.compile)
    (hbody : Appends (Stmt.compileAll body)) : Appends (compilePasses first test after body) := by
  refine hfirst.bind fun _ => (appends_of_buffer fun _ => rfl).bind fun start => ?_
  refine test.appends.bind fun _ => (appends_emit _).bind fun _ => Appends.forward ?_
  exact hbody.inBlock.bind fun _ => hafter.bind fun _ => appends_emit _

mutual

theorem Stmt.appends : (s : Stmt) → Appends s.compile
  | .declare _ value => (appends_of_buffer fun _ => rfl).bind fun _ =>
      (appends_of_buffer fun _ => rfl).bind fun _ => (appends_emit _).bind fun _ =>
        (appends_of_buffer fun _ => rfl).bind fun _ => value.appends.bind fun _ => appends_emit _
  | .assign name value => (appends_slotOf _ _ name).bind fun _ =>
      value.appends.bind fun _ => appends_emit _
  | .function name params body => (Stmt.appendsAll body).inFunction name params
  | .ret none => (appends_emit _).bind fun _ => appends_emitReturn
  | .ret (some value) => value.appends.bind fun _ => appends_emitReturn
  | .cond test body alternative =>
    test.appends.branch (Stmt.appendsAll body).inBlock alternative.appends
  | .loop first _ after body =>
    (appends_passes first.appends after.appends (Stmt.appendsAll body)).inBlock
  | .block body => (Stmt.appendsAll body).inBlock
  | .expr value => value.appends.bind fun _ => appends_emit _
  | .empty => appends_pure ()

/-- **Compiling only appends**, whether it succeeds or fails. -/
theorem Stmt.appendsAll : (body : List Stmt) → Appends (Stmt.compileAll body)
  | [] => appends_pure ()
  | s :: rest => s.appends.bind fun _ => Stmt.appendsAll rest

theorem Else.appends : (alternative : Else) → Appends alternative.compile
  | .none => appends_pure ()
  | .block body => (Stmt.appendsAll body).inBlock
  | .cond test body alternative =>
    test.appends.branch (Stmt.appendsAll body).inBlock alternative.appends

end

theorem Program.appends (program : Program) : Appends (Program.compile program) := by
  refine (appends_of_buffer fun _ => rfl).bind fun _ => (Stmt.appendsAll program).bind fun _ => ?_
  exact (appends_of_buffer fun _ => rfl).bind fun _ => appends_of_buffer fun _ => rfl

end NestLang
