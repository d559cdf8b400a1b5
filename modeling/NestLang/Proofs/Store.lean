import NestLang.Proofs.Follow
import NestLang.Proofs.Typing

/-!
# Cells and slots

The cells of the memory in which a tree is evaluated lie in slots of the stack, and the bindings of
names lead to the slots and to the code that the compiler has declared for them.

* `Places`, `Models`: where the cells lie, and that they hold the same values there.
* `Kept`: what code leaves unchanged on the stack.
* `Binds`, `Binds.find`: names are bound to what they are declared as.
* `Binds.bindAll`: **parameters are bound to the arguments below the frame.**
-/

namespace NestLang

/-! ## Places -/

/-- The slot of every cell that has one. -/
abbrev Places := Nat → Option Nat

/-- No cell lies in the slot. -/
def Places.Free (φ : Places) (a : Nat) : Prop := ∀ i, φ i ≠ some a

/-- A cell gets a slot. -/
def Places.set (φ : Places) (i a : Nat) : Places := fun j => if j = i then some a else φ j

/-- Some more cells have got slots, none of them below `m`. -/
structure Places.Extends (φ φ' : Places) (m : Nat) : Prop where
  old : ∀ {i a}, φ i = some a → φ' i = some a
  new : ∀ {i a}, φ' i = some a → φ i = some a ∨ m ≤ a

/-- The cells that have slots hold the same values there. -/
structure Models (φ : Places) (mem : Memory) (stack : Stack) : Prop where
  inj : ∀ {i j a}, φ i = some a → φ j = some a → i = j
  holds : ∀ {i a}, φ i = some a → ∃ v, mem.cells[i]? = some v ∧ stack[a]? = some v

/-- Below `m` the stack has changed only as the cells have. -/
structure Kept (φ : Places) (m : Nat) (stack : Stack) (mem' : Memory) (stack' : Stack) : Prop where
  holds : ∀ {i a}, φ i = some a → a < m → ∃ v, mem'.cells[i]? = some v ∧ stack'[a]? = some v
  frame : ∀ {a}, a < m → φ.Free a → stack'[a]? = stack[a]?

section Places

variable {φ φ' φ'' : Places} {m m' : Nat} {mem mem' mem'' : Memory} {stack stack' stack'' : Stack}

theorem Places.Extends.refl : φ.Extends φ m := ⟨id, .inl⟩

theorem Places.Extends.trans (h₁ : φ.Extends φ' m) (h₂ : φ'.Extends φ'' m') (le : m ≤ m') :
    φ.Extends φ'' m where
  old := fun h => h₂.old (h₁.old h)
  new := fun h => by
    rcases h₂.new h with h | h
    · exact h₁.new h
    · exact .inr (Nat.le_trans le h)

theorem Places.Extends.mono (h : φ.Extends φ' m) (le : m' ≤ m) : φ.Extends φ' m' where
  old := h.old
  new := fun place => (h.new place).imp_right (Nat.le_trans le)

theorem Places.Free.extends {a : Nat} (h : φ.Free a) (ext : φ.Extends φ' m) (lt : a < m) :
    φ'.Free a := by
  intro i hi
  rcases ext.new hi with old | new
  · exact h i old
  · exact absurd lt (Nat.not_lt_of_le new)

theorem Models.lt_size {i a : Nat} (h : Models φ mem stack) (place : φ i = some a) :
    a < stack.size := by
  obtain ⟨v, -, value⟩ := h.holds place
  exact (Array.getElem?_eq_some_iff.1 value).1

theorem Models.free {a : Nat} (h : Models φ mem stack) (le : stack.size ≤ a) : φ.Free a :=
  fun _ place => absurd (h.lt_size place) (Nat.not_lt_of_le le)

theorem Models.kept (h : Models φ mem stack) (m : Nat) : Kept φ m stack mem stack :=
  ⟨fun place _ => h.holds place, fun _ _ => rfl⟩

theorem Models.of_kept (h : Models φ mem stack) (kept : Kept φ stack.size stack mem' stack') :
    Models φ mem' stack' where
  inj := h.inj
  holds := fun place => kept.holds place (h.lt_size place)

theorem Models.restrict (h : Models φ' mem stack) (ext : φ.Extends φ' m) : Models φ mem stack where
  inj := fun place place' => h.inj (ext.old place) (ext.old place')
  holds := fun place => h.holds (ext.old place)

theorem Models.congr (h : Models φ mem stack)
    (agree : ∀ a < stack.size, stack'[a]? = stack[a]?) : Models φ mem stack' where
  inj := h.inj
  holds := fun place => by
    rw [agree _ (h.lt_size place)]
    exact h.holds place

theorem Kept.mono (h : Kept φ m stack mem' stack') (le : m' ≤ m) : Kept φ m' stack mem' stack' :=
  ⟨fun place lt => h.holds place (Nat.lt_of_lt_of_le lt le),
    fun lt => h.frame (Nat.lt_of_lt_of_le lt le)⟩

theorem Kept.trans (h₁ : Kept φ m stack mem' stack') (h₂ : Kept φ' m' stack' mem'' stack'')
    (ext : φ.Extends φ' m) (le : m ≤ m') : Kept φ m stack mem'' stack'' where
  holds := fun place lt => h₂.holds (ext.old place) (Nat.lt_of_lt_of_le lt le)
  frame := fun lt free =>
    (h₂.frame (Nat.lt_of_lt_of_le lt le) (free.extends ext lt)).trans (h₁.frame lt free)

theorem Kept.congr (h : Kept φ m stack mem' stack') (agree : ∀ a < m, stack''[a]? = stack'[a]?) :
    Kept φ m stack mem' stack'' where
  holds := fun place lt => by
    rw [agree _ lt]
    exact h.holds place lt
  frame := fun lt free => (agree _ lt).trans (h.frame lt free)

theorem Models.write {i a : Nat} (h : Models φ mem stack) (place : φ i = some a) (v : Value)
    (m : Nat) : Kept φ m stack ⟨mem.cells.setIfInBounds i v, mem.output⟩
      (stack.setIfInBounds a v) where
  holds := fun {j b} place' _ => by
    obtain ⟨w, cell, value⟩ := h.holds place'
    by_cases same : j = i
    · subst same
      obtain rfl : a = b := Option.some.inj (place.symm.trans place')
      obtain ⟨inside, -⟩ := Array.getElem?_eq_some_iff.1 cell
      exact ⟨v, Array.getElem?_setIfInBounds_self_of_lt inside,
        Array.getElem?_setIfInBounds_self_of_lt (h.lt_size place)⟩
    · have other : a ≠ b := fun eq => same (h.inj place' (eq ▸ place))
      refine ⟨w, ?_, ?_⟩
      · rw [Array.getElem?_setIfInBounds_ne (Ne.symm same), cell]
      · rw [Array.getElem?_setIfInBounds_ne other, value]
  frame := fun {b} _ free => by
    have other : a ≠ b := fun eq => free i (eq ▸ place)
    rw [Array.getElem?_setIfInBounds_ne other]

theorem Models.none_of_fresh (h : Models φ mem stack) : φ mem.cells.size = none := by
  cases place : φ mem.cells.size with
  | none => rfl
  | some a =>
    obtain ⟨v, cell, -⟩ := h.holds place
    simp at cell

theorem Models.extends_set {a : Nat} (h : Models φ mem stack) (le : m ≤ a) :
    φ.Extends (φ.set mem.cells.size a) m where
  old := fun {i b} place => by
    have ne : i ≠ mem.cells.size := by
      rintro rfl
      rw [h.none_of_fresh] at place
      cases place
    rwa [Places.set, if_neg ne]
  new := fun {i b} place => by
    rw [Places.set] at place
    split at place
    · cases place
      exact .inr le
    · exact .inl place

theorem Models.allocate {a : Nat} {v : Value} (h : Models φ mem stack) (free : φ.Free a)
    (value : stack[a]? = some v) :
    Models (φ.set mem.cells.size a) ⟨mem.cells.push v, mem.output⟩ stack where
  inj := fun {i j b} place place' => by
    rw [Places.set] at place place'
    split at place <;> split at place'
    · simp_all
    · cases place
      exact absurd place' (free j)
    · cases place'
      exact absurd place (free i)
    · exact h.inj place place'
  holds := fun {i b} place => by
    rw [Places.set] at place
    split at place
    · next new =>
      cases place
      exact ⟨v, by rw [new, Array.getElem?_push_size], value⟩
    · next old =>
      obtain ⟨w, cell, value⟩ := h.holds place
      exact ⟨w, by rw [Array.getElem?_push, if_neg old, cell], value⟩

end Places

/-! ## Code of parts -/

/-- The fuel that evaluating a part takes, apart from the calls and from the passes of loops. -/
noncomputable def Part.weight : Part → Nat
  | .stmt s => 3 * sizeOf s + 1
  | .stmts body => 3 * sizeOf body + 1
  | .otherwise alternative => 3 * sizeOf alternative + 1
  | .passes first test after body =>
    3 * (sizeOf first + sizeOf test + sizeOf after + sizeOf body) + 3
  | .block content => content.weight + 1

/-- The chart has the code of a regular part, of at most the weight `size`, at an address. -/
structure Chart.Carries (c : Chart) (size : Nat) (ctx : Ctx) (a : Nat) (part : Part)
    (sites : List Site) (ctx' : Ctx) : Prop where
  emits : Part.Emits ctx a part sites ctx'
  sits : c.Sits a sites
  returns : part.returnsInside (inFunction ctx.shapes) = true
  late : part.noLateDeclare = true
  small : part.weight ≤ size
  level : ctx.level ≤ a
  depth : ctx.scopes.depth = ctx.level

theorem Scopes.depth_declareParams (level : Nat) (names : List String) (s : Scopes Decl) :
    (Scopes.declareParams level names s).depth = s.depth :=
  congrArg List.length (Scopes.outer_declareParams level names s)

theorem Chart.Sits.lt_length {c : Chart} {a : Nat} {site : Site} {sites : List Site}
    (h : c.Sits a (site :: sites)) : a < c.sites.length :=
  (List.getElem?_eq_some_iff.1 h.1).1

/-! ## Names -/

/-- A function that is called under these declarations, with the code of its body at `entry`. -/
def Chart.Placed (c : Chart) (size : Nat) (scopes : Scopes Decl) (entry : Nat)
    (params : List String) (body : List Stmt) : Prop :=
  ∃ shapes sites inner, c.Carries size ((⟨scopes, shapes⟩ : Ctx).enterFunc entry params) entry
      (.stmts body) sites inner ∧
    c.Sits (entry + sites.length)
      [inner.site 0 (.lit 0), inner.site 1 (.ret (scopes.depth + 1) params.length)]

/-- The names are bound to what they are declared as. A variable is bound to the cell that lies in
its slot, and a function to a body whose code stands at its address; no body is larger than
`size`. -/
inductive Binds (c : Chart) (size : Nat) (φ : Places) (bases : Nat → Nat) :
    Scopes Decl → Env → Prop
  | print : Binds c size φ bases (.root [("print", .func 0 1 1)]) [("print", .print)]
  | enter {scopes env} (outer : Binds c size φ bases scopes env) :
      Binds c size φ bases (scopes.enter []) env
  | cell {scopes env name decl level offset i a} (outer : Binds c size φ bases scopes env)
      (slot : decl.slot? = some (level, offset)) (depth : level ≤ scopes.depth)
      (place : φ i = some a) (address : (bases level : Int) + offset = a) :
      Binds c size φ bases (scopes.declare name decl) ((name, .cell i) :: env)
  | func {scopes env name entry params body} (outer : Binds c size φ bases scopes env)
      (placed : c.Placed size (scopes.declare name (.func scopes.depth entry params.length)) entry
        params body) :
      Binds c size φ bases (scopes.declare name (.func scopes.depth entry params.length))
        ((name, .func params body) :: env)

/-- A declaration and a binding of one name: a variable in its slot, or a function with what it can
see. -/
inductive Means (c : Chart) (size : Nat) (φ : Places) (bases : Nat → Nat) (depth : Nat) :
    Decl → Binding → Env → Prop
  | cell {decl level offset i a closure} (slot : decl.slot? = some (level, offset))
      (place : φ i = some a) (address : (bases level : Int) + offset = a) :
      Means c size φ bases depth decl (.cell i) closure
  | print {closure} : Means c size φ bases depth (.func 0 1 1) .print closure
  | func {scopes closure entry params body} (binds : Binds c size φ bases scopes closure)
      (placed : c.Placed size scopes entry params body) (le : scopes.depth ≤ depth) :
      Means c size φ bases depth (.func scopes.depth entry params.length) (.func params body)
        closure

section Binds

variable {c : Chart} {size depth depth' : Nat} {φ φ' : Places} {bases bases' : Nat → Nat}
  {scopes : Scopes Decl} {env closure : Env} {decl : Decl} {binding : Binding} {name : String}

theorem Means.mono (h : Means c size φ bases depth decl binding closure) (le : depth ≤ depth') :
    Means c size φ bases depth' decl binding closure := by
  cases h with
  | cell slot place address => exact .cell slot place address
  | print => exact .print
  | func binds placed le' => exact .func binds placed (Nat.le_trans le' le)

/-- **A name that is declared is bound to what it is declared as.** -/
theorem Binds.find (h : Binds c size φ bases scopes env)
    (resolved : scopes.resolve? name = some decl) : ∃ binding closure,
      env.find? name = some (binding, closure) ∧
      Means c size φ bases scopes.depth decl binding closure := by
  induction h generalizing decl with
  | print =>
    change Scopes.resolve? name (Scopes.declare "print" (Decl.func 0 1 1) (.root [])) = _
      at resolved
    rw [Scopes.resolve?_declare] at resolved
    split at resolved
    · next same =>
      cases resolved
      exact ⟨.print, _, by rw [Env.find?, if_pos same.symm], .print⟩
    · simp [Scopes.resolve?, Levels.toList, Levels.root] at resolved
  | enter _ ih =>
    obtain ⟨binding, closure, found, means⟩ := ih resolved
    exact ⟨binding, closure, found, means.mono (Nat.le_succ _)⟩
  | @cell scopes env name' _ _ _ i _ _ slot _ place address ih =>
    rw [Scopes.resolve?_declare] at resolved
    split at resolved
    · next same =>
      cases resolved
      exact ⟨.cell i, _, by rw [Env.find?, if_pos same.symm], .cell slot place address⟩
    · next other =>
      obtain ⟨binding, closure, found, means⟩ := ih resolved
      exact ⟨binding, closure, by rw [Env.find?, if_neg (Ne.symm other), found], means⟩
  | @func scopes env name' entry params body outer placed ih =>
    rw [Scopes.resolve?_declare] at resolved
    split at resolved
    · next same =>
      cases resolved
      let declared := scopes.declare name' (.func scopes.depth entry params.length)
      have means : Means c size φ bases declared.depth (.func declared.depth entry params.length)
        (.func params body) _ := .func (.func outer placed) placed (Nat.le_refl _)
      exact ⟨.func params body, _, by rw [Env.find?, if_pos same.symm], means⟩
    · next other =>
      obtain ⟨binding, closure, found, means⟩ := ih resolved
      exact ⟨binding, closure, by rw [Env.find?, if_neg (Ne.symm other), found], means⟩

theorem Binds.congr (h : Binds c size φ bases scopes env)
    (same : ∀ k ≤ scopes.depth, bases' k = bases k) : Binds c size φ bases' scopes env := by
  induction h with
  | print => exact .print
  | enter _ ih => exact .enter (ih fun k hk => same k (Nat.le_succ_of_le hk))
  | cell _ slot depth place address ih =>
    exact .cell (ih same) slot depth place (by rw [same _ depth, address])
  | func _ placed ih => exact .func (ih same) placed

theorem Binds.mono (h : Binds c size φ bases scopes env)
    (more : ∀ {i a}, φ i = some a → φ' i = some a) : Binds c size φ' bases scopes env := by
  induction h with
  | print => exact .print
  | enter _ ih => exact .enter ih
  | cell _ slot depth place address ih => exact .cell ih slot depth (more place) address
  | func _ placed ih => exact .func ih placed

/-- **Parameters are bound to the arguments below the frame.** -/
theorem Binds.bindAll {names : List String} {vs : List Value} {level a : Nat} {mem : Memory}
    {stack : Stack} (binds : Binds c size φ bases scopes env) (models : Models φ mem stack)
    (depth : level ≤ scopes.depth) (length : vs.length = names.length)
    (base : a + names.length = bases level) (values : ∀ j < vs.length, stack[a + j]? = vs[j]?)
    (free : ∀ b, a ≤ b → φ.Free b) : ∃ φ' env' mem',
      EvalM.bindAll names vs env mem = .ok env' mem' ∧ φ.Extends φ' a ∧
      Binds c size φ' bases (Scopes.declareParams level names scopes) env' ∧
      Models φ' mem' stack ∧ mem'.output = mem.output ∧
      ∀ b, a + names.length ≤ b → φ'.Free b := by
  induction names generalizing vs a φ scopes env mem with
  | nil =>
    obtain rfl := List.length_eq_zero_iff.1 length
    exact ⟨φ, env, mem, rfl, .refl, binds, models, rfl, free⟩
  | cons name names ih =>
    obtain ⟨v, vs, rfl⟩ := List.exists_cons_of_length_eq_add_one length
    have value : stack[a]? = some v := values 0 (Nat.succ_pos _)
    have extends' := models.extends_set (Nat.le_refl a)
    have place : φ.set mem.cells.size a mem.cells.size = some a := if_pos rfl
    have address : (bases level : Int) + (-(names.length + 1 : Nat) : Int) = a := by
      rw [List.length_cons] at base
      omega
    have values₁ (j : Nat) (hj : j < vs.length) : stack[a + 1 + j]? = vs[j]? := by
      rw [Nat.add_assoc, Nat.add_comm 1 j]
      exact values (j + 1) (Nat.succ_lt_succ hj)
    have binds₁ : Binds c size (φ.set mem.cells.size a) bases
        (scopes.declare name (.param level (-(names.length + 1 : Nat))))
        ((name, .cell mem.cells.size) :: env) :=
      .cell (binds.mono extends'.old) rfl depth place address
    have free₁ (b : Nat) (hb : a + 1 ≤ b) : (φ.set mem.cells.size a).Free b := by
      intro i hi
      rw [Places.set] at hi
      split at hi
      · cases hi
        exact Nat.not_succ_le_self a hb
      · exact free b (Nat.le_of_succ_le hb) i hi
    obtain ⟨φ', env', mem', run, ext, binds', models', output, free'⟩ :=
      ih binds₁ (models.allocate (free a (Nat.le_refl a)) value) depth (Nat.succ.inj length)
        (by rw [List.length_cons] at base; omega) values₁ free₁
    refine ⟨φ', env', mem', run, extends'.trans ext (Nat.le_succ a), binds', models', output,
      fun b hb => free' b ?_⟩
    rw [List.length_cons] at hb
    omega

end Binds

end NestLang
