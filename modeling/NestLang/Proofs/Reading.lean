import NestLang.Proofs.Flat

/-!
# Reading texts

A tree is read back from its text. Each reader takes what it reads from the start of a text, and
gives back what was written there if the mark behind it cannot belong to it.

* `Reader`: readers, with `word`, `expect`, `oneOf` and `listOf` as their parts.
* `readExpr`, `readStmt`: read an expression, and a statement without indentation.
* `readExpr_text`, `ReadsBack.statement`: **trees are read back from their texts**, the latter for
  one construct around parts that are read back.
* `text_injective`: **the text of a tree determines the tree.**
-/

namespace NestLang

/-! ## Readers -/

/-- A reader reads a value from the start of a text and leaves the rest of the text. -/
def Reader (α : Type) : Type := List Char → Option (α × List Char)

namespace Reader

variable {α β : Type}

instance : Monad Reader where
  pure a text := some (a, text)
  bind read next text := (read text).bind fun (a, rest) => next a rest

@[simp]
theorem pure_apply (a : α) (text : List Char) : (pure a : Reader α) text = some (a, text) := rfl

@[simp]
theorem bind_apply (read : Reader α) (next : α → Reader β) (text : List Char) :
    (read >>= next) text = (read text).bind fun p => next p.1 p.2 := rfl

@[simp]
theorem if_apply (p : Prop) [Decidable p] (first second : Reader α) (text : List Char) :
    (if p then first else second) text = if p then first text else second text := by
  split <;> rfl

/-- Reads nothing and gives the next character. -/
def peek : Reader (Option Char) := fun text => some (text.head?, text)

@[simp]
theorem peek_apply (text : List Char) : peek text = some (text.head?, text) := rfl

/-- Reads nothing and gives what `read` would read. -/
def ahead (read : Reader α) : Reader α := fun text => (read text).map fun (a, _) => (a, text)

/-- Reads the given text. -/
def expect (expected : String) : Reader Unit := fun text =>
  if expected.toList <+: text then some ((), text.drop expected.toList.length) else none

@[simp]
theorem expect_spelled (expected : String) (rest : List Char) :
    expect expected (spelled expected rest) = some ((), rest) := by
  simp [expect, spelled]

@[simp]
theorem head?_open (rest : List Char) : (spelled "(" rest).head? = some '(' := rfl

@[simp]
theorem head?_close (rest : List Char) : (spelled ")" rest).head? = some ')' := rfl

@[simp]
theorem head?_sign (rest : List Char) : (spelled "-" rest).head? = some '-' := rfl

@[simp]
theorem head?_blank (rest : List Char) : (spelled " " rest).head? = some ' ' := rfl

/-- Reads the text of one of the given values. -/
def oneOf (print : α → String) : List α → Reader α
  | [], _ => none
  | a :: others, text =>
    match expect (print a) text with
    | some (_, rest) => some (a, rest)
    | none => oneOf print others text

/-- Reads up to the next mark. -/
def word : Reader String := fun text =>
  some (String.ofList (text.takeWhile (· ∉ marks)), text.dropWhile (· ∉ marks))

/-- Reads values with commas between them. -/
def items (item : Reader α) : Nat → Reader (List α)
  | 0 => fun _ => none
  | fuel + 1 => do
    let a ← item
    if (← peek) = some ',' then
      expect ", "
      return a :: (← items item fuel)
    else return [a]

/-- Reads values in brackets with commas between them. -/
def listOf (item : Reader α) (fuel : Nat) : Reader (List α) := do
  expect "("
  if (← peek) = some ')' then
    expect ")"
    return []
  else
    let values ← items item fuel
    expect ")"
    return values

end Reader

open Reader

/-- The text is empty or starts with one of the characters. -/
def Begins (chars text : List Char) : Prop := ∀ c, text.head? = some c → c ∈ chars

section Begins

variable {chars : List Char} {rest : List Char}

theorem Begins.mono {others : List Char} (h : Begins chars rest) (sub : chars ⊆ others) :
    Begins others rest := fun c hc => sub (h c hc)

theorem begins_spelled {text : String} (h : text.toList.head?.any (· ∈ chars) = true) :
    Begins chars (spelled text rest) := by
  intro c hc
  cases eq : text.toList with
  | nil => simp [eq] at h
  | cons d more =>
    rw [head?_spelled eq] at hc
    cases hc
    simpa [eq] using h

theorem Begins.head?_ne {c : Char} (h : Begins chars rest) (hc : c ∉ chars) :
    rest.head? ≠ some c := fun eq => hc (h c eq)

end Begins

section Words

variable {w : String} {rest : List Char}

theorem word_spelled (unmarked : ∀ c ∈ w.toList, c ∉ marks) (follow : Begins marks rest) :
    word (spelled w rest) = some (w, rest) := by
  have all : ∀ c ∈ w.toList, decide (c ∉ marks) = true := fun c hc => decide_eq_true (unmarked c hc)
  have stop : rest.takeWhile (· ∉ marks) = [] ∧ rest.dropWhile (· ∉ marks) = rest := by
    cases rest with
    | nil => exact ⟨rfl, rfl⟩
    | cons c more =>
      have mark := follow c rfl
      simp [mark]
  rw [word, spelled, List.takeWhile_append_of_pos all, List.dropWhile_append_of_pos all, stop.1,
    stop.2, List.append_nil, String.ofList_toList]

theorem unmarked_keyword (mem : w ∈ "" :: keywords) : ∀ c ∈ w.toList, c ∉ marks := by
  have all : ∀ w ∈ "" :: keywords, w.toList.all (· ∉ marks) = true := by decide
  simpa using all w mem

theorem IsName.word (h : IsName w) (follow : Begins marks rest) :
    word (spelled w rest) = some (w, rest) := word_spelled h.unmarked follow

theorem IsName.word_mark (h : IsName w) {mark : String}
    (marked : mark.toList.head?.any (· ∈ marks) = true) (more : List Char) :
    NestLang.Reader.word (spelled w (spelled mark more)) = some (w, spelled mark more) :=
  h.word (begins_spelled marked)

end Words

section Lists

variable {α : Type} {item : Reader α} (print : α → String)

theorem items_spelled (value : α) (others : List α)
    (each : ∀ a ∈ value :: others, ∀ rest, Begins [',', ')'] rest →
      item (spelled (print a) rest) = some (a, rest))
    {fuel : Nat} (enough : others.length < fuel) (rest : List Char) :
    items item fuel (spelled (", ".intercalate ((value :: others).map print)) (spelled ")" rest)) =
      some (value :: others, spelled ")" rest) := by
  induction others generalizing value fuel with
  | nil =>
    cases fuel with
    | zero => exact absurd enough (Nat.not_lt_zero _)
    | succ fuel =>
      have one := each value (by simp) (spelled ")" rest) (begins_spelled (by decide))
      simp [items, one]
  | cons second others ih =>
    cases fuel with
    | zero => exact absurd enough (Nat.not_lt_zero _)
    | succ fuel =>
      have one := each value (by simp) (spelled ", " (spelled
        (", ".intercalate ((second :: others).map print)) (spelled ")" rest)))
        (begins_spelled (by decide))
      have more := ih second (fun a h => each a (List.mem_cons_of_mem _ h))
        (Nat.lt_of_succ_lt_succ enough)
      have next (text : List Char) : (spelled ", " text).head? = some ',' := rfl
      simp only [List.map_cons] at one more
      simp [items, spelled_append, one, more, next]

theorem listOf_spelled {values : List α}
    (each : ∀ a ∈ values, ∀ rest, Begins [',', ')'] rest →
      item (spelled (print a) rest) = some (a, rest))
    (start : ∀ a ∈ values, ∀ rest, (spelled (print a) rest).head? ≠ some ')')
    {fuel : Nat} (enough : values.length ≤ fuel) (rest : List Char) :
    listOf item fuel (spelled "(" (spelled (", ".intercalate (values.map print))
      (spelled ")" rest))) = some (values, rest) := by
  cases values with
  | nil => simp [listOf]
  | cons value others =>
    have read := items_spelled print value others each enough rest
    have next : (spelled (", ".intercalate ((value :: others).map print))
        (spelled ")" rest)).head? ≠ some ')' := by
      have first := start value List.mem_cons_self
      cases others with
      | nil => simpa using first _
      | cons second others => simpa [spelled_append] using first _
    simp only [List.map_cons] at read next
    simp [listOf, read, next]

theorem listOf_names {names : List String} (named : ∀ name ∈ names, IsName name)
    {fuel : Nat} (enough : names.length ≤ fuel) (rest : List Char) :
    listOf word fuel (spelled "(" (spelled (", ".intercalate names) (spelled ")" rest))) =
      some (names, rest) := by
  have each (name : String) (mem : name ∈ names) (rest : List Char)
      (follow : Begins [',', ')'] rest) : word (spelled (id name) rest) = some (name, rest) :=
    (named name mem).word (follow.mono (by decide))
  have start (name : String) (mem : name ∈ names) (rest : List Char) :
      (spelled (id name) rest).head? ≠ some ')' := by
    obtain ⟨c, head, mark⟩ := (named name mem).head? rest
    rw [id, head]
    rintro ⟨⟩
    exact mark (by decide)
  have read := listOf_spelled id each start enough rest
  rwa [List.map_id] at read

end Lists

/-! ## Reading expressions -/

/-- Reads a natural number. -/
def number : Reader Value := do
  return Int64.ofInt (Nat.ofDigitChars 10 (← word).toList 0)

/-- Reads an expression that starts with a word, where `args` reads the arguments of a call. -/
def atom (args : Reader (List Expr)) : Reader Expr := do
  let w ← word
  if w = "true" then return .bool true
  else if w = "false" then return .bool false
  else if w.toList.head?.any Char.isDigit then
    return .int (Int64.ofInt (Nat.ofDigitChars 10 w.toList 0))
  else if (← peek) = some '(' then return .call w (← args)
  else return .var w

/-- Reads what follows the first operand of an operator. -/
def operation (expr : Reader Expr) (left : Expr) : Reader Expr := do
  if (← peek) = some ' ' then
    let op ← oneOf (fun op => " " ++ BinaryOp.symbol op ++ " ")
      [.add, .sub, .mul, .div, .eq, .ne, .lt, .le, .gt, .ge, .and, .or]
    return .binary op left (← expr)
  else return .post (← oneOf PostOp.symbol [.increment, .decrement]) left

/-- The negative number that a sign and a number stand for. -/
def negated : Expr → Expr
  | .int value => .int (-value)
  | e => e

/-- Reads what stands between the brackets of an expression. A sign is an operator if the operand
behind it is all there is, and belongs to a number if another operator follows. -/
def compound (expr : Reader Expr) : Reader Expr := do
  let next ← peek
  if next = some '!' then
    expect "!"
    return .unary .not (← expr)
  else if next = some '+' then
    expect "+"
    return .unary .plus (← expr)
  else if next = some '-' then
    expect "-"
    let e ← expr
    if (← peek) = some ')' then return .unary .minus e else operation expr (negated e)
  else operation expr (← expr)

/-- Reads an expression. -/
def readExpr : Nat → Reader Expr
  | 0 => fun _ => none
  | fuel + 1 => do
    let next ← peek
    if next = some '(' then
      expect "("
      let e ← compound (readExpr fuel)
      expect ")"
      return e
    else if next = some '-' then
      expect "-"
      return negated (.int (← number))
    else atom (listOf (readExpr fuel) fuel)

/-- The marks that may follow an expression. -/
def afterExpr : List Char := [' ', '\n', ')', ',', ';', '+', '-']

theorem afterExpr_subset : afterExpr ⊆ marks := by decide

section Atoms

variable {args : Reader (List Expr)} {rest : List Char}

theorem word_repr (n : Nat) (follow : Begins marks rest) :
    word (spelled n.repr rest) = some (n.repr, rest) :=
  word_spelled (fun _ h => not_mem_marks_of_isDigit (isDigit_of_mem_repr h)) follow

theorem number_repr (n : Nat) (follow : Begins marks rest) :
    number (spelled n.repr rest) = some (Int64.ofInt n, rest) := by
  simp [number, word_repr n follow, Nat.ofDigitChars_ten_toDigits]

theorem repr_ne {n : Nat} {w : String} (h : w.toList.all Char.isDigit = false) : n.repr ≠ w := by
  rintro rfl
  rw [List.all_eq_true.2 fun c => isDigit_of_mem_repr] at h
  cases h

theorem atom_repr (n : Nat) (follow : Begins marks rest) :
    atom args (spelled n.repr rest) = some (.int (Int64.ofInt n), rest) := by
  have not_true : n.repr ≠ "true" := repr_ne (by decide)
  have not_false : n.repr ≠ "false" := repr_ne (by decide)
  have digit : n.repr.toList.head?.any Char.isDigit = true := by
    cases eq : n.repr.toList with
    | nil => exact absurd (Nat.toList_repr ▸ eq) Nat.toDigits_ne_nil
    | cons c more => exact isDigit_of_mem_repr (n := n) (by simp [eq])
  simp only [atom, bind_apply, word_repr n follow, Option.bind_some, if_apply, not_true, not_false,
    digit, if_true, if_false, pure_apply]
  rw [Nat.toList_repr, Nat.ofDigitChars_ten_toDigits]

theorem atom_bool (b : Bool) (follow : Begins marks rest) :
    atom args (spelled (Expr.bool b).text rest) = some (.bool b, rest) := by
  cases b
  · have read := word_spelled (unmarked_keyword (w := "false") (by decide)) follow
    simp [atom, Expr.text, read]
  · have read := word_spelled (unmarked_keyword (w := "true") (by decide)) follow
    simp [atom, Expr.text, read]

theorem IsName.atom {name : String} (h : IsName name) (follow : Begins marks rest) :
    atom args (spelled name rest) = if rest.head? = some '(' then
      (args rest).bind fun p => some (.call name p.1, p.2) else some (.var name, rest) := by
  have not_true : name ≠ "true" := fun eq => h.fresh (eq ▸ by decide)
  have not_false : name ≠ "false" := fun eq => h.fresh (eq ▸ by decide)
  have letter : name.toList.head?.any Char.isDigit = false := by
    obtain ⟨c, more, eq, first⟩ := h.start
    simpa [eq] using first
  simp [NestLang.atom, h.word follow, not_true, not_false, letter]

end Atoms

section Operators

variable {expr : Reader Expr} {e left right : Expr} {rest : List Char}

theorem operation_binary (op : BinaryOp)
    (second : expr (spelled right.text rest) = some (right, rest)) :
    operation expr left (spelled " " (spelled op.symbol (spelled " " (spelled right.text rest)))) =
      some (.binary op left right, rest) := by
  have read (text : List Char) : oneOf (fun op => " " ++ BinaryOp.symbol op ++ " ")
      [.add, .sub, .mul, .div, .eq, .ne, .lt, .le, .gt, .ge, .and, .or]
      (spelled " " (spelled op.symbol (spelled " " text))) = some (op, text) := by
    cases op <;> simp [oneOf, expect, spelled, BinaryOp.symbol]
  simp [operation, read, second]

theorem operation_post (op : PostOp) :
    operation expr left (spelled op.symbol rest) = some (.post op left, rest) := by
  have next : (spelled op.symbol rest).head? ≠ some ' ' := by
    cases op <;> simp [PostOp.symbol, spelled]
  have read : oneOf PostOp.symbol [.increment, .decrement] (spelled op.symbol rest) =
      some (op, rest) := by
    cases op <;> simp [oneOf, expect, spelled, PostOp.symbol]
  simp [operation, next, read]

theorem compound_unary (op : UnaryOp)
    (operand : expr (spelled e.text (spelled ")" rest)) = some (e, spelled ")" rest)) :
    compound expr (spelled op.symbol (spelled e.text (spelled ")" rest))) =
      some (.unary op e, spelled ")" rest) := by
  cases op with
  | not =>
    have sign (text : List Char) : (spelled "!" text).head? = some '!' := rfl
    simp [compound, UnaryOp.symbol, sign, operand]
  | plus =>
    have sign (text : List Char) : (spelled "+" text).head? = some '+' := rfl
    simp [compound, UnaryOp.symbol, sign, operand]
  | minus => simp [compound, UnaryOp.symbol, operand]

/-- The digits of a negative number are those of a natural number, which gives the negative number
back even if it is no value itself. -/
theorem exists_repr_of_neg {v : Value} (h : v.toInt < 0) :
    ∃ n : Nat, v.text = "-" ++ n.repr ∧ negated (.int (Int64.ofInt n)) = .int v := by
  have same : ((-v.toInt).toNat : Int) = -v.toInt := Int.toNat_of_nonneg (by omega)
  refine ⟨(-v.toInt).toNat, Value.text_of_neg h, ?_⟩
  rw [negated, ← Int64.ofInt_neg, same, Int.neg_neg, Int64.ofInt_toInt]

theorem compound_left (names : ∀ name ∈ left.names, IsName name)
    (first : expr (spelled left.text rest) = some (left, rest))
    (digits : ∀ n : Nat, expr (spelled n.repr rest) = some (.int (Int64.ofInt n), rest))
    (follow : Begins [' ', '+', '-'] rest) :
    compound expr (spelled left.text rest) = operation expr left rest := by
  have next := follow.head?_ne (c := ')') (by decide)
  rcases left.head? names rest with ⟨v, rfl, h⟩ | ⟨c, head, start⟩
  · -- The sign is taken for an operator at first, and the digits for its operand.
    obtain ⟨n, text, value⟩ := exists_repr_of_neg h
    simp [compound, Expr.text, text, spelled_append, digits, next, value]
  · have other : c ≠ '!' ∧ c ≠ '+' ∧ c ≠ '-' := by
      rcases start with rfl | start
      · decide
      · refine ⟨?_, ?_, ?_⟩ <;> rintro rfl <;> exact start (by decide)
    simp [compound, head, other, first]

end Operators

/-! ## Expressions are read back -/

theorem Expr.texts_eq_map (es : List Expr) : Expr.texts es = es.map Expr.text := by
  induction es with
  | nil => rfl
  | cons e es ih => rw [Expr.texts, ih, List.map_cons]

theorem Expr.mem_namesAll {es : List Expr} {e : Expr} (h : e ∈ es) {name : String}
    (mem : name ∈ e.names) : name ∈ Expr.namesAll es := by
  induction es with
  | nil => exact absurd h List.not_mem_nil
  | cons first es ih =>
    rcases List.mem_cons.1 h with rfl | h
    · exact List.mem_append_left _ mem
    · exact List.mem_append_right _ (ih h)

theorem Expr.sizeOf_pos (e : Expr) : 0 < sizeOf e := by
  apply Nat.pos_of_ne_zero
  intro h
  cases e <;> simp at h

theorem length_lt_sizeOf {α : Type} [SizeOf α] (values : List α) :
    values.length < sizeOf values := by
  induction values with
  | nil => simp
  | cons value values ih => simp; omega

section Expressions

variable {fuel : Nat} {text rest : List Char}

theorem readExpr_bracket {e : Expr}
    (read : compound (readExpr fuel) text = some (e, spelled ")" rest)) :
    readExpr (fuel + 1) (spelled "(" text) = some (e, rest) := by
  simp [readExpr, read]

theorem readExpr_word (start : ∃ c, text.head? = some c ∧ c ∉ marks) :
    readExpr (fuel + 1) text = atom (listOf (readExpr fuel) fuel) text := by
  obtain ⟨c, head, mark⟩ := start
  have bracket : c ≠ '(' := by rintro rfl; exact mark (by decide)
  have sign : c ≠ '-' := by rintro rfl; exact mark (by decide)
  simp [readExpr, head, bracket, sign]

theorem readExpr_repr (n : Nat) (enough : 0 < fuel) (follow : Begins marks rest) :
    readExpr fuel (spelled n.repr rest) = some (.int (Int64.ofInt n), rest) := by
  cases fuel with
  | zero => exact absurd enough (Nat.not_lt_zero _)
  | succ fuel => rw [readExpr_word (head?_repr n rest), atom_repr n follow]

theorem readExpr_int (v : Value) (follow : Begins marks rest) :
    readExpr (fuel + 1) (spelled v.text rest) = some (.int v, rest) := by
  rcases Int.lt_or_le v.toInt 0 with h | h
  · obtain ⟨n, text, value⟩ := exists_repr_of_neg h
    simp [readExpr, text, spelled_append, number_repr n follow, value]
  · rw [Value.text_of_nonneg h, readExpr_repr _ (Nat.succ_pos _) follow, Int.toNat_of_nonneg h,
      Int64.ofInt_toInt]

theorem readExpr_operation {left e : Expr} (names : ∀ name ∈ left.names, IsName name)
    (enough : 0 < fuel) (follow : Begins [' ', '+', '-'] text)
    (first : readExpr fuel (spelled left.text text) = some (left, text))
    (read : operation (readExpr fuel) left text = some (e, spelled ")" rest)) :
    readExpr (fuel + 1) (spelled "(" (spelled left.text text)) = some (e, rest) := by
  apply readExpr_bracket
  rw [compound_left names first (fun n => readExpr_repr n enough (follow.mono (by decide))) follow,
    read]

/-- **An expression is read back from its text.** -/
theorem readExpr_text (fuel : Nat) (e : Expr) (names : ∀ name ∈ e.names, IsName name)
    (enough : sizeOf e ≤ fuel) (rest : List Char) (follow : Begins afterExpr rest) :
    readExpr fuel (spelled e.text rest) = some (e, rest) := by
  -- By induction on the fuel and not on the tree, so that one hypothesis serves all arguments.
  induction fuel generalizing e rest with
  | zero => cases e <;> simp at enough
  | succ fuel ih =>
    have marked := follow.mono afterExpr_subset
    cases e with
    | int value => exact readExpr_int value marked
    | bool value =>
      have start : ∃ c, (spelled (Expr.bool value).text rest).head? = some c ∧ c ∉ marks := by
        cases value <;> exact ⟨_, rfl, by decide⟩
      rw [readExpr_word start, atom_bool value marked]
    | var name =>
      have h := names name (List.mem_singleton.2 rfl)
      have next := follow.head?_ne (c := '(') (by decide)
      rw [Expr.text, readExpr_word (h.head? rest), h.atom marked, if_neg next]
    | call name args =>
      have h := names name List.mem_cons_self
      have sizes := length_lt_sizeOf args
      simp only [Expr.call.sizeOf_spec] at enough
      have named (arg : Expr) (mem : arg ∈ args) : ∀ name ∈ arg.names, IsName name :=
        fun name h => names name (List.mem_cons_of_mem _ (Expr.mem_namesAll mem h))
      have read : listOf (readExpr fuel) fuel (spelled "(" (spelled
          (", ".intercalate (args.map Expr.text)) (spelled ")" rest))) = some (args, rest) := by
        apply listOf_spelled
        · intro arg mem rest follow
          have size := List.sizeOf_lt_of_mem mem
          exact ih arg (named arg mem) (by omega) rest (follow.mono (by decide))
        · intro arg mem rest
          exact arg.head?_ne (named arg mem) rest (by decide)
        · omega
      simp only [Expr.text, spelled_append, Expr.texts_eq_map]
      rw [readExpr_word (h.head? _), h.atom (begins_spelled (by decide)), if_pos (head?_open _),
        read]
      rfl
    | unary op operand =>
      simp only [Expr.unary.sizeOf_spec] at enough
      have inner := ih operand names (by omega) (spelled ")" rest) (begins_spelled (by decide))
      simp only [Expr.text, spelled_append]
      exact readExpr_bracket (compound_unary op inner)
    | binary op left right =>
      have size := left.sizeOf_pos
      simp only [Expr.binary.sizeOf_spec] at enough
      have named := List.forall_mem_append.1 names
      have tail (text : List Char) : Begins [' ', '+', '-'] (spelled " " text) :=
        begins_spelled (by decide)
      have first (text : List Char) := ih left named.1 (by omega) _ ((tail text).mono (by decide))
      have second := ih right named.2 (by omega) (spelled ")" rest) (begins_spelled (by decide))
      simp only [Expr.text, spelled_append]
      exact readExpr_operation named.1 (by omega) (tail _) (first _) (operation_binary op second)
    | post op operand =>
      have size := operand.sizeOf_pos
      simp only [Expr.post.sizeOf_spec] at enough
      have tail (text : List Char) : Begins [' ', '+', '-'] (spelled op.symbol text) := by
        cases op <;> exact begins_spelled (by decide)
      have first (text : List Char) := ih operand names (by omega) _ ((tail text).mono (by decide))
      simp only [Expr.text, spelled_append]
      exact readExpr_operation names (by omega) (tail _) (first _) (operation_post op)

end Expressions

/-! ## Reading statements -/

/-- The marks that may follow a statement. -/
def afterStmt : List Char := ['\n', ';', ')']

/-- The keywords that start statements. -/
def openers : List String := ["let", "function", "return", "if", "for"]

/-- Reads the lines of a block. -/
def readLines (stmt : Reader Stmt) : Nat → Reader (List Stmt)
  | 0 => fun _ => none
  | fuel + 1 => do
    if (← peek) = some '\x7d' then return []
    else
      let s ← stmt
      expect "\n"
      return s :: (← readLines stmt fuel)

/-- Reads a block with its braces. -/
def readBlock (stmt : Reader Stmt) (fuel : Nat) : Reader (List Stmt) := do
  expect "\x7b\n"
  let body ← readLines stmt fuel
  expect "\x7d"
  return body

/-- Reads what follows a branch. -/
def readElse (expr : Reader Expr) (block : Reader (List Stmt)) : Nat → Reader Else
  | 0 => fun _ => none
  | fuel + 1 => do
    if (← peek) = some ' ' then
      expect " else "
      if (← peek) = some '\x7b' then return .block (← block)
      else
        expect "if("
        let test ← expr
        expect ") "
        let body ← block
        return .cond test body (← readElse expr block fuel)
    else return .none

/-- Reads a statement that starts with no keyword. -/
def readPlain (expr : Reader Expr) (block : Reader (List Stmt)) : Reader Stmt := do
  let next ← peek
  if next = some '\x7b' then return .block (← block)
  else if next.all (· ∈ afterStmt) then return .empty
  else if (← ahead (do let _ ← word; peek)) = some ' ' then
    let name ← word
    expect " = "
    return .assign name (← expr)
  else return .expr (← expr)

/-- Reads a statement, whose parts are read by `expr` and `stmt`. -/
def readWith (expr : Reader Expr) (stmt : Reader Stmt) (fuel : Nat) : Reader Stmt := do
  let first ← ahead word
  if first = "let" then
    expect "let "
    let name ← word
    expect " = "
    return .declare name (← expr)
  else if first = "function" then
    expect "function "
    let name ← word
    let params ← listOf word fuel
    expect " "
    return .function name params (← readBlock stmt fuel)
  else if first = "return" then
    expect "return"
    if (← peek) = some ' ' then
      expect " "
      return .ret (some (← expr))
    else return .ret none
  else if first = "if" then
    expect "if("
    let test ← expr
    expect ") "
    let body ← readBlock stmt fuel
    return .cond test body (← readElse expr (readBlock stmt fuel) fuel)
  else if first = "for" then
    expect "for("
    let start ← stmt
    expect "; "
    let test ← expr
    expect "; "
    let after ← stmt
    expect ") "
    return .loop start test after (← readBlock stmt fuel)
  else readPlain expr (readBlock stmt fuel)

/-- Reads a statement without indentation. -/
def readStmt : Nat → Reader Stmt
  | 0 => fun _ => none
  | fuel + 1 => readWith (readExpr fuel) (readStmt fuel) fuel

/-! ## Statements are read back -/

/-- The readers give back all trees up to a size. -/
structure ReadsBack (size : Nat) (expr : Reader Expr) (stmt : Reader Stmt) : Prop where
  expr : ∀ e, (∀ name ∈ e.names, IsName name) → sizeOf e ≤ size →
    ∀ rest, Begins afterExpr rest → expr (spelled e.text rest) = some (e, rest)
  stmt : ∀ s, (∀ name ∈ s.names, IsName name) → sizeOf s ≤ size →
    ∀ rest, Begins afterStmt rest → stmt (s.flat rest) = some (s, rest)

section Parts

variable {size : Nat} {expr : Reader Expr} {stmt : Reader Stmt}

theorem ReadsBack.expr_mark (reads : ReadsBack size expr stmt) {e : Expr} {mark : String}
    (marked : mark.toList.head?.any (· ∈ afterExpr) = true)
    (names : ∀ name ∈ e.names, IsName name) (small : sizeOf e ≤ size) (more : List Char) :
    expr (spelled e.text (spelled mark more)) = some (e, spelled mark more) :=
  reads.expr e names small _ (begins_spelled marked)

theorem ReadsBack.stmt_mark (reads : ReadsBack size expr stmt) {s : Stmt} {mark : String}
    (marked : mark.toList.head?.any (· ∈ afterStmt) = true)
    (names : ∀ name ∈ s.names, IsName name) (small : sizeOf s ≤ size) (more : List Char) :
    stmt (s.flat (spelled mark more)) = some (s, spelled mark more) :=
  reads.stmt s names small _ (begins_spelled marked)

theorem ReadsBack.lines (reads : ReadsBack size expr stmt) (body : List Stmt)
    (names : ∀ name ∈ Stmt.namesAll body, IsName name) (small : sizeOf body ≤ size) {fuel : Nat}
    (enough : body.length < fuel) (rest : List Char) :
    readLines stmt fuel (Stmt.flatLines body (spelled "\x7d" rest)) =
      some (body, spelled "\x7d" rest) := by
  induction body generalizing fuel with
  | nil =>
    cases fuel with
    | zero => exact absurd enough (Nat.not_lt_zero _)
    | succ fuel => rfl
  | cons s body ih =>
    cases fuel with
    | zero => exact absurd enough (Nat.not_lt_zero _)
    | succ fuel =>
      simp only [List.cons.sizeOf_spec] at small
      have named := List.forall_mem_append.1 names
      have first (text : List Char) : stmt (s.flat (spelled "\n" text)) = _ :=
        reads.stmt_mark (by decide) named.1 (by omega) text
      have others := ih named.2 (by omega) (Nat.lt_of_succ_lt_succ enough)
      have start (text : List Char) : (s.flat (spelled "\n" text)).head? ≠ some '\x7d' :=
        s.head?_ne named.1 (.inr rfl) (by simp [spelled])
      simp [readLines, Stmt.flatLines, start, first, others]

theorem ReadsBack.block (reads : ReadsBack size expr stmt) (body : List Stmt)
    (names : ∀ name ∈ Stmt.namesAll body, IsName name) (small : sizeOf body ≤ size)
    (rest : List Char) :
    readBlock stmt size (flatBraced (Stmt.flatLines body) rest) = some (body, rest) := by
  have length := length_lt_sizeOf body
  have lines := reads.lines body names small (Nat.lt_of_lt_of_le length small) rest
  simp [readBlock, flatBraced, lines]

theorem ReadsBack.alternative (reads : ReadsBack size expr stmt) : (alternative : Else) →
    (∀ name ∈ alternative.names, IsName name) → sizeOf alternative ≤ size → (fuel : Nat) →
    sizeOf alternative ≤ fuel → (rest : List Char) → Begins afterStmt rest →
    readElse expr (readBlock stmt size) fuel (alternative.flat rest) = some (alternative, rest)
  | alternative, _, _, 0, enough, _, _ => by cases alternative <;> simp at enough
  | .none, _, _, fuel + 1, _, rest, follow => by
    have next := follow.head?_ne (c := ' ') (by decide)
    simp [readElse, Else.flat, next]
  | .block body, names, small, fuel + 1, _, rest, follow => by
    simp only [Else.block.sizeOf_spec] at small
    have content := reads.block body names (by omega) rest
    have next (text : List Char) : (spelled " else " text).head? = some ' ' := rfl
    have opened (lines : List Char → List Char) : (flatBraced lines rest).head? = some '\x7b' := rfl
    simp [readElse, Else.flat, next, opened, content]
  | .cond test body alternative, names, small, fuel + 1, enough, rest, follow => by
    simp only [Else.cond.sizeOf_spec] at small enough
    have tested (text : List Char) : expr (spelled test.text (spelled ") " text)) = _ :=
      reads.expr_mark (by decide) (fun name h => names name (by simp [Else.names, h]))
        (by omega) text
    have content := reads.block body (fun name h => names name (by simp [Else.names, h])) (by omega)
    have other := reads.alternative alternative
      (fun name h => names name (by simp [Else.names, h])) (by omega) fuel (by omega) rest follow
    have next (text : List Char) : (spelled " else " text).head? = some ' ' := rfl
    have opened (text : List Char) : (spelled "if(" text).head? = some 'i' := rfl
    simp [readElse, Else.flat, next, opened, tested, content, other]

end Parts

/-! ## The first words of statements -/

section FirstWords

variable {expr : Reader Expr} {stmt : Reader Stmt} {fuel : Nat} {w : String}
  {text more rest : List Char}

theorem ahead_word (unmarked : ∀ c ∈ w.toList, c ∉ marks) (follow : Begins marks more) :
    ahead word (spelled w more) = some (w, spelled w more) := by
  simp [ahead, word_spelled unmarked follow]

theorem ahead_keyword {both : String} (w mark : String) (eq : both = w ++ mark)
    (mem : w ∈ "" :: keywords) (marked : mark.toList.head?.any (· ∈ marks) = true)
    (more : List Char) : ahead word (spelled both more) = some (w, spelled both more) := by
  rw [eq, spelled_append]
  exact ahead_word (unmarked_keyword mem) (begins_spelled marked)

theorem readWith_plain (first : ahead word text = some (w, text)) (other : w ∉ openers) :
    readWith expr stmt fuel text = readPlain expr (readBlock stmt fuel) text := by
  have ne {keyword : String} (h : keyword ∈ openers) : w ≠ keyword := fun eq => other (eq ▸ h)
  simp [readWith, first, ne (by decide : "let" ∈ openers), ne (by decide : "function" ∈ openers),
    ne (by decide : "return" ∈ openers), ne (by decide : "if" ∈ openers),
    ne (by decide : "for" ∈ openers)]

theorem IsName.not_mem_openers (h : IsName w) : w ∉ openers :=
  fun mem => h.fresh ((by decide : openers ⊆ keywords) mem)

/-- The word that an expression starts with is no keyword of statements, and no blank follows it. -/
theorem Expr.exists_word (e : Expr) (names : ∀ name ∈ e.names, IsName name)
    (follow : Begins afterStmt rest) : ∃ w more, spelled e.text rest = spelled w more ∧
      (∀ c ∈ w.toList, c ∉ marks) ∧ w ∉ openers ∧ Begins ('(' :: '-' :: afterStmt) more := by
  have ends : Begins ('(' :: '-' :: afterStmt) rest := follow.mono (by decide)
  have mark (m : String) (h : m.toList.head?.any (· ∈ '(' :: '-' :: afterStmt) = true)
      (text : List Char) : ∃ w more, spelled m text = spelled w more ∧
        (∀ c ∈ w.toList, c ∉ marks) ∧ w ∉ openers ∧ Begins ('(' :: '-' :: afterStmt) more :=
    ⟨"", spelled m text, rfl, unmarked_keyword (by decide), by decide, begins_spelled h⟩
  cases e with
  | int value =>
    rcases Int.lt_or_le value.toInt 0 with h | h
    · rw [Expr.text, Value.text_of_neg h, spelled_append]
      exact mark "-" (by decide) _
    · rw [Expr.text, Value.text_of_nonneg h]
      refine ⟨_, rest, rfl, fun c h => not_mem_marks_of_isDigit (isDigit_of_mem_repr h), ?_, ends⟩
      have letters : ∀ w ∈ openers, w.toList.all Char.isDigit = false := by decide
      exact fun mem => repr_ne (letters _ mem) rfl
  | bool value =>
    cases value <;> exact ⟨_, rest, rfl, unmarked_keyword (by decide), by decide, ends⟩
  | var name =>
    have h := names name (List.mem_singleton.2 rfl)
    exact ⟨name, rest, rfl, h.unmarked, h.not_mem_openers, ends⟩
  | call name args =>
    have h := names name List.mem_cons_self
    simp only [Expr.text, spelled_append]
    exact ⟨name, _, rfl, h.unmarked, h.not_mem_openers, begins_spelled (by decide)⟩
  | unary op operand => simpa only [Expr.text, spelled_append] using mark "(" (by decide) _
  | binary op left right => simpa only [Expr.text, spelled_append] using mark "(" (by decide) _
  | post op operand => simpa only [Expr.text, spelled_append] using mark "(" (by decide) _

end FirstWords

section Statements

variable {size : Nat} {expr : Reader Expr} {stmt : Reader Stmt} {rest : List Char}

theorem readWith_expr (reads : ReadsBack size expr stmt) {value : Expr}
    (names : ∀ name ∈ value.names, IsName name) (small : sizeOf value ≤ size)
    (follow : Begins afterStmt rest) :
    readWith expr stmt size (spelled value.text rest) = some (.expr value, rest) := by
  have read := reads.expr value names small rest (follow.mono (by decide))
  have opened := value.head?_ne names rest (c := '\x7b') (by decide)
  have nonempty : (spelled value.text rest).head?.all (· ∈ afterStmt) = false := by
    obtain ⟨c, head, start⟩ := value.exists_head? names rest
    have mark : c ∉ afterStmt := by
      rcases start with rfl | rfl | start
      · decide
      · decide
      · exact fun mem => start ((by decide : afterStmt ⊆ marks) mem)
    simp [head, mark]
  -- Neither a keyword nor an assignment can be seen behind the first word.
  obtain ⟨w, more, eq, unmarked, other, next⟩ := value.exists_word names follow
  have first : ahead word (spelled value.text rest) = some (w, spelled value.text rest) := by
    rw [eq]
    exact ahead_word unmarked (next.mono (by decide))
  have behind : ahead (do let _ ← word; peek) (spelled value.text rest) =
      some (more.head?, spelled value.text rest) := by
    rw [eq]
    simp [ahead, word_spelled unmarked (next.mono (by decide))]
  have blank := next.head?_ne (c := ' ') (by decide)
  rw [readWith_plain first other]
  simp [readPlain, opened, nonempty, behind, blank, read]

theorem readWith_assign (reads : ReadsBack size expr stmt) {name : String} {value : Expr}
    (h : IsName name) (names : ∀ name ∈ value.names, IsName name) (small : sizeOf value ≤ size)
    (follow : Begins afterStmt rest) :
    readWith expr stmt size (spelled name (spelled " = " (spelled value.text rest))) =
      some (.assign name value, rest) := by
  have read := reads.expr value names small rest (follow.mono (by decide))
  have target (text : List Char) : word (spelled name (spelled " = " text)) = _ :=
    h.word_mark (by decide) text
  have next (text : List Char) : (spelled " = " text).head? = some ' ' := rfl
  obtain ⟨c, head, mark⟩ := h.head? (spelled " = " (spelled value.text rest))
  have opened : c ≠ '\x7b' := by rintro rfl; exact mark (by decide)
  have nonempty : c ∉ afterStmt := fun mem => mark ((by decide : afterStmt ⊆ marks) mem)
  rw [readWith_plain (ahead_word h.unmarked (begins_spelled (by decide))) h.not_mem_openers]
  simp [readPlain, head, opened, nonempty, ahead, target, next, read]

/-- **A statement is read back if its parts are.** -/
theorem ReadsBack.statement (reads : ReadsBack size expr stmt) (s : Stmt)
    (names : ∀ name ∈ s.names, IsName name) (small : sizeOf s ≤ size + 1)
    (follow : Begins afterStmt rest) : readWith expr stmt size (s.flat rest) = some (s, rest) := by
  have ends : Begins afterExpr rest := follow.mono (by decide)
  cases s with
  | declare name value =>
    simp only [Stmt.declare.sizeOf_spec] at small
    have named := List.forall_mem_cons.1 names
    have first (text : List Char) : ahead word (spelled "let " text) = _ :=
      ahead_keyword "let" " " (by decide) (by decide) (by decide) text
    have target (text : List Char) : word (spelled name (spelled " = " text)) = _ :=
      named.1.word_mark (by decide) text
    have read := reads.expr value named.2 (by omega) rest ends
    simp [readWith, Stmt.flat, first, target, read]
  | assign name value =>
    simp only [Stmt.assign.sizeOf_spec] at small
    have named := List.forall_mem_cons.1 names
    exact readWith_assign reads named.1 named.2 (by omega) follow
  | function name params body =>
    simp only [Stmt.function.sizeOf_spec] at small
    have length := length_lt_sizeOf params
    have first (text : List Char) : ahead word (spelled "function " text) = _ :=
      ahead_keyword "function" " " (by decide) (by decide) (by decide) text
    have target (text : List Char) : word (spelled name (spelled "(" text)) = _ :=
      (names name (by simp [Stmt.names])).word_mark (by decide) text
    have listed (text : List Char) : listOf word size (spelled "(" (spelled
        (", ".intercalate params) (spelled ")" text))) = _ :=
      listOf_names (fun param h => names param (by simp [Stmt.names, h])) (by omega) text
    have content := reads.block body (fun name h => names name (by simp [Stmt.names, h]))
      (by omega) rest
    simp [readWith, Stmt.flat, first, target, listed, content]
  | ret value =>
    cases value with
    | none =>
      have first : ahead word (spelled "return" rest) = _ :=
        ahead_word (unmarked_keyword (by decide)) (follow.mono (by decide))
      have next := follow.head?_ne (c := ' ') (by decide)
      simp [readWith, Stmt.flat, first, next]
    | some value =>
      simp only [Stmt.ret.sizeOf_spec, Option.some.sizeOf_spec] at small
      have first (text : List Char) : ahead word (spelled "return" (spelled " " text)) = _ :=
        ahead_word (unmarked_keyword (by decide)) (begins_spelled (by decide))
      have read := reads.expr value names (by omega) rest ends
      simp [readWith, Stmt.flat, first, read]
  | cond test body alternative =>
    simp only [Stmt.cond.sizeOf_spec] at small
    have first (text : List Char) : ahead word (spelled "if(" text) = _ :=
      ahead_keyword "if" "(" (by decide) (by decide) (by decide) text
    have tested (text : List Char) : expr (spelled test.text (spelled ") " text)) = _ :=
      reads.expr_mark (by decide) (fun name h => names name (by simp [Stmt.names, h]))
        (by omega) text
    have content := reads.block body (fun name h => names name (by simp [Stmt.names, h])) (by omega)
    have other := reads.alternative alternative
      (fun name h => names name (by simp [Stmt.names, h])) (by omega) size (by omega) rest follow
    simp [readWith, Stmt.flat, first, tested, content, other]
  | loop start test after body =>
    simp only [Stmt.loop.sizeOf_spec] at small
    have first (text : List Char) : ahead word (spelled "for(" text) = _ :=
      ahead_keyword "for" "(" (by decide) (by decide) (by decide) text
    have started (text : List Char) : stmt (start.flat (spelled "; " text)) = _ :=
      reads.stmt_mark (by decide) (fun name h => names name (by simp [Stmt.names, h]))
        (by omega) text
    have tested (text : List Char) : expr (spelled test.text (spelled "; " text)) = _ :=
      reads.expr_mark (by decide) (fun name h => names name (by simp [Stmt.names, h]))
        (by omega) text
    have updated (text : List Char) : stmt (after.flat (spelled ") " text)) = _ :=
      reads.stmt_mark (by decide) (fun name h => names name (by simp [Stmt.names, h]))
        (by omega) text
    have content := reads.block body (fun name h => names name (by simp [Stmt.names, h]))
      (by omega) rest
    simp [readWith, Stmt.flat, first, started, tested, updated, content]
  | block body =>
    simp only [Stmt.block.sizeOf_spec] at small
    have content := reads.block body names (by omega) rest
    have first : ahead word (flatBraced (Stmt.flatLines body) rest) = _ :=
      ahead_keyword "" "\x7b\n" (by decide) (by decide) (by decide) _
    have opened : (flatBraced (Stmt.flatLines body) rest).head? = some '\x7b' := rfl
    rw [Stmt.flat, readWith_plain first (by decide)]
    simp [readPlain, opened, content]
  | expr value =>
    simp only [Stmt.expr.sizeOf_spec] at small
    exact readWith_expr reads names (by omega) follow
  | empty =>
    have first : ahead word rest = some ("", rest) :=
      ahead_word (unmarked_keyword (w := "") (by decide)) (follow.mono (by decide))
    have opened := follow.head?_ne (c := '\x7b') (by decide)
    have closed : rest.head?.all (· ∈ afterStmt) = true := by
      cases head : rest.head? with
      | none => rfl
      | some c => simpa using follow c head
    rw [Stmt.flat, readWith_plain first (by decide)]
    simp [readPlain, opened, closed]

end Statements

theorem readsBack (size : Nat) : ReadsBack size (readExpr size) (readStmt size) := by
  induction size with
  | zero => exact ⟨readExpr_text 0, fun s _ small => by cases s <;> simp at small⟩
  | succ size ih =>
    exact ⟨readExpr_text (size + 1), fun s names small _ => ih.statement s names small⟩

/-! ## Texts are faithful -/

/-- **The text of a tree determines the tree**, for statements and for expressions whose names can
be told from all else in a text, such as identifiers that are no keywords. -/
theorem text_injective :
    (∀ s t : Stmt, (∀ name ∈ s.names, IsName name) → (∀ name ∈ t.names, IsName name) →
      s.text = t.text → s = t) ∧
    (∀ e f : Expr, (∀ name ∈ e.names, IsName name) → (∀ name ∈ f.names, IsName name) →
      e.text = f.text → e = f) := by
  have ends (chars : List Char) : Begins chars [] := fun _ h => by cases h
  constructor
  · intro s t first second text
    have flat : s.flat [] = t.flat [] := calc
      s.flat [] = unindent false (spelled s.text []) := (s.unindents first []).symm
      _ = unindent false (spelled t.text []) := by rw [text]
      _ = t.flat [] := t.unindents second []
    -- One reader reads both trees from the same text.
    have reads := readsBack (sizeOf s + sizeOf t)
    have left := reads.stmt s first (Nat.le_add_right _ _) [] (ends _)
    have right := reads.stmt t second (Nat.le_add_left _ _) [] (ends _)
    rw [flat, right] at left
    cases left
    rfl
  · intro e f first second text
    have reads := readsBack (sizeOf e + sizeOf f)
    have left := reads.expr e first (Nat.le_add_right _ _) [] (ends _)
    have right := reads.expr f second (Nat.le_add_left _ _) [] (ends _)
    rw [text, right] at left
    cases left
    rfl

/-- A loop with a block in its header, signs beside negative numbers, and empty statements. -/
def thicket : Stmt :=
  .loop (.block [.declare "i" (.int (-5)), .empty])
    (.binary .sub (.unary .minus (.int (-5))) (.post .decrement (.int (-5)))) .empty
    [.cond (.unary .minus (.int 5)) [] (.cond (.call "i" [.var "i", .int 0]) [.empty] .none),
      .empty]

theorem text_injective_thicket :
    (∀ name ∈ thicket.names, IsName name) ∧
      (∀ name ∈ ((thicket.rename fun _ => "a").rename fun _ => "i").names, IsName name) ∧
      ((thicket.rename fun _ => "a").rename fun _ => "i").text = thicket.text ∧
      ((thicket.rename fun _ => "a").rename fun _ => "i") = thicket := by
  have isName : IsName "i" :=
    IsIdentifier.isName ⟨'i', [], rfl, .inl rfl, by simp⟩ (by decide)
  have named (s : Stmt) (only : ∀ name ∈ s.names, name = "i") : ∀ name ∈ s.names, IsName name :=
    fun name mem => only name mem ▸ isName
  have first := named thicket (by decide)
  have second := named ((thicket.rename fun _ => "a").rename fun _ => "i") (by decide)
  have texts : ((thicket.rename fun _ => "a").rename fun _ => "i").text = thicket.text := by
    decide +kernel
  exact ⟨first, second, texts, text_injective.1 _ _ second first texts⟩

end NestLang
