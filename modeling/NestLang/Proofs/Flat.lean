import NestLang.Tree.Rename
import NestLang.Tree.Text

/-!
# Texts without indentation

The text of a block is indented line by line, and so are the lines of the blocks in it. What a tree
is can be told without the blanks at the starts of lines, so they are taken away once, for the whole
text.

* `IsName`: the names that can be told from all else in a text.
* `unindent`: a text without the blanks at the starts of its lines.
* `Stmt.flat`: the text of a statement, built without indentation.
* `Stmt.unindents`: **the text of a statement without its indentation.**
-/

namespace NestLang

/-! ## Names -/

/-- The characters of texts that are not part of names and numbers. -/
def marks : List Char :=
  [' ', '\n', '(', ')', '\x7b', '\x7d', ',', ';', '=', '+', '-', '*', '/', '!', '<', '>', '&', '|']

/-- The words that have a meaning of their own. -/
def keywords : List String := ["let", "function", "return", "if", "else", "for", "true", "false"]

/-- A name that is no keyword, has none of the marks in it, and does not start with a digit. -/
structure IsName (name : String) : Prop where
  unmarked : ∀ c ∈ name.toList, c ∉ marks
  start : ∃ c rest, name.toList = c :: rest ∧ c.isDigit = false
  fresh : name ∉ keywords

/-- An identifier: a letter or an underscore, followed by letters, digits and underscores. -/
def IsIdentifier (name : String) : Prop :=
  ∃ c rest, name.toList = c :: rest ∧ (c.isAlpha ∨ c = '_') ∧
    ∀ d ∈ rest, d.isAlphanum ∨ d = '_'

theorem not_mem_marks {c : Char} (h : c.isAlphanum = true ∨ c = '_') : c ∉ marks := by
  intro mark
  simp only [marks, List.mem_cons, List.not_mem_nil, or_false] at mark
  rcases mark with rfl | rfl | rfl | rfl | rfl | rfl | rfl | rfl | rfl | rfl | rfl | rfl | rfl |
    rfl | rfl | rfl | rfl | rfl <;> revert h <;> decide

theorem isDigit_eq_false {c : Char} (h : c.isAlpha = true ∨ c = '_') : c.isDigit = false := by
  rcases h with h | rfl
  · have letter : 'A' ≤ c ∨ 'a' ≤ c := (Bool.or_eq_true_iff.1 h).imp
      (fun upper => (of_decide_eq_true upper).1)
      (fun lower => of_decide_eq_true (Bool.and_eq_true_iff.1 lower).1)
    rw [← Bool.not_eq_true]
    intro digit
    have nine : c ≤ '9' := of_decide_eq_true (Bool.and_eq_true_iff.1 digit).2
    rcases letter with h | h
    · exact absurd (Char.le_trans h nine) (by decide)
    · exact absurd (Char.le_trans h nine) (by decide)
  · rfl

/-- **Identifiers are names**, unless they are keywords. -/
theorem IsIdentifier.isName {name : String} (h : IsIdentifier name) (fresh : name ∉ keywords) :
    IsName name := by
  obtain ⟨c, rest, eq, first, others⟩ := h
  refine ⟨fun d hd => not_mem_marks ?_, ⟨c, rest, eq, ?_⟩, fresh⟩
  · rw [eq] at hd
    rcases List.mem_cons.1 hd with rfl | hd
    · simp only [Char.isAlphanum, Bool.or_eq_true]
      exact first.imp_left .inl
    · exact others d hd
  · exact isDigit_eq_false first

/-! ## Indentation -/

/-- A text and what follows it. -/
def spelled (text : String) (rest : List Char) : List Char := text.toList ++ rest

@[simp]
theorem spelled_empty (rest : List Char) : spelled "" rest = rest := rfl

theorem spelled_append (a b : String) (rest : List Char) :
    spelled (a ++ b) rest = spelled a (spelled b rest) := by
  simp [spelled]

/-- The text without the blanks at the starts of its lines, where `start` says whether the text
starts a line. -/
def unindent (start : Bool) : List Char → List Char
  | [] => []
  | c :: rest =>
    if start && c == ' ' then unindent true rest else c :: unindent (c == '\n') rest

theorem unindent_line {text : String} (line : '\n' ∉ text.toList) (rest : List Char) :
    unindent false (spelled text rest) = spelled text (unindent false rest) := by
  unfold spelled
  generalize text.toList = text at line
  induction text with
  | nil => rfl
  | cons c text ih =>
    rw [List.mem_cons, not_or] at line
    have next : (c == '\n') = false := beq_false_of_ne (Ne.symm line.1)
    simp [unindent, next, ih line.2]

theorem unindent_shifted (start : Bool) (text rest : List Char) :
    unindent start ((text.flatMap fun c => if c = '\n' then ['\n', ' ', ' '] else [c]) ++ rest) =
      unindent start (text ++ rest) := by
  induction text generalizing start with
  | nil => rfl
  | cons c text ih =>
    by_cases h : c = '\n'
    · simp [h, unindent, ih]
    · simp [h, unindent, ih]

theorem unindent_true {text : List Char} (start : text.head? ≠ some ' ') :
    unindent true text = unindent false text := by
  cases text with
  | nil => rfl
  | cons c rest =>
    have blank : (c == ' ') = false := beq_false_of_ne fun h => start (by rw [h]; rfl)
    simp [unindent, blank]

theorem head?_unindent (text : List Char) : (unindent false text).head? = text.head? := by
  cases text <;> rfl

theorem unindent_indented (text : String) (rest : List Char) :
    unindent true (spelled (indented text) rest) =
      unindent true (spelled text (spelled "\n" rest)) := by
  simp [indented, spelled, unindent, unindent_shifted]

/-! ## Texts of statements -/

/-- The lines of a block between its braces, and what follows it. -/
def flatBraced (lines : List Char → List Char) (rest : List Char) : List Char :=
  spelled "\x7b\n" (lines (spelled "\x7d" rest))

mutual

/-- The text of a statement without indentation, and what follows it. -/
def Stmt.flat : Stmt → List Char → List Char
  | .declare name value, rest =>
    spelled "let " (spelled name (spelled " = " (spelled value.text rest)))
  | .assign name value, rest => spelled name (spelled " = " (spelled value.text rest))
  | .function name params body, rest =>
    spelled "function " (spelled name (spelled "(" (spelled (", ".intercalate params)
      (spelled ")" (spelled " " (flatBraced (Stmt.flatLines body) rest))))))
  | .ret none, rest => spelled "return" rest
  | .ret (some value), rest => spelled "return" (spelled " " (spelled value.text rest))
  | .cond test body alternative, rest =>
    spelled "if(" (spelled test.text (spelled ") " (flatBraced (Stmt.flatLines body)
      (alternative.flat rest))))
  | .loop first test after body, rest =>
    spelled "for(" (first.flat (spelled "; " (spelled test.text (spelled "; " (after.flat
      (spelled ") " (flatBraced (Stmt.flatLines body) rest)))))))
  | .block body, rest => flatBraced (Stmt.flatLines body) rest
  | .expr value, rest => spelled value.text rest
  | .empty, rest => rest

/-- The lines of some statements without indentation, and what follows them. -/
def Stmt.flatLines : List Stmt → List Char → List Char
  | [], rest => rest
  | s :: body, rest => s.flat (spelled "\n" (Stmt.flatLines body rest))

/-- The text of an alternative without indentation, and what follows it. -/
def Else.flat : Else → List Char → List Char
  | .none, rest => rest
  | .block body, rest => spelled " else " (flatBraced (Stmt.flatLines body) rest)
  | .cond test body alternative, rest =>
    spelled " else " (spelled "if(" (spelled test.text (spelled ") " (flatBraced
      (Stmt.flatLines body) (alternative.flat rest)))))

end

/-! ## Texts in one line -/

theorem IsName.line {name : String} (h : IsName name) : '\n' ∉ name.toList :=
  fun mem => h.unmarked _ mem (by decide)

theorem not_mem_intercalate {c : Char} {mark : String} {texts : List String}
    (apart : c ∉ mark.toList) (h : ∀ text ∈ texts, c ∉ text.toList) :
    c ∉ (mark.intercalate texts).toList := by
  rw [String.toList_intercalate]
  induction texts with
  | nil => simp [List.intercalate_nil]
  | cons text texts ih =>
    have first := h text List.mem_cons_self
    have others := ih fun text mem => h text (List.mem_cons_of_mem _ mem)
    cases texts with
    | nil => simpa [List.intercalate_singleton] using first
    | cons next texts => simpa [List.intercalate_cons_cons, first, apart] using others

theorem Value.text_of_nonneg {v : Value} (h : 0 ≤ v.toInt) : v.text = v.toInt.toNat.repr := by
  rw [Value.text, Int.toString_eq_repr, Int.repr_eq_if, if_pos h]

theorem Value.text_of_neg {v : Value} (h : v.toInt < 0) :
    v.text = "-" ++ (-v.toInt).toNat.repr := by
  rw [Value.text, Int.toString_eq_repr, Int.repr_eq_if, if_neg (by omega)]

theorem isDigit_of_mem_repr {n : Nat} {c : Char} (h : c ∈ n.repr.toList) : c.isDigit = true := by
  rw [Nat.toList_repr] at h
  exact Nat.isDigit_of_mem_toDigits (by decide) (by decide) h

theorem not_mem_marks_of_isDigit {c : Char} (h : c.isDigit = true) : c ∉ marks :=
  not_mem_marks (.inl (by simp [Char.isAlphanum, h]))

theorem not_mem_toString (n : Int) {c : Char} (letter : c.isDigit = false) (unsigned : c ≠ '-') :
    c ∉ (toString n).toList := by
  have digits (k : Nat) : c ∉ k.repr.toList := fun mem => by
    rw [isDigit_of_mem_repr mem] at letter
    cases letter
  rw [Int.toString_eq_repr, Int.repr_eq_if]
  split
  · exact digits _
  · rw [String.toList_append, List.mem_append]
    exact not_or.2 ⟨by simpa using unsigned, digits _⟩

theorem Value.line (v : Value) : '\n' ∉ v.text.toList :=
  not_mem_toString v.toInt (by decide) (by decide)

mutual

theorem Expr.line : (e : Expr) → (∀ name ∈ e.names, IsName name) → '\n' ∉ e.text.toList
  | .int value, _ => value.line
  | .bool value, _ => by cases value <;> decide
  | .var name, names => (names name (List.mem_singleton.2 rfl)).line
  | .call name args, names => by
    have called := (names name List.mem_cons_self).line
    have operands : '\n' ∉ (", ".intercalate (Expr.texts args)).toList :=
      not_mem_intercalate (by decide)
        (Expr.lines args fun name h => names name (List.mem_cons_of_mem _ h))
    simpa [Expr.text, called] using operands
  | .unary op operand, names => by
    have inner := operand.line names
    have sign : '\n' ∉ op.symbol.toList := by cases op <;> decide
    simp [Expr.text, sign, inner]
  | .binary op left right, names => by
    have first := left.line fun name h => names name (List.mem_append_left _ h)
    have second := right.line fun name h => names name (List.mem_append_right _ h)
    have sign : '\n' ∉ op.symbol.toList := by cases op <;> decide
    simp [Expr.text, sign, first, second]
  | .post op operand, names => by
    have inner := operand.line names
    have sign : '\n' ∉ op.symbol.toList := by cases op <;> decide
    simp [Expr.text, sign, inner]

theorem Expr.lines : (es : List Expr) → (∀ name ∈ Expr.namesAll es, IsName name) →
    ∀ text ∈ Expr.texts es, '\n' ∉ text.toList
  | [], _, text, h => absurd h List.not_mem_nil
  | e :: es, names, text, h => by
    rcases List.mem_cons.1 h with rfl | h
    · exact e.line fun name h => names name (List.mem_append_left _ h)
    · exact Expr.lines es (fun name h => names name (List.mem_append_right _ h)) text h

end

/-! ## The first characters of texts -/

theorem head?_spelled {text : String} {c : Char} {more : List Char} (h : text.toList = c :: more)
    (rest : List Char) : (spelled text rest).head? = some c := by
  rw [spelled, h]
  rfl

theorem IsName.head? {name : String} (h : IsName name) (rest : List Char) :
    ∃ c, (spelled name rest).head? = some c ∧ c ∉ marks := by
  obtain ⟨c, more, eq, -⟩ := h.start
  exact ⟨c, head?_spelled eq rest, h.unmarked c (by simp [eq])⟩

theorem head?_repr (n : Nat) (rest : List Char) :
    ∃ c, (spelled n.repr rest).head? = some c ∧ c ∉ marks := by
  cases eq : n.repr.toList with
  | nil => exact absurd (Nat.toList_repr ▸ eq) Nat.toDigits_ne_nil
  | cons c more =>
    have digit : c.isDigit = true := isDigit_of_mem_repr (n := n) (by simp [eq])
    exact ⟨c, head?_spelled eq rest, not_mem_marks_of_isDigit digit⟩

/-- The text of an expression starts with a bracket or with a character of a word, unless the
expression is a negative number. -/
theorem Expr.head? (e : Expr) (names : ∀ name ∈ e.names, IsName name) (rest : List Char) :
    (∃ value, e = .int value ∧ value.toInt < 0) ∨
      ∃ c, (spelled e.text rest).head? = some c ∧ (c = '(' ∨ c ∉ marks) := by
  cases e with
  | int value =>
    rcases Int.lt_or_le value.toInt 0 with h | h
    · exact .inl ⟨value, rfl, h⟩
    · rw [Expr.text, Value.text_of_nonneg h]
      exact .inr ((head?_repr _ rest).imp fun c h => ⟨h.1, .inr h.2⟩)
  | bool value => cases value <;> exact .inr ⟨_, rfl, .inr (by decide)⟩
  | var name =>
    exact .inr (((names name (List.mem_singleton.2 rfl)).head? rest).imp fun c h => ⟨h.1, .inr h.2⟩)
  | call name args =>
    simp only [Expr.text, spelled_append]
    exact .inr (((names name List.mem_cons_self).head? _).imp fun c h => ⟨h.1, .inr h.2⟩)
  | unary op operand => exact .inr ⟨_, by simp only [Expr.text, spelled_append]; rfl, .inl rfl⟩
  | binary op left right => exact .inr ⟨_, by simp only [Expr.text, spelled_append]; rfl, .inl rfl⟩
  | post op operand => exact .inr ⟨_, by simp only [Expr.text, spelled_append]; rfl, .inl rfl⟩

theorem Expr.exists_head? (e : Expr) (names : ∀ name ∈ e.names, IsName name) (rest : List Char) :
    ∃ c, (spelled e.text rest).head? = some c ∧ (c = '(' ∨ c = '-' ∨ c ∉ marks) := by
  rcases e.head? names rest with ⟨value, rfl, h⟩ | ⟨c, head, start⟩
  · rw [Expr.text, Value.text_of_neg h, spelled_append]
    exact ⟨'-', rfl, .inr (.inl rfl)⟩
  · exact ⟨c, head, start.imp_right .inr⟩

theorem Expr.head?_ne (e : Expr) (names : ∀ name ∈ e.names, IsName name) (rest : List Char)
    {c : Char} (mark : c ∈ marks.filter (· ∉ ['(', '-'])) :
    (spelled e.text rest).head? ≠ some c := by
  obtain ⟨d, head, start⟩ := e.exists_head? names rest
  rw [head]
  rintro ⟨⟩
  rw [List.mem_filter] at mark
  rcases start with rfl | rfl | start
  · exact absurd mark.2 (by decide)
  · exact absurd mark.2 (by decide)
  · exact start mark.1

theorem Stmt.head?_ne (s : Stmt) (names : ∀ name ∈ s.names, IsName name) {rest : List Char}
    {c : Char} (mark : c = ' ' ∨ c = '\x7d') (h : rest.head? ≠ some c) :
    (s.flat rest).head? ≠ some c := by
  cases s with
  | expr value => exact value.head?_ne names rest (by rcases mark with rfl | rfl <;> decide)
  | assign name value =>
    obtain ⟨d, eq, first⟩ := (names name List.mem_cons_self).head?
      (spelled " = " (spelled value.text rest))
    rw [Stmt.flat, eq]
    rintro ⟨⟩
    rcases mark with rfl | rfl <;> exact first (by decide)
  | ret value =>
    cases value <;> rcases mark with rfl | rfl <;> simp [Stmt.flat, spelled]
  | empty => exact h
  | _ => rcases mark with rfl | rfl <;> simp [Stmt.flat, flatBraced, spelled]

/-! ## The text of a statement -/

mutual

/-- **The text of a statement without its indentation.** -/
theorem Stmt.unindents : (s : Stmt) → (∀ name ∈ s.names, IsName name) → (rest : List Char) →
    unindent false (spelled s.text rest) = s.flat (unindent false rest)
  | .declare name value, names, rest => by
    have target := (names name List.mem_cons_self).line
    have line := value.line fun name h => names name (List.mem_cons_of_mem _ h)
    simp only [Stmt.text, Stmt.flat, spelled_append]
    rw [unindent_line (by decide), unindent_line target, unindent_line (by decide),
      unindent_line line]
  | .assign name value, names, rest => by
    have target := (names name List.mem_cons_self).line
    have line := value.line fun name h => names name (List.mem_cons_of_mem _ h)
    simp only [Stmt.text, Stmt.flat, spelled_append]
    rw [unindent_line target, unindent_line (by decide), unindent_line line]
  | .function name params body, names, rest => by
    have called := (names name (by simp [Stmt.names])).line
    have listed : '\n' ∉ (", ".intercalate params).toList :=
      not_mem_intercalate (by decide) fun param h => (names param (by simp [Stmt.names, h])).line
    have content := Stmt.unindentsBraced body fun name h => names name (by simp [Stmt.names, h])
    simp only [Stmt.text, Stmt.flat, spelled_append]
    rw [unindent_line (by decide), unindent_line called, unindent_line (by decide),
      unindent_line listed, unindent_line (by decide), content]
    rfl
  | .ret none, _, _ => unindent_line (by decide) _
  | .ret (some value), names, rest => by
    simp only [Stmt.text, Stmt.flat, spelled_append]
    rw [unindent_line (by decide), unindent_line (value.line names)]
    rfl
  | .cond test body alternative, names, rest => by
    have line := test.line fun name h => names name (by simp [Stmt.names, h])
    have content := Stmt.unindentsBraced body fun name h => names name (by simp [Stmt.names, h])
    have other := alternative.unindents fun name h => names name (by simp [Stmt.names, h])
    simp only [Stmt.text, Stmt.flat, spelled_append]
    rw [unindent_line (by decide), unindent_line line, unindent_line (by decide), content, other]
  | .loop first test after body, names, rest => by
    have start := first.unindents fun name h => names name (by simp [Stmt.names, h])
    have line := test.line fun name h => names name (by simp [Stmt.names, h])
    have update := after.unindents fun name h => names name (by simp [Stmt.names, h])
    have content := Stmt.unindentsBraced body fun name h => names name (by simp [Stmt.names, h])
    simp only [Stmt.text, Stmt.flat, spelled_append]
    rw [unindent_line (by decide), start, unindent_line (by decide), unindent_line line,
      unindent_line (by decide), update, unindent_line (by decide), content]
  | .block body, names, rest => Stmt.unindentsBraced body names rest
  | .expr value, names, rest => unindent_line (value.line names) rest
  | .empty, _, _ => rfl

theorem Stmt.unindentsBraced (body : List Stmt) (names : ∀ name ∈ Stmt.namesAll body, IsName name)
    (rest : List Char) : unindent false (spelled (braced (Stmt.linesText body)) rest) =
      flatBraced (Stmt.flatLines body) (unindent false rest) := by
  have opened (text : List Char) :
      unindent false (spelled "\x7b\n" text) = spelled "\x7b\n" (unindent true text) := rfl
  simp only [braced, flatBraced, spelled_append]
  rw [opened, Stmt.unindentsLines body names]

theorem Stmt.unindentsLines : (body : List Stmt) →
    (∀ name ∈ Stmt.namesAll body, IsName name) → (rest : List Char) →
    unindent true (spelled (Stmt.linesText body) (spelled "\x7d" rest)) =
      Stmt.flatLines body (spelled "\x7d" (unindent false rest))
  | [], _, rest => rfl
  | s :: body, names, rest => by
    have first := s.unindents fun name h => names name (by simp [Stmt.namesAll, h])
    have others := Stmt.unindentsLines body
      (fun name h => names name (by simp [Stmt.namesAll, h])) rest
    have ended (text : List Char) :
        unindent false (spelled "\n" text) = spelled "\n" (unindent true text) := rfl
    -- All blanks in front of the statement are indentation, since it starts with none itself.
    have start (text : List Char) : (spelled s.text (spelled "\n" text)).head? ≠ some ' ' := by
      rw [← head?_unindent, first]
      refine s.head?_ne (fun name h => names name (by simp [Stmt.namesAll, h])) (.inl rfl) ?_
      rw [ended]
      simp [spelled]
    simp only [Stmt.linesText, Stmt.flatLines, spelled_append]
    rw [unindent_indented, unindent_true (start _), first, ended, others]

theorem Else.unindents : (alternative : Else) →
    (∀ name ∈ alternative.names, IsName name) → (rest : List Char) →
    unindent false (spelled alternative.text rest) = alternative.flat (unindent false rest)
  | .none, _, _ => rfl
  | .block body, names, rest => by
    have content := Stmt.unindentsBraced body names
    simp only [Else.text, Else.flat, spelled_append]
    rw [unindent_line (by decide), content]
  | .cond test body alternative, names, rest => by
    have line := test.line fun name h => names name (by simp [Else.names, h])
    have content := Stmt.unindentsBraced body fun name h => names name (by simp [Else.names, h])
    have other := alternative.unindents fun name h => names name (by simp [Else.names, h])
    simp only [Else.text, Else.flat, spelled_append]
    rw [unindent_line (by decide), unindent_line line, unindent_line (by decide), content, other]
    rfl

end

end NestLang
