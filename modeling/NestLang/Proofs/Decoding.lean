import NestLang.Code.Basic
import NestLang.Proofs.Flat

/-!
# Decoding compiled programs

The text of a compiled program is decoded in the reverse order of its making: it is cut into lines,
each line into words, and the words are a mnemonic and numerals. Each of these decoders accepts the
texts that the other side writes and no others, so the text of a compiled program has one meaning.

* `Decodes`: a decoder that accepts exactly what is written.
* `decodes_numeral`: numerals without leading zeros.
* `fields`, `fields_eq_iff`: a text cut at each occurrence of a character.
* `Instr.ofParts?`: the instruction with a given mnemonic and given operands.
* `Instr.decodes_read`, `Code.decodes_read`: lines and whole programs.
* `code_text_faithful`: **the text of a compiled program determines the program.**
-/

namespace NestLang

/-! ## Decoders -/

section Decoders

variable {α β : Type} {read : α → Option β} {print : β → α}

/-- The decoder accepts exactly what is printed, and gives back what has been printed. -/
def Decodes (read : α → Option β) (print : β → α) : Prop :=
  ∀ a b, read a = some b ↔ print b = a

theorem Decodes.injective (h : Decodes read print) {b c : β} (same : print b = print c) :
    b = c := by
  have first := (h (print b) b).2 rfl
  have second := (h (print b) c).2 same.symm
  rw [first] at second
  exact Option.some.inj second

/-- **Lists are decoded item by item.** -/
theorem Decodes.mapM (h : Decodes read print) : Decodes (List.mapM read) (List.map print) := by
  intro as
  induction as with
  | nil =>
    intro bs
    cases bs <;> simp
  | cons a as ih =>
    intro bs
    cases bs with
    | nil => simp [Option.bind_eq_some_iff]
    | cons b bs => simp [← h a b, ← ih bs, Option.bind_eq_some_iff]

end Decoders

/-! ## Numerals -/

/-- The number that a sign and some digits stand for. -/
def signedDigits : List Char → Int
  | '-' :: digits => -(Nat.ofDigitChars 10 digits 0 : Nat)
  | digits => (Nat.ofDigitChars 10 digits 0 : Nat)

/-- The number that a word stands for, if the number is written like this. -/
def numeral? (w : String) : Option Int :=
  if toString (signedDigits w.toList) = w then some (signedDigits w.toList) else none

theorem signedDigits_toString (n : Int) : signedDigits (toString n).toList = n := by
  rw [Int.toString_eq_repr, Int.repr_eq_if]
  split
  · have unsigned (digits : List Char) : n.toNat.repr.toList ≠ '-' :: digits := by
      intro eq
      have digit : '-'.isDigit = true := isDigit_of_mem_repr (n := n.toNat) (by simp [eq])
      exact absurd digit (by decide)
    rw [signedDigits]
    · rw [Nat.toList_repr, Nat.ofDigitChars_ten_toDigits]
      omega
    · exact unsigned
  · rw [String.toList_append]
    show (-(Nat.ofDigitChars 10 (-n).toNat.repr.toList 0 : Nat) : Int) = n
    rw [Nat.toList_repr, Nat.ofDigitChars_ten_toDigits]
    omega

theorem decodes_numeral : Decodes numeral? (toString : Int → String) := by
  intro w n
  unfold numeral?
  constructor
  · intro h
    split at h
    · rename_i same
      rwa [← Option.some.inj h]
    · cases h
  · rintro rfl
    rw [signedDigits_toString, if_pos rfl]

/-! ## Cutting texts -/

/-- The parts of a text before, between and behind the occurrences of a character. -/
def fields (c : Char) (text : String) : List String := (text.toList.splitOn c).map String.ofList

/-- **A text is cut into the words of which it is made,** if the character is in none of them. -/
theorem fields_eq_iff {c : Char} {mark text : String} {words : List String}
    (single : mark.toList = [c]) (nonempty : words ≠ []) (apart : ∀ w ∈ words, c ∉ w.toList) :
    fields c text = words ↔ mark.intercalate words = text := by
  unfold fields
  constructor
  · rintro rfl
    apply String.toList_inj.1
    rw [String.toList_intercalate, single, List.map_map]
    simp [Function.comp_def]
  · rintro rfl
    have cut : ([c].intercalate (words.map String.toList)).splitOn c = words.map String.toList :=
      List.splitOn_intercalate c (by simpa using apart) (by simpa using nonempty)
    rw [String.toList_intercalate, single, cut, List.map_map]
    simp [Function.comp_def]

/-- The lines of a text, if the last one is ended like all others. -/
def lines? (text : String) : Option (List String) :=
  if (fields '\n' text).getLast? = some "" then some (fields '\n' text).dropLast else none

theorem join_lines (lines : List String) :
    String.join (lines.map (· ++ "\n")) = "\n".intercalate (lines ++ [""]) := by
  induction lines with
  | nil => rfl
  | cons line lines ih =>
    rw [List.map_cons, String.join_cons, ih, List.cons_append,
      String.intercalate_cons_of_ne_nil (by simp)]

/-- **A text is cut into its lines.** -/
theorem lines?_eq_some {text : String} {lines : List String}
    (apart : ∀ line ∈ lines, '\n' ∉ line.toList) :
    lines? text = some lines ↔ String.join (lines.map (· ++ "\n")) = text := by
  have cut : fields '\n' text = lines ++ [""] ↔ "\n".intercalate (lines ++ [""]) = text := by
    apply fields_eq_iff rfl (by simp)
    intro line hline
    rcases List.mem_append.1 hline with hline | hline
    · exact apart line hline
    · rw [List.mem_singleton.1 hline]
      decide
  rw [join_lines, ← cut]
  unfold lines?
  constructor
  · intro h
    split at h
    · rename_i last
      obtain ⟨others, eq⟩ := List.getLast?_eq_some_iff.1 last
      rw [eq, List.dropLast_concat] at h
      rw [eq, Option.some.inj h]
    · cases h
  · intro h
    rw [h, List.getLast?_concat, if_pos rfl, List.dropLast_concat]

/-! ## Instructions -/

namespace Instr

/-- The instructions that may have the given operands. Not all of them do, because there are
numbers that are no levels, targets or values. -/
def candidates : List Int → List Instr
  | [] => [pop, neg, not, print] ++
      [.add, .sub, .mul, .div, .eq, .ne, .lt, .le, .gt, .ge, .and, .or].map binary
  | [n] => [lit (.ofInt n), jump n.toNat, jumpIf n.toNat]
  | [m, n] => [load m.toNat n, store m.toNat n, call m.toNat n.toNat, ret m.toNat n.toNat]
  | _ => []

/-- The instruction with the given mnemonic and operands. -/
def ofParts? (name : String) (operands : List Int) : Option Instr :=
  (candidates operands).find? fun i => i.mnemonic = name ∧ i.operands = operands

theorem ofParts?_self (i : Instr) : ofParts? i.mnemonic i.operands = some i := by
  cases i with
  | binary op => cases op <;> rfl
  | pop | neg | not | print => rfl
  | _ => simp [ofParts?, candidates, mnemonic, operands]

/-- **An instruction is determined by its mnemonic and its operands.** -/
theorem decodes_parts : Decodes (fun parts : String × List Int => ofParts? parts.1 parts.2)
    fun i => (i.mnemonic, i.operands) := by
  rintro ⟨name, operands⟩ i
  constructor
  · intro h
    have found := List.find?_some h
    simpa using found
  · intro h
    cases h
    exact i.ofParts?_self

/-- The words of which the text of an instruction is made. -/
def words (i : Instr) : List String := i.mnemonic :: i.operands.map toString

theorem text_eq (i : Instr) : i.text = " ".intercalate i.words := rfl

theorem isAlpha_of_mem_mnemonic (i : Instr) {c : Char} (h : c ∈ i.mnemonic.toList) :
    c.isAlpha = true := by
  have letters : i.mnemonic.toList.all Char.isAlpha = true := by
    cases i with
    | binary op => cases op <;> decide
    | _ => rw [mnemonic]; decide
  exact List.all_eq_true.1 letters c h

theorem not_mem_words (i : Instr) {c : Char} (letter : c.isAlpha = false)
    (digit : c.isDigit = false) (unsigned : c ≠ '-') : ∀ w ∈ i.words, c ∉ w.toList := by
  intro w hw
  rcases List.mem_cons.1 hw with rfl | hw
  · intro mem
    rw [i.isAlpha_of_mem_mnemonic mem] at letter
    cases letter
  · obtain ⟨n, -, rfl⟩ := List.mem_map.1 hw
    exact not_mem_toString n digit unsigned

/-- The instruction that a line stands for. -/
def read? (line : String) : Option Instr :=
  match fields ' ' line with
  | [] => none
  | name :: numerals => (numerals.mapM numeral?).bind (ofParts? name)

/-- **Instructions are decoded.** -/
theorem decodes_read : Decodes read? text := by
  intro line i
  have cut : fields ' ' line = i.words ↔ " ".intercalate i.words = line :=
    fields_eq_iff rfl (List.cons_ne_nil _ _) (i.not_mem_words (by decide) (by decide) (by decide))
  rw [text_eq, ← cut, read?]
  cases fields ' ' line with
  | nil => simp [words]
  | cons name numerals =>
    have parts (operands : List Int) : ofParts? name operands = some i ↔ _ :=
      decodes_parts (name, operands) i
    have numbers (operands : List Int) : numerals.mapM numeral? = some operands ↔ _ :=
      decodes_numeral.mapM numerals operands
    simp only [Option.bind_eq_some_iff, parts, numbers]
    constructor
    · rintro ⟨operands, rfl, ⟨⟩⟩
      rfl
    · rintro ⟨⟩
      exact ⟨_, rfl, rfl⟩

end Instr

/-! ## Programs -/

namespace Code

/-- The program that a text stands for, with an instruction in each line. -/
def read? (text : String) : Option Code :=
  (lines? text).bind fun lines => (lines.mapM Instr.read?).map List.toArray

/-- **Programs are decoded.** -/
theorem decodes_read : Decodes read? text := by
  intro text code
  have cut (is : List Instr) : lines? text = some (is.map Instr.text) ↔ _ :=
    lines?_eq_some fun line hline => by
      obtain ⟨i, -, rfl⟩ := List.mem_map.1 hline
      exact not_mem_intercalate (by decide) (i.not_mem_words (by decide) (by decide) (by decide))
  have each (lines : List String) (is : List Instr) : lines.mapM Instr.read? = some is ↔ _ :=
    Instr.decodes_read.mapM lines is
  have whole : Code.text code = String.join ((code.toList.map Instr.text).map (· ++ "\n")) := by
    rw [Code.text, List.map_map]
    rfl
  rw [whole, ← cut]
  unfold read?
  constructor
  · intro h
    obtain ⟨lines, cutLines, h⟩ := Option.bind_eq_some_iff.1 h
    obtain ⟨is, read, rfl⟩ := Option.map_eq_some_iff.1 h
    rw [cutLines, ← (each lines is).1 read]
  · intro h
    rw [h, Option.bind_some, (each _ code.toList).2 rfl]
    rfl

end Code

/-- **The text of a compiled program determines the program.** The decoder accepts the texts of
compiled programs and no others, and gives back the program that was written. So programs of
whatever length and with whatever operands have different texts if they are different. -/
theorem code_text_faithful :
    (∀ (text : String) (code : Code), Code.read? text = some code ↔ code.text = text) ∧
      ∀ code other : Code, code.text = other.text ↔ code = other :=
  ⟨Code.decodes_read, fun _ _ => ⟨Code.decodes_read.injective, congrArg Code.text⟩⟩

/-- A number has one numeral, a level is not negative, and the last line is ended. -/
example :
    Code.read? "lit -3\nsto 0 2\npri\n" = some #[.lit (-3), .store 0 2, .print] ∧
      Code.read? "lit -03\n" = none ∧ Code.read? "sto -1 2\n" = none ∧
      Code.read? "pri" = none := by
  decide +kernel

end NestLang
