/-!
# Values

The machine has one kind of value, the signed 64-bit word. Truth values, addresses in the program
and bases of stack frames are all stored as words.

* `Value.ofBool`: how a truth value is stored.
* `Value.ofAddress` and `Value.address?`: how an address is stored in a word and read back, if it
  is below `addressBound`.
* `signed`: the signed number under which an address is reported.
-/

namespace NestLang

/-- A runtime value, a signed 64-bit word. Arithmetic on values wraps. -/
abbrev Value := Int64

/-- The number of addresses, levels and counts that a word can tell apart, which is `2 ^ 64`. -/
def wordCount : Nat := 0x10000000000000000

/-- The number of addresses that a word stores as themselves, which is `2 ^ 63`. -/
def addressBound : Nat := 0x8000000000000000

theorem addressBound_lt_wordCount : addressBound < wordCount := by decide

/-- Truth is `1` and falsehood is `0`. -/
def Value.ofBool (b : Bool) : Value := if b then 1 else 0

/-- The word that stores an address: its two's complement reading, so addresses from
`addressBound` on are stored as negative values. -/
def Value.ofAddress (address : Nat) : Value := Int64.ofNat address

/-- The address that a word stores. A negative word stores none. -/
def Value.address? (v : Value) : Option Nat := if v < 0 then none else some v.toInt.toNat

/-- The signed number under which an address is reported. -/
def signed (address : Nat) : Int := (Value.ofAddress address).toInt

theorem signed_of_lt {address : Nat} (h : address < addressBound) : signed address = address :=
  Int64.toInt_ofNat_of_lt h

theorem Value.address?_ofAddress {address : Nat} (h : address < addressBound) :
    (Value.ofAddress address).address? = some address := by
  have hs : (Value.ofAddress address).toInt = address := Int64.toInt_ofNat_of_lt h
  rw [Value.address?, if_neg, hs]
  · simp
  · rw [Int64.lt_iff_toInt_lt, hs]
    simp

/-- The decimal text of a value. -/
def Value.text (v : Value) : String := toString v.toInt

end NestLang
