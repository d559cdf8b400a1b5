import NestLang.Fault
import NestLang.Value

/-!
# Outputs

Where the machine prints. A print may fail, and then the output says why.

* `Array Value`: keeps every value.
* `Bounded`: keeps values up to a capacity and refuses the rest.
* `Transcript`: keeps the text of the values, one a line.
-/

namespace NestLang

/-- A place to print values. -/
class Output (ω : Type) where
  /-- Print one value. -/
  print : Value → EStateM OutputFault ω Unit

/-- An array keeps every value, in the order of the prints. -/
instance : Output (Array Value) where
  print v := fun values => .ok () (values.push v)

/-- An output that keeps values while it holds fewer than `capacity` and refuses every later one
for the same reason. -/
structure Bounded where
  values : Array Value
  capacity : Nat
  cause : OutputFault

instance : Output Bounded where
  print v := fun out =>
    if out.values.size < out.capacity then
      .ok () ⟨out.values.push v, out.capacity, out.cause⟩
    else .error out.cause out

/-- The text of all values printed, each ended by a line break. -/
structure Transcript where
  text : String

instance : Output Transcript where
  print v := fun out => .ok () ⟨out.text ++ v.text ++ "\n"⟩

end NestLang
