/-
Ranges of integers that fit a fixed number of bits.

The engine computes with integers of any size.  The ranges say which of them
a JSON number, a literal of a document or the scalar `Int` can hold.
-/

namespace GraphQLEngine

namespace IntRange

/-- Whether an integer fits 32 bits with a sign. -/
def signed32 (n : Int) : Bool :=
  decide (-0x80000000 ≤ n ∧ n < 0x80000000)

/-- Whether an integer fits 64 bits with a sign. -/
def signed64 (n : Int) : Bool :=
  decide (-0x8000000000000000 ≤ n ∧ n < 0x8000000000000000)

/-- Whether an integer fits 64 bits without a sign. -/
def unsigned64 (n : Int) : Bool :=
  decide (0 ≤ n ∧ n < 0x10000000000000000)

end IntRange

end GraphQLEngine
