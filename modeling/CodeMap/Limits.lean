/-
The limits of numbers that are kept in 32 or 64 bits.
-/
namespace CodeMap

/-- The largest number of 32 bits. -/
def maxUnsigned32 : Nat := 0xFFFFFFFF

/-- The largest number of 64 bits. -/
def maxUnsigned64 : Nat := 0xFFFFFFFFFFFFFFFF

/-- The largest number of 64 bits, one of which is a sign. -/
def maxSigned64 : Nat := 0x7FFFFFFFFFFFFFFF

/-- How many numbers have 64 bits. -/
def span64 : Nat := 0x10000000000000000

/-- Whether a whole number has 64 bits, one of which is a sign. -/
def fitsSigned64 (n : Int) : Bool := -(maxSigned64 : Int) - 1 ≤ n && n ≤ (maxSigned64 : Int)

end CodeMap
