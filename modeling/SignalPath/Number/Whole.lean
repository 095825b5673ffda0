/-!
# Whole parts

Lookup tables, filter lengths and converter steps are whole numbers that come out of formulas over
fractions. `Whole` is what those formulas ask of a number type besides arithmetic and order: the
integers it contains, and the whole part of a value. With it a formula is written once and runs at
`Float`, at `Float32`, and without any rounding at `Rat`.

`truncate` drops the fraction of a value of either sign and keeps the result inside a range;
`roundUp` is the next whole number.
-/

namespace SignalPath

/-- A number type that contains the integers and whose values have a whole part. -/
class Whole (α : Type) where
  /-- The value of an integer, rounded if the type has to round it. -/
  ofInt : Int → α
  /-- The largest natural number that is not above the value. It is 0 for a negative value and for
  a value that is not a number, and a type may cap it at its largest word. -/
  whole : α → Nat

export Whole (ofInt whole)

instance : Whole Float where
  ofInt := Float.ofInt
  whole x := x.toUInt64.toNat

instance : Whole Float32 where
  ofInt := Float32.ofInt
  whole x := x.toUInt64.toNat

instance : Whole Rat where
  ofInt := Rat.ofInt
  whole x := x.floor.toNat

/-- The largest 64-bit word. -/
def largestWord : Nat := UInt64.size - 1

/-- The smallest value of a 32-bit register with sign. -/
def registerMin : Int := -2147483648

/-- The largest value of a 32-bit register with sign. -/
def registerMax : Int := 2147483647

section Rounding

variable {α : Type} [Neg α] [LT α] [DecidableLT α] [OfScientific α] [Whole α]

/-- The value without its fraction, moved to the nearer end of `lo` to `hi` if it lies outside. -/
@[specialize]
def truncate (lo hi : Int) (x : α) : Int :=
  if x < 0.0 then max lo (-(whole (-x) : Int)) else min hi (whole x)

/-- The value without its fraction as a word. -/
@[specialize]
def wholeWord (x : α) : Nat :=
  min (whole x) largestWord

/-- The smallest whole number that is not below the value, as a word. -/
@[specialize]
def roundUp (x : α) : Nat :=
  let below := whole x
  min (if (ofInt below : α) < x then below + 1 else below) largestWord

end Rounding

end SignalPath
