import SignalPath.Number.Whole

/-!
# Modified Bessel function of order zero

The Kaiser window is a quotient of values of this function. Its power series has only positive
terms, `(x / 2) ^ (2 k) / (k !) ^ 2`, which grow until `k` reaches half of the argument and then fall
ever faster. The sum stops at the first term that is below a millionth of the sum so far.

From the term with number `⌈|x|⌉` on, each term is less than a quarter of the one before it, so ten
more terms bring it below the bound: `termLimit` is never what stops the sum of a number.
-/

namespace SignalPath.Bessel

section

variable {α : Type} [Add α] [Mul α] [Div α] [Neg α] [LT α] [DecidableLT α] [OfScientific α]
  [Whole α]

/-- A term below this part of the sum ends it. -/
def tolerance : α := 1e-6

/-- Adds terms of the series: `n` is the number of the next term, `term` the term before it and
`sum` the sum up to there. -/
@[specialize]
def sumFrom (half : α) : Nat → α → α → α → α
  | 0, _, _, sum => sum
  | limit + 1, n, term, sum =>
    let factor := half / n
    let term' := term * (factor * factor)
    let sum' := sum + term'
    if term' < tolerance * sum' then sum' else sumFrom half limit (n + 1.0) term' sum'

/-- More terms than the sum for `x` takes. -/
@[specialize]
def termLimit (x : α) : Nat :=
  whole (if x < 0.0 then -x else x) + 13

/-- The value at `x`, within a millionth of itself. -/
@[specialize]
def i0 (x : α) : α :=
  sumFrom (x / 2.0) (termLimit x) 1.0 1.0 1.0

end

end SignalPath.Bessel
