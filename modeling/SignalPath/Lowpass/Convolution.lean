/-!
# Convolution

`convolve` multiplies samples with coefficients and adds up the products. Floating-point sums depend
on their order, so the order is part of the definition: the products go round over eight lanes, each
lane keeps the sums of its even and of its odd rounds apart, and what does not fill a round is added
at the end. At exact numbers the order does not matter and the result is the plain sum.
-/

namespace SignalPath.Convolution

section

variable {α : Type} [Add α] [Mul α] [OfScientific α]

/-- The sum of `count` terms that are 16 places apart, from the one at `first` on. -/
@[specialize]
def every16 (terms : Array α) (first : Nat) :
    (count : Nat) → (16 * count + first < terms.size + 16) → α
  | 0, _ => 0.0
  | count + 1, h => every16 terms first count (by omega) + terms[16 * count + first]

/-- The sum of one of eight lanes over all full rounds: the even rounds and then the odd ones. -/
@[specialize]
def lane (terms : Array α) (i : Nat) (h : i < 8) : α :=
  every16 terms i ((terms.size + 8) / 16) (by omega)
    + every16 terms (8 + i) (terms.size / 16) (by omega)

/-- The sum of all lanes: of the lower four and of the upper four, which are then added. -/
@[specialize]
def lanes (terms : Array α) : α :=
  (lane terms 0 (by decide) + lane terms 1 (by decide) + lane terms 2 (by decide)
      + lane terms 3 (by decide))
    + (lane terms 4 (by decide) + lane terms 5 (by decide) + lane terms 6 (by decide)
      + lane terms 7 (by decide))

/-- The sum of all terms: the full rounds by lanes, and then the others in order. -/
@[specialize]
def sum (terms : Array α) : α :=
  terms.foldl (· + ·) (lanes terms) (8 * (terms.size / 8))

/-- The sum of the products of samples and coefficients, up to the end of the shorter list. -/
@[specialize]
def convolve (samples coefficients : Array α) : α :=
  sum (Array.zipWith (· * ·) samples coefficients)

end

end SignalPath.Convolution
