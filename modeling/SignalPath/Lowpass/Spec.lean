import SignalPath.Lowpass.Bessel
import SignalPath.Rate.Basic

/-!
# Dimensions of a low-pass filter

A filter for a conversion is a sinc function under a Kaiser window, sampled at several phases. Its
length follows from how steeply it has to fall between the passband and half the sample rate, its
number of phases from how far linear interpolation between two of them may be off, and the shape of
its window from the attenuation beyond half the sample rate, which is that of 16 bits.

Lengths and numbers of phases are words, and two of the sums on the way to the length have no room
to spare: `SpecFault.overflow` is what they raise. `Spec.checked` accepts the conversions that a
converter can run.
-/

namespace SignalPath

/-- Roots and sines, which are not made of arithmetic alone, and the window's Bessel function. -/
class Transcendental (α : Type) where
  /-- Square root. -/
  sqrt : α → α
  /-- Sine of an angle in radians. -/
  sin : α → α
  /-- Modified Bessel function of order zero. -/
  besselI0 : α → α

instance : Transcendental Float where
  sqrt := Float.sqrt
  sin := Float.sin
  besselI0 := Bessel.i0

/-- Number of input samples that a converter keeps. A filter has to be shorter. -/
def historySize : Nat := 16384

/-- Why there is no filter for a conversion. -/
inductive SpecFault where
  /-- The rates or the passband are refused. -/
  | rates (error : RateError)
  /-- The length does not fit a word. -/
  | overflow
  /-- The filter is longer than the samples that a converter keeps. -/
  | tooLong (length : Nat)
deriving DecidableEq, Repr

/-- The wording of a fault. -/
def SpecFault.message : SpecFault → String
  | .rates error => error.message
  | .overflow => "attempt to add with overflow"
  | .tooLong length =>
    "FIR length " ++ toString length ++ " does not fit the " ++ toString historySize
      ++ " sample ring"

/-- The dimensions of a filter. -/
structure Spec (α : Type) where
  /-- The number of coefficients of each phase. -/
  length : Nat
  /-- The number of phases for each input sample. -/
  phases : Nat
  /-- The number of input samples for each output sample. -/
  ratio : Ratio α
  /-- The shape parameter of the window. -/
  shape : α
  /-- A filter has a coefficient in the middle. -/
  length_odd : length % 2 = 1
  /-- A filter has at least one phase. -/
  phases_pos : 0 < phases

namespace Spec

section

variable {α : Type} [Add α] [Sub α] [Mul α] [Div α] [Neg α] [LT α] [LE α] [DecidableLT α]
  [DecidableLE α] [OfScientific α] [Whole α] [Transcendental α]

/-- The ratio of a circle's circumference to its diameter, to 53 binary digits. -/
def pi : α := ofInt 884279719003555 / ofInt 281474976710656

/-- The attenuation of 16 bits, 20 times the decimal logarithm of `2 ^ 16`, to 53 binary digits. -/
def attenuation : α := ofInt 6778592881498239 / ofInt 70368744177664

/-- The shape parameter of the window for the attenuation. -/
def kaiserShape : α := 0.1102 * (attenuation - 8.7)

/-- The width of the transition from the passband to half the sample rate, as an angle for each
output sample. It is doubled because the filter is half way down at half the sample rate. -/
@[specialize]
def transition (sample passband : α) : α :=
  (1.0 - 2.0 * passband / sample) * pi * 2.0

/-- The number of zero crossings that the transition needs, before it is made even. -/
@[specialize]
def crossings (sample passband : α) : Int :=
  truncate registerMin registerMax
    ((attenuation - 7.95) / (2.285 * transition sample passband) + 0.5)

/-- The order of the filter for each input sample: an even number, since the sinc function is
symmetric. -/
@[specialize]
def order (sample passband : α) : Except SpecFault Int :=
  let n := crossings sample passband
  let even := n + n % 2
  if even ≤ registerMax then .ok even else .error .overflow

/-- The number of coefficients for an order and a ratio. It is made odd. -/
@[specialize]
def lengthOf (order : Int) (ratio : α) : Except SpecFault { n : Nat // n % 2 = 1 } :=
  let n := wholeWord (ofInt order * ratio)
  if n < largestWord then .ok ⟨(n + 1) / 2 * 2 + 1, by omega⟩ else .error .overflow

/-- The number of phases for a ratio. Linear interpolation between `n` phases is off by at most
`1.234 / n ^ 2`, which has to stay below one unit of 16 bits. -/
@[specialize]
def phasesOf (ratio : α) : Nat :=
  max (roundUp (Transcendental.sqrt ((1.234 : α) * 65536.0) / ratio)) 1

/-- The dimensions for a ratio, a sample rate and a passband that nobody checks. -/
@[specialize]
def ofRatio (ratio : Ratio α) (sample passband : α) : Except SpecFault (Spec α) := do
  let order ← order sample passband
  let ⟨length, length_odd⟩ ← lengthOf order ratio.value
  return { length, phases := phasesOf ratio.value, ratio, shape := kaiserShape, length_odd
           phases_pos := Nat.lt_of_lt_of_le Nat.zero_lt_one (Nat.le_max_right _ _) }

/-- The dimensions for a conversion whose rates and passband nobody checks. -/
@[specialize]
def derive (clock sample passband : α) : Except SpecFault (Spec α) :=
  ofRatio (Ratio.of clock sample) sample passband

/-- The dimensions for a conversion that a converter can run. -/
@[specialize]
def checked (clock sample passband : α) : Except SpecFault (Spec α) :=
  match checkRates clock sample with
  | .error e => .error (.rates e)
  | .ok () =>
    if (0.0 : α) < passband ∧ passband < sample / 2.0 then
      match derive clock sample passband with
      | .ok spec => if spec.length < historySize then .ok spec else .error (.tooLong spec.length)
      | .error e => .error e
    else .error (.rates .passbandOutsideBand)

end

/-- The dimensions for unchecked rates that are given by their bit patterns. -/
def ofPatterns (clock sample : UInt64) (passband : Float) : Except SpecFault (Spec Float) :=
  ofRatio (Ratio.ofPatterns clock sample) (Float.ofBits sample) passband

/-- Two specifications agree if their dimensions do and their numbers compare as equal, which a
ratio that is not a number does not even with itself. -/
instance : BEq (Spec Float) where
  beq a b := a.length == b.length && a.phases == b.phases && a.ratio.value == b.ratio.value
    && a.shape == b.shape

end Spec

end SignalPath
