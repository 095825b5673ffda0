import SignalPath.Number.Whole

/-!
# Rates

A converter takes samples at a clock rate and gives them at a lower sample rate. `checkRates` says
which pairs of rates can be converted, and `Ratio` is the number of clock samples for each output
sample.

A ratio is also identified by its exact bit pattern. For a number that is the pattern of its value.
A ratio that is not a number has a pattern all the same, which tells where it came from:
`Ratio.ofPatterns` follows the patterns of the rates through their division.
-/

namespace SignalPath

/-- Clock rate of the chip in a PAL machine, in Hz. -/
def palClock : Nat := 985248

/-- Clock rate of the chip in an NTSC machine, in Hz. -/
def ntscClock : Nat := 1022727

/-- Why a pair of rates, or a pair with a passband, is refused. -/
inductive RateError where
  /-- The clock rate is not above zero. -/
  | clockNotPositive
  /-- The sample rate is not above zero. -/
  | sampleNotPositive
  /-- The passband does not lie strictly between zero and half the sample rate. -/
  | passbandOutsideBand
  /-- The clock rate is below the sample rate. -/
  | upsampling
deriving DecidableEq, Repr

/-- The wording of a refusal. -/
def RateError.message : RateError → String
  | .clockNotPositive => "clock frequency must be positive"
  | .sampleNotPositive => "sample frequency must be positive"
  | .passbandOutsideBand =>
    "highest accurate frequency must lie between 0 and half the sample frequency"
  | .upsampling => "clock frequency is below the sample frequency"

section

variable {α : Type} [Div α] [LT α] [LE α] [DecidableLT α] [DecidableLE α] [OfScientific α]

/-- Accepts a clock rate and a sample rate that is not above it. The clock is looked at first. A
rate that is not a number is not above zero. -/
def checkRates (clock sample : α) : Except RateError Unit :=
  if ¬(0.0 : α) < clock then .error .clockNotPositive
  else if ¬(0.0 : α) < sample then .error .sampleNotPositive
  else if clock < sample then .error .upsampling
  else .ok ()

omit [Div α] [LE α] [DecidableLE α] in
theorem checkRates_eq_ok_iff {clock sample : α} :
    checkRates clock sample = .ok () ↔
      (0.0 : α) < clock ∧ (0.0 : α) < sample ∧ ¬ clock < sample := by
  by_cases hclock : (0.0 : α) < clock
  · by_cases hsample : (0.0 : α) < sample
    · by_cases hlt : clock < sample
      · simp [checkRates, hclock, hsample, hlt]
      · simp [checkRates, hclock, hsample, hlt]
    · simp [checkRates, hclock, hsample]
  · simp [checkRates, hclock]

omit [Div α] [LE α] [DecidableLE α] in
theorem checkRates_eq_upsampling {clock sample : α} (hclock : (0.0 : α) < clock)
    (hsample : (0.0 : α) < sample) (h : clock < sample) :
    checkRates clock sample = .error .upsampling := by
  simp [checkRates, hclock, hsample, h]

/-- The number of clock samples for each output sample. -/
structure Ratio (α : Type) where
  /-- The quotient of the rates. -/
  value : α
  /-- The bits that tell ratios apart if they are not numbers: those of the rate that was not a number
  to begin with, or the sign bit alone if both rates are numbers and have no quotient. -/
  payload : UInt64

/-- Whether a value is a number: one that is not has no order, not even with itself. -/
def isNumber (x : α) : Bool := x ≤ x

/-- The sign bit of a pattern. -/
def signBit : UInt64 := 0x8000000000000000

/-- The bits that every result that is not a number has set: all of its exponent and the leading
one of its fraction. -/
def notNumberBits : UInt64 := 0x7FF8000000000000

/-- The ratio of a clock rate to a sample rate. -/
def Ratio.of (clock sample : α) : Ratio α :=
  ⟨clock / sample, if isNumber clock && isNumber sample then signBit else 0⟩

end

/-- The ratio of a clock rate to a sample rate that are given by their bit patterns. If neither of
them is a number, the payload is that of the clock rate. -/
def Ratio.ofPatterns (clock sample : UInt64) : Ratio Float :=
  let c := Float.ofBits clock
  let s := Float.ofBits sample
  ⟨c / s, if !isNumber c then clock else if !isNumber s then sample else signBit⟩

/-- The bit pattern that identifies a ratio. -/
def Ratio.pattern (r : Ratio Float) : UInt64 :=
  if isNumber r.value then r.value.toBits else r.payload ||| notNumberBits

end SignalPath
