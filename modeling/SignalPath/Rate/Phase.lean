import SignalPath.Rate.Basic

/-!
# Phase of the output relative to the input

A converter keeps, in fixed point with 1024 units for each input sample, how far away the next
output sample is. Every input sample brings it one input sample nearer; if it falls due before the
next input, it is given and the distance grows by the step, which is the ratio of the rates.

The offset lives in a 32-bit register. `Phase.tick` names the two ways in which it can leave the
register and keeps what had been stored by then.
-/

namespace SignalPath

/-- Phase units for each input sample. -/
def phaseUnit : Int := 1024

/-- Why a converter fails on an input sample. -/
inductive ConverterFault where
  /-- Adding the step takes the offset out of its register. -/
  | offsetTooLarge
  /-- Subtracting an input sample takes the offset out of its register. -/
  | offsetTooSmall
  /-- The filter bank has no row for the phase. -/
  | missingRow
  /-- The history no longer holds the samples that the filter covers. -/
  | missingSamples
deriving DecidableEq, Repr

/-- The wording of a fault. -/
def ConverterFault.message : ConverterFault → String
  | .offsetTooLarge => "attempt to add with overflow"
  | .offsetTooSmall => "attempt to subtract with overflow"
  | .missingRow => "filter row out of range"
  | .missingSamples => "sample window out of range"

/-- Position of the next output sample in the input stream. -/
structure Phase where
  /-- Distance from the current input sample to the next output sample, in phase units. -/
  offset : Int
  /-- Distance between two output samples, in phase units. -/
  step : Int
deriving DecidableEq, Repr

namespace Phase

/-- The phase at the start of a stream with the given step. -/
def start (step : Int) : Phase := ⟨0, step⟩

/-- The step for a ratio of rates, cut to a whole number of phase units that fits the register. -/
def stepOf {α : Type} [Mul α] [Neg α] [LT α] [DecidableLT α] [OfScientific α] [Whole α]
    (r : Ratio α) : Int :=
  truncate registerMin registerMax (r.value * 1024.0)

/-- Whether a value fits the offset register. -/
def fits (x : Int) : Bool := registerMin ≤ x && x ≤ registerMax

/-- Moves one input sample ahead and passes on what is due. -/
def lower (p : Phase) (due : Option Int) : Phase × Except ConverterFault (Option Int) :=
  let offset := p.offset - phaseUnit
  if fits offset then ({ p with offset }, .ok due) else (p, .error .offsetTooSmall)

/-- Takes one input sample. If an output sample falls due before the next one, gives how far it
lies after the input sample before this one. -/
def tick (p : Phase) : Phase × Except ConverterFault (Option Int) :=
  if p.offset < phaseUnit then
    let raised := p.offset + p.step
    if fits raised then lower { p with offset := raised } (some p.offset)
    else (p, .error .offsetTooLarge)
  else lower p none

/-- No input changes the step. -/
@[simp]
theorem step_tick (p : Phase) : p.tick.1.step = p.step := by
  unfold tick lower
  dsimp only
  split
  · split
    · split <;> rfl
    · rfl
  · split <;> rfl

/-- Back to the start of the stream. -/
def reset (p : Phase) : Phase := start p.step

end Phase

end SignalPath
