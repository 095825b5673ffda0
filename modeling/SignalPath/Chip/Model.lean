import SignalPath.Chip.Integrator
import SignalPath.Curve.Spline
import SignalPath.Number.Whole

/-!
# Filter model of the 8580

The constants of the chip's filter and what follows from them: the scale on which the integrator
computes, and the reverse table of its op-amp. The op-amp was measured as pairs of an input and an
output voltage. Half their difference is what the capacitor is charged to, so a spline through the
input voltage over that difference gives, for each charge, the voltage at the input.

The constants serve at any number type. Circuits compute with them in floating point; the reverse
table is computed in exact fractions, so that an entry is the curve rounded once and nothing else.
-/

namespace SignalPath

namespace Mos8580

section

variable {α : Type} [OfScientific α]

/-- The measured transfer curve of the op-amp, as input and output voltages. -/
def transferCurve : Vector (α × α) 21 := #v[
  (1.30, 8.91),  -- the range of the op-amp starts about here
  (4.76, 8.91),
  (4.77, 8.90),
  (4.78, 8.88),
  (4.785, 8.86),
  (4.79, 8.80),
  (4.795, 8.60),
  (4.80, 8.25),
  (4.805, 7.50),
  (4.81, 6.10),
  (4.815, 4.05),  -- the curvature changes here
  (4.82, 2.27),
  (4.825, 1.65),
  (4.83, 1.55),
  (4.84, 1.47),
  (4.85, 1.43),
  (4.87, 1.37),
  (4.90, 1.34),
  (5.00, 1.30),
  (5.10, 1.30),
  (8.91, 1.30)]  -- and ends about here

/-- The level of the voices without signal, in volts. -/
def voiceDc : α := 4.84

/-- The capacitor of an integrator, in farads. -/
def capacitor : α := 22e-9

/-- The positive supply, in volts. -/
def supply : α := 9.09

/-- The threshold of the transistors, in volts. -/
def threshold : α := 0.80

/-- Mobility times gate capacitance of the transistors, in amperes per square volt. -/
def transconductance : α := 100e-6

/-- The length of a clock cycle that the gain is reckoned for, in seconds. -/
def cycle : α := 1.0e-6

end

/-- The width to length ratio of the smallest transistor of the cutoff converter. -/
def smallestWidth : Float := 0.00615

/-- The bits of the cutoff register. -/
def cutoffBits : Nat := 11

/-- The width to length ratio that the cutoff register selects: each of its low 11 bits switches a
transistor twice as wide as the one before it, and without any a leakage of half the smallest is
left. -/
def cutoffWidth (register : UInt16) : Float :=
  let selected := (List.range cutoffBits).filter register.toNat.testBit
  if selected.isEmpty then smallestWidth / 2.0
  else (selected.map fun bit => smallestWidth * Float.ofNat (1 <<< bit)).foldl (· + ·) 0.0

/-- The gate multiplier for a position on the range of filter curves, from 0 for dark to 1 for
bright. A position outside is moved to the nearer end. -/
def curveMultiplier (curve : Float) : Float :=
  let inside := if curve < 0.0 then 0.0 else if 1.0 < curve then 1.0 else curve
  1.8 - inside * 0.6

end Mos8580

/-- A scale on which voltages are 16-bit numbers. -/
structure Scale (α : Type) where
  /-- The voltage at the lower end. -/
  lowest : α
  /-- The width of the scale, in volts. -/
  span : α
  /-- Scale units for each volt. -/
  unitsPerVolt : α

namespace Scale

open Mos8580

variable {α : Type} [Add α] [Sub α] [Mul α] [Div α] [LT α] [LE α] [DecidableLT α] [DecidableLE α]
  [OfScientific α]

/-- The scale of the 8580: from the lowest input voltage of the op-amp up to its highest output, or
to the supply less a threshold if that is higher. -/
@[specialize]
def mos8580 : Scale α :=
  let curve : Vector (α × α) 21 := transferCurve
  let (lowest, top) := curve[0]
  let swing : α := supply - threshold
  let highest := if swing < top then top else swing
  let span := highest - lowest
  { lowest, span, unitsPerVolt := 65535.0 / span }

/-- A point of the reverse curve: the input voltage over half the difference to the output. -/
@[specialize]
def reverseKnot (s : Scale α) (point : α × α) : Knot α :=
  { x := s.unitsPerVolt * (point.1 - point.2) / 2.0 + 32768.0
    y := s.unitsPerVolt * (point.1 - s.lowest) }

/-- The reverse curve of the measured op-amp. -/
@[specialize]
def reverseSpline (s : Scale α) : Spline α :=
  let knots := Vector.map s.reverseKnot transferCurve
  Spline.through knots[0] knots[1] (knots.toList.drop 2)

/-- An entry of a reverse table: the curve at a charge, rounded and kept to 16 bits. -/
@[specialize]
def entry [Whole α] (curve : Spline α) (charge : Nat) : UInt16 :=
  UInt16.ofNat (min (whole (curve.value (ofInt charge) + 0.5)) 65535)

end Scale

/-- The reverse table of the 8580's op-amp. -/
def Mos8580.reverseTable : ReverseTable :=
  let curve : Spline Rat := Scale.mos8580.reverseSpline
  Vector.ofFn fun charge => Scale.entry curve charge

/-- A filter model: the scale of its voltages and the reverse table of its op-amp. -/
structure FilterModel where
  /-- The reverse table, shared by the integrators of the model. -/
  table : ReverseTable
  /-- The scale. -/
  scale : Scale Float
  /-- The gain of a transistor on the scale. -/
  gain : Float

namespace FilterModel

open Mos8580

/-- The model of the 8580. -/
def mos8580 : FilterModel :=
  let scale : Scale Float := Scale.mos8580
  { table := reverseTable
    scale
    gain := scale.span * (transconductance / 2.0 * cycle / capacitor) }

/-- What is noted when the model is built. -/
def summary (m : FilterModel) : String :=
  "built 8580 filter model: N16=" ++ Decimal.fixed 3 m.scale.unitsPerVolt ++ " vmin="
    ++ Decimal.shortest m.scale.lowest ++ " nKp=" ++ Decimal.fixed 6 m.gain

/-- The circuit around an integrator of the model. -/
def circuit (m : FilterModel) : Circuit :=
  { voiceDc, threshold, gain := m.gain, lowest := m.scale.lowest
    unitsPerVolt := m.scale.unitsPerVolt }

/-- A fresh integrator of the model. -/
def integrator (m : FilterModel) : Except IntegratorFault Integrator :=
  Integrator.start m.table m.circuit

/-- A voltage on the scale of the model, rounded. -/
def unitsOf (m : FilterModel) (volts : Float) : Int :=
  truncate registerMin registerMax (m.scale.unitsPerVolt * (volts - m.scale.lowest) + 0.5)

end FilterModel

end SignalPath
