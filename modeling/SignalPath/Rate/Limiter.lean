import SignalPath.Number.Whole

/-!
# Soft limiting into 16 bits

Converted samples are floating point and may exceed the range of the output. Magnitudes below
`Limiter.threshold` pass unchanged. Above it the excess is bent by a rational approximation of the
hyperbolic tangent, so that the level approaches the end of the range instead of being cut there.
The two signs have ends of their own, 32768 below zero and 32767 above.
-/

namespace SignalPath.Limiter

section

variable {α : Type} [Add α] [Sub α] [Mul α] [Div α] [Neg α] [LT α] [LE α] [DecidableLT α]
  [DecidableLE α] [OfScientific α] [Whole α]

/-- Magnitudes below this one pass unchanged. -/
def threshold : α := 28000.0

/-- A fifth-order Padé approximation of the hyperbolic tangent for an argument that is not
negative; it is 1 from 3 on. -/
@[specialize]
def tanh (x : α) : α :=
  if (3.0 : α) ≤ x then 1.0
  else
    let square := x * x
    x * (945.0 + square * (105.0 + square)) / (945.0 + square * (420.0 + square * 15.0))

/-- Brings a magnitude into the range from 0 to `limit`. -/
@[specialize]
def bend (magnitude limit : α) : α :=
  if magnitude < threshold then magnitude
  else
    let knee := threshold / limit
    let headroom := 1.0 - knee
    let excess := (magnitude - threshold) / limit
    (knee + headroom * tanh (excess / headroom)) * limit

/-- The 16-bit level of a sample, its fraction dropped. A sample that is not a number is silence. -/
@[specialize]
def level (x : α) : Int :=
  if x < 0.0 then truncate (-32768) 32767 (-bend (-x) 32768.0)
  else truncate (-32768) 32767 (bend x 32767.0)

end

end SignalPath.Limiter
