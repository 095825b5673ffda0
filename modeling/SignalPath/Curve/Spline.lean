/-!
# Monotone splines

A measured curve is a list of knots with increasing `x`. Between two knots the spline is a cubic
that meets both of them. Its slope at an inner knot is zero if the curve turns or is flat there, and
else a weighted harmonic mean of the secants on both sides, which keeps every cubic between its
knots. The outer slopes are the outer secants, and outside the knots the outer cubics go on.
-/

namespace SignalPath

/-- A point of a measured curve. -/
structure Knot (α : Type) where
  /-- Where the curve was measured. -/
  x : α
  /-- What was measured there. -/
  y : α
deriving Repr

/-- The polynomial `((a t + b) t + c) t + d` of the distance `t` from its origin. -/
structure Cubic (α : Type) where
  /-- Where `t` is zero. -/
  origin : α
  /-- Coefficient of `t ^ 3`. -/
  a : α
  /-- Coefficient of `t ^ 2`. -/
  b : α
  /-- Coefficient of `t`, the slope at the origin. -/
  c : α
  /-- The value at the origin. -/
  d : α
deriving Repr

/-- Two knots that follow each other. -/
structure Span (α : Type) where
  /-- The knot at the lower end. -/
  left : Knot α
  /-- The knot at the upper end. -/
  right : Knot α
deriving Repr

/-- A cubic and the end of the range that it answers for. -/
structure Piece (α : Type) where
  /-- The polynomial. -/
  cubic : Cubic α
  /-- The largest argument that the piece answers for. -/
  upper : α
deriving Repr

/-- A piecewise cubic function. -/
structure Spline (α : Type) where
  /-- All pieces but the last, in order. -/
  inner : List (Piece α)
  /-- The cubic above every inner piece. -/
  last : Cubic α
deriving Repr

/-- Why a list of knots has no spline. -/
inductive KnotError where
  /-- There are fewer than three knots. -/
  | tooFew
  /-- Some knot does not lie above the one before it. -/
  | notIncreasing
deriving DecidableEq, Repr

/-- The wording of a refusal. -/
def KnotError.message : KnotError → String
  | .tooFew => "spline needs at least 3 knots"
  | .notIncreasing => "spline knots must have strictly increasing x"

section

variable {α : Type} [Add α] [Sub α] [Mul α] [Div α] [LT α] [LE α] [DecidableLT α] [DecidableLE α]
  [OfScientific α]

namespace Cubic

/-- The value at `x`. -/
@[specialize]
def value (p : Cubic α) (x : α) : α :=
  let t := x - p.origin
  ((p.a * t + p.b) * t + p.c) * t + p.d

/-- The slope at `x`. -/
@[specialize]
def slope (p : Cubic α) (x : α) : α :=
  let t := x - p.origin
  (3.0 * p.a * t + 2.0 * p.b) * t + p.c

end Cubic

namespace Span

/-- The distance of the knots. -/
def width (s : Span α) : α := s.right.x - s.left.x

/-- The slope of the line through the knots. -/
def secant (s : Span α) : α := (s.right.y - s.left.y) / s.width

/-- The slope at the knot that `s` and the following span `t` share. -/
@[specialize]
def slopeBetween (s t : Span α) : α :=
  if s.secant * t.secant ≤ 0.0 then 0.0
  else
    let sum := s.width + t.width
    3.0 * sum / ((sum + t.width) / s.secant + (sum + s.width) / t.secant)

/-- The cubic through both knots with the given slopes there. -/
@[specialize]
def cubic (s : Span α) (leftSlope rightSlope : α) : Cubic α :=
  let inverse := 1.0 / s.width
  let bend := leftSlope + rightSlope - 2.0 * s.secant
  { origin := s.left.x
    a := bend * inverse * inverse
    b := (s.secant - leftSlope - bend) * inverse
    c := leftSlope
    d := s.left.y }

/-- The spans between `p` and the knots that follow it. -/
def chain (p : Knot α) : List (Knot α) → List (Span α)
  | [] => []
  | q :: rest => ⟨p, q⟩ :: chain q rest

end Span

namespace Spline

/-- The spline over `s` and the spans that follow it, with a given slope at the first knot. -/
@[specialize]
def join (leftSlope : α) (s : Span α) : List (Span α) → Spline α
  | [] => ⟨[], s.cubic leftSlope s.secant⟩
  | t :: rest =>
    let slope := s.slopeBetween t
    let tail := join slope t rest
    { tail with inner := ⟨s.cubic leftSlope slope, s.right.x⟩ :: tail.inner }

/-- The spline through two knots and those that follow. -/
@[specialize]
def through (p q : Knot α) (rest : List (Knot α)) : Spline α :=
  let first : Span α := ⟨p, q⟩
  join first.secant first (Span.chain q rest)

/-- Whether every knot lies above the one before it. -/
def increasing : List (Knot α) → Bool
  | p :: q :: rest => p.x < q.x && increasing (q :: rest)
  | _ => true

/-- The spline through at least three knots with increasing `x`. -/
@[specialize]
def ofKnots (knots : List (Knot α)) : Except KnotError (Spline α) :=
  match knots with
  | p :: q :: r :: rest =>
    if increasing knots then .ok (through p q (r :: rest)) else .error .notIncreasing
  | _ => .error .tooFew

/-- The cubic that answers for `x`: of the first piece that does not end below `x`. -/
@[specialize]
def cubicAt (s : Spline α) (x : α) : Cubic α :=
  match s.inner.find? fun p => !(p.upper < x : Bool) with
  | some p => p.cubic
  | none => s.last

/-- The value of the spline at `x`. -/
@[specialize]
def value (s : Spline α) (x : α) : α := (s.cubicAt x).value x

/-- The slope of the spline at `x`. -/
@[specialize]
def slope (s : Spline α) (x : α) : α := (s.cubicAt x).slope x

end Spline

end

end SignalPath
