import SignalPath.Lowpass.Spec

/-!
# Filter banks

A bank holds the coefficients of a low-pass filter, one row for each phase. Row `i` is the filter
moved by `i / phases` of an input sample. The filter is centred on the middle coefficient, so that
the row that would follow the last one is the first one moved by a whole sample.
-/

namespace SignalPath

/-- Rows of filter coefficients. -/
structure Bank (τ : Type) where
  /-- The number of coefficients in each row. -/
  length : Nat
  /-- The number of rows. -/
  phases : Nat
  /-- The coefficients of each phase. -/
  rows : Vector (Vector τ length) phases

namespace Bank

/-- The coefficients of a phase, if the bank has it. -/
def row? {τ : Type} (bank : Bank τ) (phase : Int) : Option (Vector τ bank.length) :=
  if 0 ≤ phase then bank.rows[phase.toNat]? else none

theorem row?_natCast {τ : Type} {bank : Bank τ} {phase : Nat} (h : phase < bank.phases) :
    bank.row? (phase : Int) = some bank.rows[phase] := by
  rw [row?, if_pos (Int.natCast_nonneg phase), Int.toNat_natCast, Vector.getElem?_eq_getElem h]

/-- All coefficients, row after row. -/
def coefficients {τ : Type} (bank : Bank τ) : Array τ :=
  bank.rows.toArray.flatMap (·.toArray)

/-- Banks agree if their dimensions do and their coefficients compare as equal. -/
instance {τ : Type} [BEq τ] : BEq (Bank τ) where
  beq a b := a.length == b.length && a.phases == b.phases && a.coefficients == b.coefficients

section

variable {α : Type} [Add α] [Sub α] [Mul α] [Div α] [Neg α] [LT α] [LE α] [DecidableLT α]
  [DecidableLE α] [OfScientific α] [Whole α] [Transcendental α]

/-- The magnitude of a value. -/
@[specialize]
def magnitude (x : α) : α := if x < 0.0 then -x else x

/-- The cardinal sine `sin x / x`, with its limit 1 around zero. -/
@[specialize]
def sinc (x : α) : α :=
  if (1e-8 : α) ≤ magnitude x then Transcendental.sin x / x else 1.0

/-- The continuous low-pass filter that the rows of a bank are samples of. -/
structure Prototype (α : Type) where
  /-- How many input samples the filter reaches to each side of its centre. -/
  half : α
  /-- The number of input samples for each output sample. -/
  ratio : α
  /-- The shape parameter of the window. -/
  shape : α
  /-- The Bessel function at the shape parameter. -/
  peak : α

namespace Prototype

/-- The filter of a specification, centred on the middle coefficient. -/
@[specialize]
def ofSpec (spec : Spec α) : Prototype α :=
  { half := ofInt (spec.length / 2)
    ratio := spec.ratio.value
    shape := spec.shape
    peak := Transcendental.besselI0 spec.shape }

/-- The Kaiser window over the range from -1 to 1. It is zero at the ends and beyond. -/
@[specialize]
def window (p : Prototype α) (x : α) : α :=
  if magnitude x < 1.0 then
    Transcendental.besselI0 (p.shape * Transcendental.sqrt (1.0 - x * x)) / p.peak
  else 0.0

/-- The filter `x` input samples from its centre. Its edge lies at half the sample rate. -/
@[specialize]
def value (p : Prototype α) (x : α) : α :=
  let scale := Spec.pi / p.ratio / Spec.pi
  scale * sinc (Spec.pi * x / p.ratio) * p.window (x / p.half)

/-- How far position `j` of a row lies from the centre. The positions of a row go from 0 up to its
length, but the formula goes on in both directions. -/
@[specialize]
def offset (p : Prototype α) (phase phases : Nat) (j : Int) : α :=
  ofInt j - (ofInt phase / ofInt phases + p.half)

/-- The coefficient at position `j` of one of the phases. -/
@[specialize]
def coefficient (p : Prototype α) (phase phases : Nat) (j : Int) : α :=
  p.value (p.offset phase phases j)

end Prototype

/-- The bank of a specification, its coefficients kept in the form that `store` gives them. -/
@[specialize]
def design {τ : Type} (spec : Spec α) (store : α → τ) : Bank τ :=
  let prototype := Prototype.ofSpec spec
  { length := spec.length
    phases := spec.phases
    rows := Vector.ofFn fun phase => Vector.ofFn fun j =>
      store (prototype.coefficient phase spec.phases (j.val : Int)) }

end

/-- The bank that a converter runs on, in single precision. -/
def ofSpec (spec : Spec Float) : Bank Float32 :=
  design spec Float.toFloat32

end Bank

end SignalPath
