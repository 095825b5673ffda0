import SignalPath.Rate.Limiter
import SignalPath.Rate.Phase

/-!
# Sample rate converters

A converter takes one sample for each chip cycle and says when an output sample is ready. A fault
leaves behind what the converter had stored when it arose, and the converter can be fed again.
-/

namespace SignalPath

/-- A streaming converter with state `σ`. -/
class Converter (σ : Type) where
  /-- Takes one input sample and says whether an output sample is ready. -/
  feed : σ → Float32 → σ × Except ConverterFault Bool
  /-- The most recent output sample, 0 before the first one. -/
  output : σ → Float32
  /-- Forgets every sample. -/
  reset : σ → σ

namespace Converter

variable {σ : Type} [Converter σ]

/-- Takes one input sample and gives the output sample if one became ready. -/
def next (s : σ) (x : Float32) : σ × Except ConverterFault (Option Float32) :=
  match feed s x with
  | (s', .ok true) => (s', .ok (some (output s')))
  | (s', .ok false) => (s', .ok none)
  | (s', .error e) => (s', .error e)

section

variable {s s' : σ} {x : Float32}

theorem next_of_ready (h : feed s x = (s', .ok true)) :
    next s x = (s', .ok (some (output s'))) := by
  rw [next, h]

theorem next_of_not_ready (h : feed s x = (s', .ok false)) : next s x = (s', .ok none) := by
  rw [next, h]

theorem next_of_error {e : ConverterFault} (h : feed s x = (s', .error e)) :
    next s x = (s', .error e) := by
  rw [next, h]

@[simp]
theorem fst_next (s : σ) (x : Float32) : (next s x).1 = (feed s x).1 := by
  rcases hfeed : feed s x with ⟨s', e | ready⟩
  · rw [next_of_error hfeed]
  · cases ready with
    | false => rw [next_of_not_ready hfeed]
    | true => rw [next_of_ready hfeed]

end

/-- The most recent output sample, scaled and limited to 16 bits. -/
def level (s : σ) (scale : Float32) : Int :=
  Limiter.level (output s * scale)

end Converter

end SignalPath
