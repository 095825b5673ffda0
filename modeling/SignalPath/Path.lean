import SignalPath.Chip.Cascade
import SignalPath.Rate.Converter

/-!
# The whole signal path

A cascade of integrators followed by a converter: one voltage goes in for each clock cycle, and
samples come out at the lower rate.
-/

namespace SignalPath

/-- Why a path fails on an input. -/
inductive PathFault where
  /-- One of the integrators failed. -/
  | integrator (fault : IntegratorFault)
  /-- The converter failed. -/
  | converter (fault : ConverterFault)

/-- Integrators and the converter that takes their output. -/
structure Path (σ : Type) where
  /-- The integrators. -/
  stages : Cascade
  /-- The converter. -/
  converter : σ

namespace Path

/-- Takes one input voltage and gives an output sample if one became ready. The converter sees
nothing of an input on which an integrator fails. -/
@[specialize]
def next {σ : Type} [Converter σ] :
    Path σ → Int32 → Path σ × Except PathFault (Option Float32)
  | ⟨stages, converter⟩, vi =>
    match stages.step vi with
    | (stages, .error e) => (⟨stages, converter⟩, .error (.integrator e))
    | (stages, .ok vo) =>
      match Converter.next converter (ofInt vo.toInt) with
      | (converter, .ok y) => (⟨stages, converter⟩, .ok y)
      | (converter, .error e) => (⟨stages, converter⟩, .error (.converter e))

section

variable {σ : Type} [Converter σ] {p : Path σ} {vi vo : Int32} {stages : Cascade} {converter : σ}

theorem next_of_stages_error {e : IntegratorFault} (h : p.stages.step vi = (stages, .error e)) :
    p.next vi = (⟨stages, p.converter⟩, .error (.integrator e)) := by
  simp only [next, h]

theorem next_of_ok {y : Option Float32} (hstages : p.stages.step vi = (stages, .ok vo))
    (hconverter : Converter.next p.converter (ofInt vo.toInt) = (converter, .ok y)) :
    p.next vi = (⟨stages, converter⟩, .ok y) := by
  simp only [next, hstages, hconverter]

theorem next_of_converter_error {e : ConverterFault}
    (hstages : p.stages.step vi = (stages, .ok vo))
    (hconverter : Converter.next p.converter (ofInt vo.toInt) = (converter, .error e)) :
    p.next vi = (⟨stages, converter⟩, .error (.converter e)) := by
  simp only [next, hstages, hconverter]

end

end Path

end SignalPath
