import SignalPath.Chip.Model

/-!
# Cascades

Integrators in a row, each of which takes the output of the one before it. A fault in one stage
leaves the stages before it with their step done and the stages after it as they were.
-/

namespace SignalPath

/-- Integrators in the order in which a voltage passes through them. -/
abbrev Cascade := List Integrator

namespace Cascade

/-- A number of integrators of a model with one setting of the cutoff register and of the filter
curve. -/
def ofModel (m : FilterModel) (stages : Nat) (register : UInt16) (curve : Float) :
    Except IntegratorFault Cascade :=
  (List.replicate stages ()).mapM fun _ => do
    let fresh ← m.integrator
    let tuned ← fresh.setWidth (Mos8580.cutoffWidth register)
    tuned.setGate (Mos8580.curveMultiplier curve)

/-- Sends one voltage through all stages. Without any stage it comes out as it went in. -/
def step : Cascade → Int32 → Cascade × Except IntegratorFault Int32
  | [], vi => ([], .ok vi)
  | s :: rest, vi =>
    match s.step vi with
    | (s', .ok vo) =>
      let (rest', r) := step rest vo
      (s' :: rest', r)
    | (s', .error e) => (s' :: rest, .error e)

section

variable {s s' : Integrator} {vi vo : Int32}

theorem step_cons_ok (h : s.step vi = (s', .ok vo)) (rest : Cascade) :
    step (s :: rest) vi = (s' :: (step rest vo).1, (step rest vo).2) := by
  rw [step, h]

theorem step_cons_error {e : IntegratorFault} (h : s.step vi = (s', .error e)) (rest : Cascade) :
    step (s :: rest) vi = (s' :: rest, .error e) := by
  rw [step, h]

/-- No input adds a stage or takes one away. -/
@[simp]
theorem length_step (c : Cascade) (vi : Int32) : (c.step vi).1.length = c.length := by
  induction c generalizing vi with
  | nil => rfl
  | cons s rest ih =>
    rcases hstep : s.step vi with ⟨s', e | vo⟩
    · simp [step_cons_error hstep]
    · simp [step_cons_ok hstep, ih]

end

end Cascade

end SignalPath
