import SignalPath.Chip.Cascade
import SignalPath.Proofs.Chip.Stage

/-!
# Cascades of the model's stages

A cascade hands each output to the next stage. On inputs from zero on its first stage never fails,
and a later one fails only if the stage before it has been charged so high that its output is below
zero. That does happen: on part of its upper end the reverse curve runs below the line of zero
output, and a stage that is held there discharges the next one beyond its table.
-/

namespace SignalPath.Cascade

open Integrator Mos8580

/-- The cascade after inputs in order, or the first fault. -/
def run (c : Cascade) : List Int32 → Except IntegratorFault Cascade
  | [] => .ok c
  | vi :: vis => match c.step vi with
    | (c', .ok _) => run c' vis
    | (_, .error e) => .error e

/-- The outputs on inputs in order, up to the first fault. -/
def outputs (c : Cascade) : List Int32 → List Int32
  | [] => []
  | vi :: vis => match c.step vi with
    | (c', .ok vo) => vo :: outputs c' vis
    | (_, .error _) => []

/-- How an input makes a cascade fail: one stage is charged to 31862 or more and passes on a voltage
below zero, and the charge of the next stage leaves the table at its lower end. -/
structure Discharges (c : Cascade) (vi : Int32) (charge : Int32) : Prop where
  fails : (c.step vi).2 = .error (.chargeOutsideTable charge)
  charge_lt : charge.toInt < -2 ^ 30
  blame : ∃ (front : Cascade) (before stage : Integrator) (rest : Cascade)
      (front' : Cascade) (v : Int32) (before' : Integrator) (vo : Int32),
    c = front ++ before :: stage :: rest ∧ front.step vi = (front', .ok v) ∧
    before.step v = (before', .ok vo) ∧ 31862 ≤ before'.vx.toNat ∧ vo.toInt < 0 ∧
    (stage.step vo).2 = .error (.chargeOutsideTable charge)

/-! ## One input -/

section

variable {c rest : Cascade} {s s' : Integrator} {vi vo charge : Int32}

theorem Discharges.cons (h : s.step vi = (s', .ok vo)) (hrest : Discharges rest vo charge) :
    Discharges (s :: rest) vi charge := by
  obtain ⟨hfails, hcharge, front, before, stage, rest', front', v, before', vo', rfl, hfront,
    hblame⟩ := hrest
  refine ⟨by rw [step_cons_ok h, hfails], hcharge, s :: front, before, stage, rest', s' :: front',
    v, before', vo', rfl, ?_, hblame⟩
  rw [step_cons_ok h, hfront]

/-- A stage that is discharged has another one before it. -/
theorem Discharges.two_le_length (h : Discharges c vi charge) : 2 ≤ c.length := by
  obtain ⟨-, -, front, before, stage, rest, -, -, -, -, rfl, -⟩ := h
  simp
  omega

/-- The outcome of one input: an answer, a first stage that an input below zero has discharged, or a
later one that the stage before it has. -/
theorem step_cases (h : ∀ s ∈ c, Stage s) (hvi : -1904 ≤ vi.toInt) :
    (∃ c' vo, c.step vi = (c', .ok vo) ∧ ∀ s ∈ c', Stage s) ∨
    (vi.toInt < 0 ∧ ∃ s rest charge, c = s :: rest ∧ charge.toInt < -2 ^ 30 ∧
      (s.step vi).2 = .error (.chargeOutsideTable charge)) ∨
    ∃ charge, Discharges c vi charge := by
  induction c generalizing vi with
  | nil => exact Or.inl ⟨[], vi, rfl, fun s hs => absurd hs List.not_mem_nil⟩
  | cons s rest ih =>
    rcases (h s List.mem_cons_self).step_cases hvi with
      ⟨s', vo, hstep, hs', hvo, hhigh⟩ | ⟨hneg, s', charge, hstep, hcharge⟩
    · rcases ih (fun t ht => h t (List.mem_cons_of_mem s ht)) hvo with
        ⟨rest', vo', hrest, hrest'⟩ | ⟨hneg, t, rest', charge, rfl, hcharge, hfails⟩ |
          ⟨charge, hcharge⟩
      · refine Or.inl ⟨s' :: rest', vo', by rw [step_cons_ok hstep, hrest], ?_⟩
        intro t ht
        rcases List.mem_cons.mp ht with rfl | ht
        · exact hs'
        · exact hrest' t ht
      · -- The next stage is the one that fails, and this one is to blame.
        refine Or.inr (Or.inr ⟨charge, ?_, hcharge, [], s, t, rest', [], vi, s', vo, rfl, rfl,
          hstep, hhigh hneg, hneg, hfails⟩)
        rw [step_cons_ok hstep, step_cons_error (Prod.ext rfl hfails)]
      · exact Or.inr (Or.inr ⟨charge, hcharge.cons hstep⟩)
    · exact Or.inr (Or.inl ⟨hneg, s, rest, charge, rfl, hcharge, by rw [hstep]⟩)

end

/-! ## Whole runs -/

section

variable {c c' : Cascade} {vi vo : Int32} {vis : List Int32}

theorem run_cons_ok (h : c.step vi = (c', .ok vo)) : run c (vi :: vis) = run c' vis := by
  rw [run, h]

theorem run_cons_error {e : IntegratorFault} (h : (c.step vi).2 = .error e) :
    run c (vi :: vis) = .error e := by
  rw [run, show c.step vi = ((c.step vi).1, .error e) from Prod.ext rfl h]

theorem length_run (h : run c vis = .ok c') : c'.length = c.length := by
  induction vis generalizing c with
  | nil =>
    cases h
    rfl
  | cons vi vis ih =>
    rcases hstep : c.step vi with ⟨c'', e | vo⟩
    · rw [run_cons_error (by rw [hstep])] at h
      cases h
    · rw [run_cons_ok hstep] at h
      have hlength := length_step c vi
      rw [hstep] at hlength
      exact (ih h).trans hlength

theorem outputs_cons_ok (h : c.step vi = (c', .ok vo)) :
    outputs c (vi :: vis) = vo :: outputs c' vis := by
  rw [outputs, h]

theorem outputs_cons_error {e : IntegratorFault} (h : (c.step vi).2 = .error e) :
    outputs c (vi :: vis) = [] := by
  rw [outputs, show c.step vi = ((c.step vi).1, .error e) from Prod.ext rfl h]

/-- A run without a fault has an output for each input. -/
theorem length_outputs (h : run c vis = .ok c') : (outputs c vis).length = vis.length := by
  induction vis generalizing c with
  | nil => rfl
  | cons vi vis ih =>
    rcases hstep : c.step vi with ⟨c'', e | vo⟩
    · rw [run_cons_error (by rw [hstep])] at h
      cases h
    · rw [run_cons_ok hstep] at h
      simp [outputs_cons_ok hstep, ih h]

theorem run_cases (h : ∀ s ∈ c, Stage s) (hvis : ∀ vi ∈ vis, 0 ≤ vi.toInt) :
    (∃ c', run c vis = .ok c') ∨
    ∃ before vi after c' charge, vis = before ++ vi :: after ∧ run c before = .ok c' ∧
      Discharges c' vi charge ∧ run c vis = .error (.chargeOutsideTable charge) := by
  induction vis generalizing c with
  | nil => exact Or.inl ⟨c, rfl⟩
  | cons vi vis ih =>
    have hvi : 0 ≤ vi.toInt := hvis vi List.mem_cons_self
    rcases step_cases h (show -1904 ≤ vi.toInt by omega) with
      ⟨c', vo, hstep, hc'⟩ | ⟨hneg, -⟩ | ⟨charge, hcharge⟩
    · rw [run_cons_ok hstep]
      rcases ih hc' fun vi' hvi' => hvis vi' (List.mem_cons_of_mem vi hvi') with
        hok | ⟨before, vi', after, c'', charge, rfl, hrun, hcharge, hfails⟩
      · exact Or.inl hok
      · exact Or.inr ⟨vi :: before, vi', after, c'', charge, rfl,
          (run_cons_ok hstep).trans hrun, hcharge, hfails⟩
    · omega
    · exact Or.inr ⟨[], vi, vis, c, charge, rfl, rfl, hcharge, run_cons_error hcharge.fails⟩

/-- A stage that is held below zero discharges in the end, unless it has no current at all. -/
theorem run_of_negative {s : Integrator} (h : Stage s) (hfactor : s.factor ≠ 0)
    (hvis : ∀ vi ∈ vis, -1904 ≤ vi.toInt ∧ vi.toInt < 0)
    (hlength : s.vc.toInt + 2 ^ 30 < vis.length) :
    ∃ charge, run [s] vis = .error (.chargeOutsideTable charge) := by
  -- The charge falls with every input, and inside the table it is not below `-2 ^ 30`.
  induction vis generalizing s with
  | nil =>
    obtain ⟨hpos, hpos'⟩ := h.position_mem
    have hinside := position_mem_iff.mp ⟨hpos, hpos'⟩
    rw [List.length_nil] at hlength
    omega
  | cons vi vis ih =>
    obtain ⟨hvi, hneg⟩ := hvis vi List.mem_cons_self
    rcases h.step_cases hvi with ⟨s', vo, hstep, hs', -⟩ | ⟨-, s', charge, hstep, -⟩
    · obtain ⟨-, -, hnext, -⟩ := step_ok hstep
      have hlt := h.charge_lt hfactor hvi hneg
      have hvc : s'.vc = s.vc + s.current vi := by rw [hnext]
      have hsame : s'.factor = s.factor := by rw [hnext]
      rw [run_cons_ok (step_cons_ok hstep [])]
      refine ih hs' (hsame ▸ hfactor) (fun vi' hvi' => hvis vi' (List.mem_cons_of_mem vi hvi')) ?_
      rw [List.length_cons] at hlength
      rw [hvc]
      omega
    · refine ⟨charge, run_cons_error ?_⟩
      rw [step_cons_error hstep]

/-- A cascade of fresh integrators of the model, with any cutoff register values, takes any inputs
from zero on, unless one of its stages is charged to 31862 or more and discharges the next one. -/
theorem run_ok_or_discharges
    (hc : ∀ s ∈ c, ∃ new register, FilterModel.mos8580.integrator = .ok new ∧
      new.setWidth (cutoffWidth register) = .ok s)
    (hvis : ∀ vi ∈ vis, 0 ≤ vi.toInt) :
    (∃ c', run c vis = .ok c') ∨
    ∃ before vi after c' charge, vis = before ++ vi :: after ∧ run c before = .ok c' ∧
      Discharges c' vi charge ∧ run c vis = .error (.chargeOutsideTable charge) := by
  refine run_cases (fun s hs => ?_) hvis
  obtain ⟨new, register, hnew, hset⟩ := hc s hs
  exact stage_of_model hnew hset

end

/-! ## A cascade that discharges its second stage -/

/-- A step of all stages on the curve itself, without their tables. -/
def stepOnCurve : Cascade → Int32 → Cascade × Except IntegratorFault Int32
  | [], vi => ([], .ok vi)
  | s :: rest, vi => match s.stepOnCurve vi with
    | (s', .ok vo) => (s' :: (stepOnCurve rest vo).1, (stepOnCurve rest vo).2)
    | (s', .error e) => (s' :: rest, .error e)

/-- A run on the curve itself. -/
def runOnCurve (c : Cascade) : List Int32 → Except IntegratorFault Cascade
  | [] => .ok c
  | vi :: vis => match c.stepOnCurve vi with
    | (c', .ok _) => runOnCurve c' vis
    | (_, .error e) => .error e

section

variable {c : Cascade}

theorem step_eq_stepOnCurve (h : ∀ s ∈ c, s.table = reverseTable) (vi : Int32) :
    c.step vi = c.stepOnCurve vi ∧ ∀ s ∈ (c.step vi).1, s.table = reverseTable := by
  induction c generalizing vi with
  | nil => exact ⟨rfl, h⟩
  | cons s rest ih =>
    have hs := h s List.mem_cons_self
    have hrest : ∀ t ∈ rest, t.table = reverseTable := fun t ht => h t (List.mem_cons_of_mem s ht)
    have htable := (s.step_table vi).trans hs
    rw [stepOnCurve, ← Integrator.step_eq_stepOnCurve hs]
    rcases hstep : s.step vi with ⟨s', e | vo⟩
    · rw [hstep] at htable
      rw [step_cons_error hstep]
      exact ⟨rfl, List.forall_mem_cons.mpr ⟨htable, hrest⟩⟩
    · rw [hstep] at htable
      obtain ⟨hsame, hkept⟩ := ih hrest vo
      rw [step_cons_ok hstep, hsame]
      exact ⟨rfl, List.forall_mem_cons.mpr ⟨htable, hsame ▸ hkept⟩⟩

theorem run_eq_runOnCurve (vis : List Int32) (h : ∀ s ∈ c, s.table = reverseTable) :
    run c vis = runOnCurve c vis := by
  induction vis generalizing c with
  | nil => rfl
  | cons vi vis ih =>
    obtain ⟨hsame, hkept⟩ := step_eq_stepOnCurve h vi
    rw [run, runOnCurve, ← hsame]
    rcases hstep : c.step vi with ⟨c', e | vo⟩
    · rfl
    · rw [hstep] at hkept
      exact ih hkept

/-- A stage with the largest cutoff factor. -/
def fullStage : Integrator :=
  ⟨reverseTable, FilterModel.mos8580.circuit, 0, 0, 44436, 1784⟩

theorem table_fullStages : ∀ s ∈ [fullStage, fullStage], s.table = reverseTable := by
  have hstage : fullStage.table = reverseTable := rfl
  exact List.forall_mem_cons.mpr ⟨hstage, List.forall_mem_singleton.mpr hstage⟩

theorem fullStage_of_model :
    ∃ new, FilterModel.mos8580.integrator = .ok new ∧
      new.setWidth (cutoffWidth 2047) = .ok fullStage :=
  ⟨_, start_mos8580 _, setWidth_full _⟩

/-- Two such stages at an input of 43600: the first one settles where its output is -21, and the
second one has left its table with input number 66. -/
theorem run_fullStages :
    run [fullStage, fullStage] (List.replicate 67 43600) =
      .error (.chargeOutsideTable (-1073745000)) := by
  have hlost : (match runOnCurve [fullStage, fullStage] (List.replicate 67 43600) with
      | .error (.chargeOutsideTable charge) => charge == -1073745000
      | _ => false) = true := by
    decide +kernel
  rw [run_eq_runOnCurve _ table_fullStages]
  split at hlost
  · rename_i charge hrun
    rw [hrun, beq_iff_eq.mp hlost]
  · cases hlost

/-- Inputs inside the envelope of one stage make a cascade of two fail. -/
theorem discharges_second_stage :
    (14640 ≤ (43600 : Int32).toInt ∧ (43600 : Int32).toInt < 44436) ∧
    ∃ new s, FilterModel.mos8580.integrator = .ok new ∧
      new.setWidth (cutoffWidth 2047) = .ok s ∧ s.gate = 44436 ∧
      run [s, s] (List.replicate 67 43600) = .error (.chargeOutsideTable (-1073745000)) := by
  obtain ⟨new, hnew, hset⟩ := fullStage_of_model
  exact ⟨by decide, new, fullStage, hnew, hset, rfl, run_fullStages⟩

/-- The same cascade fails because its first stage is charged too high. -/
theorem discharges_fullStages :
    ∃ new s, FilterModel.mos8580.integrator = .ok new ∧
      new.setWidth (cutoffWidth 2047) = .ok s ∧
      (∀ vi ∈ List.replicate 67 (43600 : Int32), 0 ≤ vi.toInt) ∧
      ∃ before vi after c' charge, List.replicate 67 43600 = before ++ vi :: after ∧
        run [s, s] before = .ok c' ∧ Discharges c' vi charge := by
  obtain ⟨new, hnew, hset⟩ := fullStage_of_model
  have hinputs : ∀ vi ∈ List.replicate 67 (43600 : Int32), 0 ≤ vi.toInt := by
    intro vi hvi
    rw [List.eq_of_mem_replicate hvi]
    decide
  have hmodel : ∃ new register, FilterModel.mos8580.integrator = .ok new ∧
      new.setWidth (cutoffWidth register) = .ok fullStage := ⟨new, 2047, hnew, hset⟩
  refine ⟨new, fullStage, hnew, hset, hinputs, ?_⟩
  rcases run_ok_or_discharges
    (List.forall_mem_cons.mpr ⟨hmodel, List.forall_mem_singleton.mpr hmodel⟩) hinputs with
    ⟨c', hok⟩ | ⟨before, vi, after, c', charge, hsplit, hrun, hdischarges, -⟩
  · rw [run_fullStages] at hok
    cases hok
  · exact ⟨before, vi, after, c', charge, hsplit, hrun, hdischarges⟩

end

end SignalPath.Cascade
