import SignalPath.Path
import SignalPath.Proofs.Chip.Cascade
import SignalPath.Proofs.Rate.Composition

/-!
# Runs of a whole path

A path is its cascade and, on the outputs of the cascade, its converter: its answers are those of the
converter, and its fault is that of the cascade, unless the converter fails before that. On inputs
from zero on the only fault of a cascade of the model's stages is that one stage discharges the next
one, so a path of a single stage and a converter that never fails takes all such inputs.
-/

namespace SignalPath.Path

/-- The samples that a converter takes from a cascade. -/
def samples (c : Cascade) (vis : List Int32) : List Float32 :=
  (c.outputs vis).map fun vo => ofInt vo.toInt

section

variable {c c' : Cascade} {vi vo : Int32} {vis : List Int32}

theorem samples_cons_ok (h : c.step vi = (c', .ok vo)) :
    samples c (vi :: vis) = ofInt vo.toInt :: samples c' vis := by
  simp [samples, Cascade.outputs_cons_ok h]

theorem samples_cons_error {e : IntegratorFault} (h : (c.step vi).2 = .error e) :
    samples c (vi :: vis) = [] := by
  simp [samples, Cascade.outputs_cons_error h]

theorem length_samples (h : c.run vis = .ok c') : (samples c vis).length = vis.length := by
  simp [samples, Cascade.length_outputs h]

end

section

variable {σ : Type} [Converter σ]

/-- The path after inputs in order, or the first fault. -/
def run (p : Path σ) : List Int32 → Except PathFault (Path σ)
  | [] => .ok p
  | vi :: vis => match p.next vi with
    | (p', .ok _) => run p' vis
    | (_, .error e) => .error e

/-- The answers to inputs in order, up to the first fault. -/
def answers (p : Path σ) : List Int32 → List (Option Float32)
  | [] => []
  | vi :: vis => match p.next vi with
    | (p', .ok y) => y :: answers p' vis
    | (_, .error _) => []

variable {p p' : Path σ} {stages : Cascade} {vi vo : Int32} {vis : List Int32}

/-! ## One input -/

theorem run_cons_ok {y : Option Float32} (h : p.next vi = (p', .ok y)) :
    run p (vi :: vis) = run p' vis := by
  rw [run, h]

theorem run_cons_error {e : PathFault} (h : p.next vi = (p', .error e)) :
    run p (vi :: vis) = .error e := by
  rw [run, h]

theorem answers_cons_ok {y : Option Float32} (h : p.next vi = (p', .ok y)) :
    answers p (vi :: vis) = y :: answers p' vis := by
  rw [answers, h]

theorem answers_cons_error {e : PathFault} (h : p.next vi = (p', .error e)) :
    answers p (vi :: vis) = [] := by
  rw [answers, h]

/-- On an output of the cascade the path answers as its converter, if there is no fault among the
converter's answers. -/
theorem exists_next_of_ok (h : p.stages.step vi = (stages, .ok vo))
    (hok : ∀ a ∈ Converter.answers p.converter (samples p.stages (vi :: vis)), ∃ y, a = .ok y) :
    ∃ converter y, Converter.next p.converter (ofInt vo.toInt) = (converter, .ok y) ∧
      p.next vi = (⟨stages, converter⟩, .ok y) ∧
      ∀ a ∈ Converter.answers converter (samples stages vis), ∃ y, a = .ok y := by
  rw [samples_cons_ok h, Converter.answers, List.forall_mem_cons] at hok
  obtain ⟨⟨y, hy⟩, hrest⟩ := hok
  have hnext : Converter.next p.converter (ofInt vo.toInt) = (_, .ok y) := Prod.ext rfl hy
  exact ⟨_, y, hnext, next_of_ok h hnext, hrest⟩

/-! ## Whole runs -/

/-- Where neither the cascade nor the converter fails, the path does not either: it has sent the
outputs of the cascade through the converter. -/
theorem run_of_ok
    (hok : ∀ a ∈ Converter.answers p.converter (samples p.stages vis), ∃ y, a = .ok y)
    (h : p.stages.run vis = .ok stages) :
    run p vis = .ok ⟨stages, Converter.after p.converter ((samples p.stages vis).map .feed)⟩ := by
  induction vis generalizing p with
  | nil =>
    cases h
    rfl
  | cons vi vis ih =>
    rcases hstep : p.stages.step vi with ⟨stages', e | vo⟩
    · rw [Cascade.run_cons_error (by rw [hstep])] at h
      cases h
    · rw [Cascade.run_cons_ok hstep] at h
      obtain ⟨converter, y, hy, hnext, hrest⟩ := exists_next_of_ok hstep hok
      rw [run_cons_ok hnext, ih hrest h, samples_cons_ok hstep, Converter.after_feeds_cons, hy]

/-- Where the cascade fails, the path does, if the converter has not failed before. -/
theorem run_of_error {e : IntegratorFault}
    (hok : ∀ a ∈ Converter.answers p.converter (samples p.stages vis), ∃ y, a = .ok y)
    (h : p.stages.run vis = .error e) : run p vis = .error (.integrator e) := by
  induction vis generalizing p with
  | nil => cases h
  | cons vi vis ih =>
    rcases hstep : p.stages.step vi with ⟨stages', f | vo⟩
    · rw [Cascade.run_cons_error (by rw [hstep])] at h
      cases h
      exact run_cons_error (next_of_stages_error hstep)
    · rw [Cascade.run_cons_ok hstep] at h
      obtain ⟨converter, y, hy, hnext, hrest⟩ := exists_next_of_ok hstep hok
      rw [run_cons_ok hnext]
      exact ih hrest h

/-- Where the converter fails on the outputs of the cascade, the path does. -/
theorem run_of_answer_error {e : ConverterFault}
    {before after : List (Except ConverterFault (Option Float32))}
    (hok : ∀ a ∈ before, ∃ y, a = .ok y)
    (h : Converter.answers p.converter (samples p.stages vis) = before ++ .error e :: after) :
    run p vis = .error (.converter e) := by
  induction vis generalizing p before with
  | nil => simp [samples, Cascade.outputs, Converter.answers] at h
  | cons vi vis ih =>
    rcases hstep : p.stages.step vi with ⟨stages', f | vo⟩
    · simp [samples_cons_error (show (p.stages.step vi).2 = .error f by rw [hstep]),
        Converter.answers] at h
    · rw [samples_cons_ok hstep, Converter.answers] at h
      cases before with
      | nil =>
        obtain ⟨herror, -⟩ := List.cons.inj h
        exact run_cons_error (next_of_converter_error hstep (Prod.ext rfl herror))
      | cons a before =>
        obtain ⟨ha, hrest⟩ := List.cons.inj h
        obtain ⟨⟨y, rfl⟩, hbefore⟩ := List.forall_mem_cons.mp hok
        rw [run_cons_ok (next_of_ok hstep (Prod.ext rfl ha))]
        exact ih hbefore hrest

/-- The answers of a path, up to a fault of its cascade, are those of its converter. -/
theorem answers_eq
    (hok : ∀ a ∈ Converter.answers p.converter (samples p.stages vis), ∃ y, a = .ok y) :
    (answers p vis).map .ok = Converter.answers p.converter (samples p.stages vis) := by
  induction vis generalizing p with
  | nil => rfl
  | cons vi vis ih =>
    rcases hstep : p.stages.step vi with ⟨stages', e | vo⟩
    · rw [answers_cons_error (next_of_stages_error hstep), samples_cons_error (by rw [hstep])]
      rfl
    · obtain ⟨converter, y, hy, hnext, hrest⟩ := exists_next_of_ok hstep hok
      rw [answers_cons_ok hnext, List.map_cons, ih hrest, samples_cons_ok hstep,
        Converter.answers, hy]

theorem length_answers
    (hok : ∀ a ∈ Converter.answers p.converter (samples p.stages vis), ∃ y, a = .ok y)
    (h : p.stages.run vis = .ok stages) : (answers p vis).length = vis.length := by
  have hlength := congrArg List.length (answers_eq hok)
  simpa [length_samples h] using hlength

/-- A path of the model's stages and a converter without faults answers every input from zero on, as
the converter answers the outputs of the stages, unless one of the stages discharges the next one. -/
theorem run_cases (hstages : ∀ s ∈ p.stages, Integrator.Stage s)
    (hconverter : Converter.Faultless p.converter) (hvis : ∀ vi ∈ vis, 0 ≤ vi.toInt) :
    (∃ stages, p.stages.run vis = .ok stages ∧
      run p vis = .ok ⟨stages, Converter.after p.converter ((samples p.stages vis).map .feed)⟩ ∧
      (answers p vis).length = vis.length ∧
      (answers p vis).map .ok = Converter.answers p.converter (samples p.stages vis)) ∨
    ∃ before vi after stages charge, vis = before ++ vi :: after ∧
      p.stages.run before = .ok stages ∧ stages.Discharges vi charge ∧
      run p vis = .error (.integrator (.chargeOutsideTable charge)) := by
  have hok := hconverter.exists_ok_of_mem_answers (samples p.stages vis)
  rcases Cascade.run_cases hstages hvis with
    ⟨stages, hrun⟩ | ⟨before, vi, after, stages, charge, hsplit, hbefore, hcharge, hrun⟩
  · exact .inl ⟨stages, hrun, run_of_ok hok hrun, length_answers hok hrun, answers_eq hok⟩
  · exact .inr ⟨before, vi, after, stages, charge, hsplit, hbefore, hcharge,
      run_of_error hok hrun⟩

/-- A single stage has no other one that could discharge it. -/
theorem run_of_single (hlength : p.stages.length ≤ 1)
    (hstages : ∀ s ∈ p.stages, Integrator.Stage s) (hconverter : Converter.Faultless p.converter)
    (hvis : ∀ vi ∈ vis, 0 ≤ vi.toInt) :
    ∃ q, run p vis = .ok q ∧ (answers p vis).length = vis.length := by
  rcases run_cases hstages hconverter hvis with
    ⟨stages, -, hrun, hanswers, -⟩ | ⟨before, vi, after, stages, charge, -, hbefore, hcharge, -⟩
  · exact ⟨_, hrun, hanswers⟩
  · have hkept := Cascade.length_run hbefore
    have htwo := hcharge.two_le_length
    omega

end

/-! ## Paths with a band-limiting converter -/

/-- Output number `k` of a path with a fresh polyphase converter comes with input number
`k * step / 1024`, and is that of the long filter on the outputs of the stages. -/
theorem outputs_eq {bank : Bank Float32} {step : Nat} (hsized : PolyphaseConverter.Sized bank step)
    {c c' : Cascade} {vis : List Int32} (h : c.run vis = .ok c') (k : Nat) :
    (Converter.outputsFrom 0
        ((answers (⟨c, .start bank step⟩ : Path PolyphaseConverter) vis).map .ok))[k]? =
      if k * step / 1024 < vis.length then
        some (k * step / 1024, PolyphaseConverter.outputAt bank hsized.phases_pos
          (PolyphaseConverter.streamOf (samples c vis)) step k)
      else none := by
  rw [answers_eq (hsized.faultless.exists_ok_of_mem_answers _), ← length_samples h]
  exact (Converter.outputs_of_schedule hsized.le_step (PolyphaseConverter.answers_start
    hsized.phases_pos hsized.length_lt hsized.le_step hsized.step_le _)).2 k

/-- A single stage of the model with any cutoff, and a conversion in two stages from the clock of a
PAL machine to 44.1 kHz, take all inputs from zero on. -/
theorem run_pal {new s : Integrator} {register : UInt16}
    (hnew : FilterModel.mos8580.integrator = .ok new)
    (hset : new.setWidth (Mos8580.cutoffWidth register) = .ok s) :
    ∃ t, TwoStageConverter.ofRates 985248.0 44100.0 = .ok t ∧
      ∀ vis : List Int32, (∀ vi ∈ vis, 0 ≤ vi.toInt) →
        ∃ q, run (⟨[s], t⟩ : Path TwoStageConverter) vis = .ok q := by
  obtain ⟨c', t, haccepted, -⟩ := TwoStageConverter.accepted_pal
  have hconverter := TwoStageConverter.faultless_of_accepted .empty rfl haccepted
  refine ⟨t, congrArg Prod.snd haccepted, fun vis hvis => ?_⟩
  obtain ⟨q, hrun, -⟩ := run_of_single (p := ⟨[s], t⟩) (Nat.le_refl 1)
    (List.forall_mem_singleton.mpr (Integrator.stage_of_model hnew hset)) hconverter hvis
  exact ⟨q, hrun⟩

end SignalPath.Path
