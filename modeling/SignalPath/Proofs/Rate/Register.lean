import SignalPath.Rate.Linear
import SignalPath.Proofs.Number.WholePart
import SignalPath.Proofs.Rate.Answers
import SignalPath.Proofs.Rate.Schedule

/-!
# The room of the phase register

The check of the rates accepts every ratio that is not below 1, and the step is cut off at the end
of its register. Between outputs the offset needs room for the step and for an input sample besides.
A step without that room overflows the register, after at most 1024 outputs, and so does the step of
two infinite rates, which is zero because their ratio is not a number.
-/

namespace SignalPath

open Binary64
open Float.Model.UnpackedFloat (unpack_packedNaN)

section

variable {clock sample : Float}

theorem bounds_of_checkRates (h : checkRates clock sample = .ok ()) :
    0.0 < clock ∧ 0.0 < sample ∧ sample ≤ clock := by
  obtain ⟨hclock, hsample, hlt⟩ := checkRates_eq_ok_iff.mp h
  exact ⟨hclock, hsample,
    (float_not_lt_iff (numeric_of_lt hclock).2 (numeric_of_lt hsample).2).mp hlt⟩

theorem atLeast_clock (h : checkRates clock sample = .ok ()) (hfinite : sample.isFinite = true) :
    AtLeast clock (real sample) := by
  obtain ⟨-, -, hle⟩ := bounds_of_checkRates h
  refine ⟨(numeric_of_le hle).2, ?_⟩
  rw [← ext_of_finite hfinite]
  exact ext_le_of_le hle

/-- With a finite sample rate the ratio of accepted rates is at least 1, and may be infinite. -/
theorem atLeast_ratio (h : checkRates clock sample = .ok ()) (hfinite : sample.isFinite = true) :
    AtLeast (clock / sample) 1 := by
  obtain ⟨-, hsample, -⟩ := bounds_of_checkRates h
  have hpos := real_pos hsample hfinite
  refine (atLeast_clock h hfinite).div_of_finite hpos fun hclock hge => ?_
  rw [← real_one]
  refine (computes_div hclock hfinite hpos.ne').reaches rfl ?_
  rw [real_one, le_div_iff₀ hpos, one_mul]
  exact hge

theorem ext_eq_top_of_pos (hpos : 0.0 < sample) (hfinite : ¬ sample.isFinite = true) :
    ext sample = ⊤ := by
  have hext := ext_lt_of_lt hpos
  rw [ext_of_finite (show (0.0 : Float).isFinite = true from rfl), real_zero] at hext
  have hatLeast : AtLeast sample 0 := ⟨(numeric_of_lt hpos).2, hext.le⟩
  exact hatLeast.cases.resolve_right fun h => hfinite h.1

/-- Two infinite rates are accepted, but their ratio is not a number. -/
theorem toModel_ratio (h : checkRates clock sample = .ok ())
    (hfinite : ¬ sample.isFinite = true) : (clock / sample).toModel = .pack .notANumber := by
  obtain ⟨-, hsample, hle⟩ := bounds_of_checkRates h
  have htop := ext_eq_top_of_pos hsample hfinite
  have htop' : ext clock = ⊤ := top_le_iff.mp (htop ▸ ext_le_of_le hle)
  show Float.Model.pack (Float.Model.UnpackedFloat.div _ _ _) = _
  rw [unpack_of_ext_eq_top htop, unpack_of_ext_eq_top htop']
  rfl

theorem not_numeric_ratio (h : checkRates clock sample = .ok ())
    (hfinite : ¬ sample.isFinite = true) : ¬ Numeric (clock / sample * 1024.0) := by
  have hproduct : (clock / sample * 1024.0).toModel = .pack .notANumber := by
    show Float.Model.pack (Float.Model.UnpackedFloat.mul _ _ _) = _
    rw [toModel_ratio h hfinite]
    rfl
  unfold Numeric
  rw [hproduct]
  exact not_not.mpr unpack_packedNaN

/-! ## The step of accepted rates -/

theorem atLeast_units (h : checkRates clock sample = .ok ()) (hfinite : sample.isFinite = true) :
    AtLeast (clock / sample * 1024.0) 1024 := by
  obtain ⟨hunit, hreal⟩ : (1024.0 : Float).isFinite = true ∧ real 1024.0 = (1024 : ℕ) :=
    real_ofNat (n := 1024) (by decide)
  rw [Nat.cast_ofNat] at hreal
  refine (atLeast_ratio h hfinite).mul_of_finite (by rw [hreal]; norm_num) fun hratio hge => ?_
  rw [← hreal]
  exact (computes_mul hratio hunit).reaches hunit (by rw [hreal]; linarith)

theorem stepOf_le (r : Ratio Float) : Phase.stepOf r ≤ 2147483647 :=
  truncate_le _

/-- Accepted rates have a step of at least an input sample, unless both are infinite. -/
theorem le_stepOf (h : checkRates clock sample = .ok ()) (hfinite : sample.isFinite = true) :
    1024 ≤ Phase.stepOf (Ratio.of clock sample) := by
  have hunits := atLeast_units h hfinite
  have hle := (le_truncate_iff (n := 1024) hunits.1 (by decide) (by decide)).mpr (by
    rw [Nat.cast_ofNat]
    exact hunits.2)
  exact hle

theorem stepOf_of_infinite (h : checkRates clock sample = .ok ())
    (hfinite : ¬ sample.isFinite = true) : Phase.stepOf (Ratio.of clock sample) = 0 :=
  truncate_of_not_numeric (not_numeric_ratio h hfinite)

/-- The step leaves room for an input sample in the register exactly if the ratio does. -/
theorem stepOf_le_iff (h : checkRates clock sample = .ok ()) (hfinite : sample.isFinite = true) :
    Phase.stepOf (Ratio.of clock sample) ≤ 2147482624 ↔
      clock / sample * 1024.0 < 2147482625.0 := by
  have hunits := atLeast_units h hfinite
  obtain ⟨hliteral, hreal⟩ :
      (2147482625.0 : Float).isFinite = true ∧ real 2147482625.0 = (2147482625 : ℕ) :=
    real_ofNat (n := 2147482625) (by decide)
  have hle := le_truncate_iff (n := 2147482625) hunits.1 (by decide) (by decide)
  rw [← hreal, ← ext_of_finite hliteral] at hle
  rw [lt_iff hunits.1 (numeric_of_finite hliteral), ← not_le, ← hle]
  show truncate registerMin registerMax (clock / sample * 1024.0) ≤ 2147482624 ↔ _
  omega

end

namespace LinearConverter

variable {c : LinearConverter} {step : Nat}

/-! ## Calls of a linear converter -/

/-- A linear converter fails exactly if its phase does. -/
theorem feed_eq_error_iff {x : Float32} {e : ConverterFault} :
    (Converter.feed c x).2 = .error e ↔ c.phase.tick.2 = .error e := by
  rcases htick : c.phase.tick with ⟨phase, f | due | s⟩
  · rw [feed_of_tick_error htick]
    exact ⟨fun h => by cases h; rfl, fun h => by cases h; rfl⟩
  · rw [feed_of_not_due htick]
    exact ⟨nofun, nofun⟩
  · rw [feed_of_due htick]
    exact ⟨nofun, nofun⟩

theorem feed_ok_of_tick {x : Float32} {due : Option Int} (h : c.phase.tick.2 = .ok due) :
    ∃ ready, (Converter.feed c x).2 = .ok ready := by
  cases hfeed : (Converter.feed c x).2 with
  | ok ready => exact ⟨ready, rfl⟩
  | error e =>
    rw [feed_eq_error_iff, h] at hfeed
    cases hfeed

/-- Samples alone take the phase ahead, whether or not it fails. -/
theorem phase_after_feeds (x : Float32) (n : Nat) : ∀ c : LinearConverter,
    (Converter.after c (List.replicate n (.feed x))).phase =
      (fun p => p.tick.1)^[n] c.phase := by
  induction n with
  | zero => intro c; rfl
  | succ n ih =>
    intro c
    rw [Function.iterate_succ_apply, ← phase_feed c x, ← ih]
    rfl

theorem not_faultless_of_tick {n : Nat} {e : ConverterFault}
    (h : ((fun p => p.tick.1)^[n] c.phase).tick.2 = .error e) : ¬ Converter.Faultless c := by
  intro hfaultless
  obtain ⟨ready, hready⟩ := hfaultless (List.replicate n (.feed 0.0)) 0.0
  rw [← phase_after_feeds 0.0, ← feed_eq_error_iff (x := 0.0), hready] at h
  cases h

/-- With room for the step the phase keeps to the schedule of the outputs since the last reset. -/
theorem exists_phase_eq (hlo : 1024 ≤ step) (hhi : step ≤ 2147482624)
    (calls : List Converter.Call) :
    ∃ m, (Converter.after (start step) calls).phase = Phase.after step m := by
  refine Converter.after_keeps (I := fun c : LinearConverter => ∃ m, c.phase = Phase.after step m)
    ?_ calls _ ⟨0, Phase.start_eq_after (by omega)⟩
  rintro c call ⟨m, hm⟩
  cases call with
  | feed x =>
    refine ⟨m + 1, ?_⟩
    show (Converter.feed c x).1.phase = _
    rw [phase_feed, hm, Phase.tick_after hlo hhi]
  | reset =>
    refine ⟨0, ?_⟩
    show Phase.start c.phase.step = _
    rw [hm, ← Phase.start_eq_after (by omega)]
    rfl

theorem exists_tick_eq (hlo : 1024 ≤ step) (hhi : step ≤ 2147482624)
    (calls : List Converter.Call) :
    ∃ m, (Converter.after (start step) calls).phase.tick.2 = .ok (Phase.dueAt step m) := by
  obtain ⟨m, hm⟩ := exists_phase_eq hlo hhi calls
  exact ⟨m, by rw [hm, Phase.tick_after hlo hhi]⟩

/-- A step of at least an input sample never makes the converter fail exactly if it leaves room for
another one in the register. -/
theorem faultless_start_iff (hlo : 1024 ≤ step) (hmax : step ≤ 2147483647) :
    Converter.Faultless (start step) ↔ step ≤ 2147482624 := by
  by_cases hroom : step ≤ 2147482624
  · refine iff_of_true (fun calls x => ?_) hroom
    obtain ⟨m, hm⟩ := exists_tick_eq hlo hroom calls
    exact feed_ok_of_tick hm
  · exact iff_of_false (not_faultless_of_tick (Phase.fault_of_large_step (by omega) hmax)) hroom

theorem ofRates_eq_ok {clock sample : Float} (h : checkRates clock sample = .ok ()) :
    ofRates clock sample = .ok (start (Phase.stepOf (Ratio.of clock sample))) := by
  rw [ofRates, h]
  rfl

/-- A converter for accepted rates never fails exactly if the ratio leaves room for an input sample
in the register. Then its step is at least an input sample, and every output lies between the input
sample that it comes with and the one before. -/
theorem faultless_iff {clock sample : Float} (h : checkRates clock sample = .ok ()) :
    ∃ c, ofRates clock sample = .ok c ∧
      (Converter.Faultless c ↔ clock / sample * 1024.0 < 2147482625.0) ∧
      (clock / sample * 1024.0 < 2147482625.0 →
        1024 ≤ c.phase.step ∧ c.phase.step ≤ 2147482624 ∧
        ∀ calls s, (Converter.after c calls).phase.tick.2 = .ok (some s) → 0 ≤ s ∧ s < 1024) := by
  refine ⟨_, ofRates_eq_ok h, ?_⟩
  by_cases hfinite : sample.isFinite = true
  · have hlo := le_stepOf h hfinite
    have hmax := stepOf_le (Ratio.of clock sample)
    rw [← stepOf_le_iff h hfinite]
    obtain ⟨step, hstep⟩ := Int.eq_ofNat_of_zero_le (Int.le_trans (by decide) hlo)
    rw [hstep] at hlo hmax ⊢
    refine ⟨(faultless_start_iff (by omega) (by omega)).trans (by omega), fun hroom => ?_⟩
    refine ⟨hlo, hroom, fun calls s hs => ?_⟩
    obtain ⟨m, hm⟩ := exists_tick_eq (show 1024 ≤ step by omega) (by omega) calls
    rw [hm] at hs
    exact Phase.dueAt_bounds (Except.ok.inj hs)
  · have hnot : ¬ clock / sample * 1024.0 < 2147482625.0 := fun hlt =>
      not_numeric_ratio h hfinite (numeric_of_lt hlt).1
    rw [stepOf_of_infinite h hfinite]
    exact ⟨iff_of_false (not_faultless_of_tick Phase.fault_of_zero_step) hnot,
      fun hlt => absurd hlt hnot⟩

/-- At one output for each 2097152 inputs the second output overflows the register. -/
theorem overflows_at_second_output :
    checkRates 2097152.0 1.0 = .ok () ∧
    ∃ c, ofRates 2097152.0 1.0 = .ok c ∧ c.phase.step = 2147483647 ∧
      (Converter.feed (Converter.after c (List.replicate 2097151 (.feed 1.0))) 1.0).2 =
        .error .offsetTooLarge := by
  have hrates : checkRates (2097152.0 : Float) 1.0 = .ok () := by decide
  have hstep : Phase.stepOf (Ratio.of (2097152.0 : Float) 1.0) = 2147483647 := by decide
  refine ⟨hrates, _, ofRates_eq_ok hrates, hstep, ?_⟩
  have hfault := Phase.fault_of_large_step (show 2147482624 < 2147483647 by decide) (by decide)
  rw [hstep, feed_eq_error_iff, phase_after_feeds]
  exact hfault

/-- From the clock of a PAL machine down to 44.1 kHz there is room. -/
theorem faultless_pal :
    checkRates 985248.0 44100.0 = .ok () ∧ 985248.0 / 44100.0 * 1024.0 < 2147482625.0 ∧
    ∃ c, ofRates 985248.0 44100.0 = .ok c ∧ Converter.Faultless c ∧ 1024 ≤ c.phase.step := by
  have hrates : checkRates (985248.0 : Float) 44100.0 = .ok () := by decide
  have hroom : (985248.0 : Float) / 44100.0 * 1024.0 < 2147482625.0 := by decide
  obtain ⟨c, hc, hfaultless, hstep⟩ := faultless_iff hrates
  exact ⟨hrates, hroom, c, hc, hfaultless.mpr hroom, (hstep hroom).1⟩

end LinearConverter

end SignalPath
