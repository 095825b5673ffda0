import SignalPath.Proofs.Chip.Faults
import SignalPath.Proofs.Chip.ReverseTable

/-!
# Where a stage inverts

The measured transfer curve falls, so that a larger charge should not give a larger output. Between
the knots this takes more than a curve that rises: an output falls only as long as the reverse curve
rises by at most two for each entry. It does so from its entry 9933 to its entry 48843. Below, the
output rises by 1762 units to a peak that lies above the scale, and above it comes back to zero from
a dip of 20 units.
-/

namespace SignalPath

namespace Mos8580

/-- The slope of the reverse curve is at least two up to the peak of the output and from its dip on,
and at most two in between. -/
theorem slopes_of_output :
    Spline.risesWithin (2 : Int) (3 : Int) (1 : Nat) (9932 : Nat) reverseCurve.inner
        reverseCurve.last = true ∧
      Spline.risesWithin (0 : Int) (2 : Int) (9933 : Nat) (48843 : Nat) reverseCurve.inner
        reverseCurve.last = true ∧
      Spline.risesWithin (2 : Int) (3 : Int) (48844 : Nat) (65535 : Nat) reverseCurve.inner
        reverseCurve.last = true := by
  decide +kernel

theorem levels_of_output :
    level 9932 = 21626 ∧ level 9933 = 21628 ∧ 32726 ≤ level 49131 := by
  decide +kernel

/-- The output at the lower half of an entry. At the upper half it is one less. -/
def outputLevel (i : Nat) : Int := max 0 (level i) - 2 * i + 65536

section

variable {i j : Nat}

theorem outputLevel_le_peak (hi : i ≤ 65535) : outputLevel i ≤ 67298 := by
  obtain ⟨hrises, hfalls, hrises'⟩ := slopes_of_output
  obtain ⟨hzero, -, -, -, -, -, hlast⟩ := levels
  obtain ⟨hpeak, hpeak', -⟩ := levels_of_output
  rw [outputLevel]
  rcases Nat.eq_zero_or_pos i with rfl | hpos
  · omega
  · rcases Nat.lt_or_ge i 9933 with hbelow | habove
    · have hrise := (level_rise hrises hpos (show i ≤ 9932 by omega) le_rfl).1
      omega
    · rcases Nat.lt_or_ge i 48844 with hbelow' | habove'
      · have hrise := (level_rise hfalls le_rfl habove (show i ≤ 48843 by omega)).2
        omega
      · have hrise := (level_rise hrises' habove' hi le_rfl).1
        omega

theorem outputLevel_le_zero (hlo : 48699 ≤ i) (hi : i ≤ 65535) : outputLevel i ≤ 0 := by
  obtain ⟨-, hfalls, hrises⟩ := slopes_of_output
  obtain ⟨-, -, -, -, hknot, -, hlast⟩ := levels
  rw [outputLevel]
  rcases Nat.lt_or_ge i 48844 with hbelow | habove
  · have hrise := (level_rise hfalls (show 9933 ≤ 48699 by omega) hlo (show i ≤ 48843 by omega)).2
    omega
  · have hrise := (level_rise hrises habove hi le_rfl).1
    omega

theorem outputLevel_falls (hlo : 9932 ≤ i) (hij : i ≤ j) (hhi : j ≤ 48843) :
    outputLevel j ≤ outputLevel i := by
  obtain ⟨-, hfalls, -⟩ := slopes_of_output
  obtain ⟨hpeak, hpeak', -⟩ := levels_of_output
  rcases hlo.eq_or_lt with rfl | hlo
  · have hle := outputLevel_le_peak (show j ≤ 65535 by omega)
    rw [outputLevel, outputLevel] at *
    omega
  · have hrise := (level_rise hfalls hlo hij hhi).2
    have hrise' := (level_rise hfalls le_rfl hlo (show i ≤ 48843 by omega)).1
    rw [outputLevel, outputLevel]
    omega

end

end Mos8580

namespace Integrator

open Mos8580

variable {vc : Int32}

/-- The charge at the peak of the output. -/
def peakCharge : Int32 := -748290048

/-- The lowest charge of the last entry, where the output is zero. -/
def lastCharge : Int32 := 1073709056

theorem answer_of_position {i : Nat} (hi : position vc = i) (hi' : i ≤ 65535) :
    ∃ y, answerAt reverseTable vc = some y ∧
      y.toInt = outputLevel i - vc.toInt / 16384 % 2 := by
  have hsize : reverseTableSize = 65536 := rfl
  have hindex : (position vc).toNat < reverseTableSize := by omega
  have hlookup := lookup_eq_some_iff.mpr
    ⟨show 0 ≤ position vc by omega, hindex, Eq.refl reverseTable[(position vc).toNat]⟩
  obtain ⟨-, -, hlevel⟩ := lookup_eq_level hlookup
  refine ⟨_, by rw [answerAt, hlookup]; rfl, ?_⟩
  rw [toInt_outputOf, hlevel, hi, Int.toNat_natCast, outputLevel]
  rw [position] at hi
  omega

theorem exists_answer (vc : Int32) (hlo : -2 ^ 30 ≤ vc.toInt) (hhi : vc.toInt < 2 ^ 30) :
    ∃ y, answerAt reverseTable vc = some y ∧ ∃ i : Nat, position vc = i ∧ i ≤ 65535 ∧
      y.toInt = outputLevel i - vc.toInt / 16384 % 2 := by
  obtain ⟨hpos, hpos'⟩ := position_mem_iff.mpr ⟨hlo, hhi⟩
  have hsize : reverseTableSize = 65536 := rfl
  obtain ⟨i, hi⟩ := Int.eq_ofNat_of_zero_le hpos
  obtain ⟨y, hanswer, hy⟩ := answer_of_position hi (by omega)
  exact ⟨y, hanswer, i, hi, by omega, hy⟩

/-- The answer of a step is the one for the charge that it leaves. -/
theorem answerAt_of_step {s s' : Integrator} {vi y : Int32} (h : s.step vi = (s', .ok y)) :
    answerAt s.table s'.vc = some y := by
  obtain ⟨-, hlookup, -, hanswer⟩ := step_ok h
  rw [answerAt, hlookup, hanswer]
  rfl

theorem answerAt_peakCharge : ∃ y, answerAt reverseTable peakCharge = some y ∧ y.toInt = 67298 := by
  obtain ⟨y, hanswer, hy⟩ :=
    answer_of_position (show position peakCharge = (9932 : Nat) by decide) (by decide)
  obtain ⟨hpeak, -⟩ := levels_of_output
  have hhalf : peakCharge.toInt / 16384 % 2 = 0 := by decide
  rw [outputLevel] at hy
  exact ⟨y, hanswer, by omega⟩

theorem answerAt_lastCharge : ∃ y, answerAt reverseTable lastCharge = some y ∧ y.toInt = 0 := by
  obtain ⟨y, hanswer, hy⟩ :=
    answer_of_position (show position lastCharge = (65535 : Nat) by decide) (by decide)
  obtain ⟨-, -, -, -, -, -, hlast⟩ := levels
  have hhalf : lastCharge.toInt / 16384 % 2 = 0 := by decide
  rw [outputLevel] at hy
  exact ⟨y, hanswer, by omega⟩

/-- From the peak on, only the output in the dip is below zero by more than the half of an entry. -/
theorem le_answer {y : Int32} (hanswer : answerAt reverseTable vc = some y)
    (h : peakCharge.toInt ≤ vc.toInt ∧ vc.toInt < 522059776 ∨
      536182784 ≤ vc.toInt ∧ vc.toInt < 2 ^ 30) : -1 ≤ y.toInt := by
  have hpeakCharge : peakCharge.toInt = -748290048 := by decide
  obtain ⟨z, hz, i, hi, hi', hz'⟩ := exists_answer vc (by omega) (by omega)
  obtain rfl : z = y := Option.some.inj (hz.symm.trans hanswer)
  rw [position] at hi
  have hlevel : 0 ≤ outputLevel i := by
    rcases h with ⟨hpeak, hdip⟩ | ⟨hdip, -⟩
    · have hfalls := outputLevel_falls (show 9932 ≤ i by omega) (show i ≤ 48699 by omega)
        (by decide)
      obtain ⟨-, -, -, -, hknot, -⟩ := levels
      rw [outputLevel] at hfalls
      omega
    · obtain ⟨-, -, hrises⟩ := slopes_of_output
      obtain ⟨-, -, hknot⟩ := levels_of_output
      obtain ⟨hrise, -⟩ :=
        level_rise hrises (show 48844 ≤ 49131 by omega) (show 49131 ≤ i by omega) hi'
      rw [outputLevel]
      omega
  omega

/-- No larger charge gives an output that is larger by more than 2, except for charges below the
peak of the output and for charges in its dip: those whose output is more than 2 below the peak, and
those whose output is more than 2 below zero. -/
theorem output_falls_iff (hlo : -2 ^ 30 ≤ vc.toInt) (hhi : vc.toInt < 2 ^ 30) :
    ∃ y, answerAt reverseTable vc = some y ∧
      (∀ s s' vi z, s.table = reverseTable → step s vi = (s', .ok z) → s'.vc = vc → z = y) ∧
      ((∀ vc' : Int32, vc.toInt ≤ vc'.toInt → vc'.toInt < 2 ^ 30 →
          ∃ y', answerAt reverseTable vc' = some y' ∧ y'.toInt - 2 ≤ y.toInt) ↔
        -2 ≤ y.toInt ∧ (vc.toInt < peakCharge.toInt → 67296 ≤ y.toInt)) ∧
      (peakCharge.toInt ≤ vc.toInt ∧ vc.toInt < 522059776 ∨ 536182784 ≤ vc.toInt →
        -1 ≤ y.toInt) := by
  have hpeakCharge : peakCharge.toInt = -748290048 := by decide
  have hlastCharge : lastCharge.toInt = 1073709056 := by decide
  obtain ⟨y, hanswer, i, hi, hi', hy⟩ := exists_answer vc hlo hhi
  rw [position] at hi
  refine ⟨y, hanswer, ?_, ⟨?_, ?_⟩, fun h => le_answer hanswer (h.imp_right fun h => ⟨h, hhi⟩)⟩
  · intro s s' vi z htable hstep hcharge
    have hz := answerAt_of_step hstep
    rw [htable, hcharge, hanswer] at hz
    exact (Option.some.inj hz).symm
  · intro h
    constructor
    · -- The output comes back to zero at the last charge.
      rcases lt_or_ge lastCharge.toInt vc.toInt with hlast | hbefore
      · have hle := le_answer hanswer (Or.inr ⟨by omega, hhi⟩)
        omega
      · obtain ⟨y', hanswer', hle⟩ := h lastCharge hbefore (by omega)
        obtain ⟨z, hz, hz'⟩ := answerAt_lastCharge
        rw [hanswer'] at hz
        cases hz
        omega
    · intro hbelow
      obtain ⟨y', hanswer', hle⟩ := h peakCharge hbelow.le (by omega)
      obtain ⟨z, hz, hz'⟩ := answerAt_peakCharge
      rw [hanswer'] at hz
      cases hz
      omega
  · rintro ⟨hdip, hpeak⟩ vc' hle hhi'
    obtain ⟨y', hanswer', j, hj, hj', hy'⟩ := exists_answer vc' (by omega) hhi'
    rw [position] at hj
    refine ⟨y', hanswer', ?_⟩
    -- Below the peak its height counts, from there on only what comes after the dip.
    rcases lt_or_ge vc.toInt peakCharge.toInt with hbelow | habove
    · have hmax := outputLevel_le_peak hj'
      have hmin := hpeak hbelow
      omega
    · rcases Nat.lt_or_ge j 48844 with hbefore | hbehind
      · have hfalls := outputLevel_falls (show 9932 ≤ i by omega) (show i ≤ j by omega)
          (show j ≤ 48843 by omega)
        omega
      · have hzero := outputLevel_le_zero (show 48699 ≤ j by omega) hj'
        omega

/-- From a stage without charge on, the output only falls. -/
theorem output_falls_from_zero :
    ∃ y, answerAt reverseTable 0 = some y ∧ ∀ vc' : Int32, 0 ≤ vc'.toInt → vc'.toInt < 2 ^ 30 →
      ∃ y', answerAt reverseTable vc' = some y' ∧ y'.toInt - 2 ≤ y.toInt := by
  obtain ⟨y, hanswer, -, hfalls, hquiet⟩ := output_falls_iff
    (show -2 ^ 30 ≤ (0 : Int32).toInt by decide) (by decide)
  have hy := hquiet (Or.inl ⟨by decide, by decide⟩)
  exact ⟨y, hanswer, hfalls.mpr ⟨by omega, fun h => absurd h (by decide)⟩⟩

/-- On the way to the peak, the larger one of two charges gives an output larger by 396. -/
theorem output_rises_to_peak :
    (-855383400 : Int32).toInt ≤ (-781631056 : Int32).toInt ∧
      answerAt reverseTable (-855383400) = some 66849 ∧
      answerAt reverseTable (-781631056) = some 67245 ∧
      (66849 : Int32).toInt < (67245 : Int32).toInt - 2 := by
  have hentry : Scale.entry reverseCurve 6663 = 14640 ∧ Scale.entry reverseCurve 8914 = 19538 := by
    decide +kernel
  refine ⟨by decide, ?_, ?_, by decide⟩
  · rw [answerAt, lookup_reverseTable, if_pos (by decide),
      show (position (-855383400)).toNat = 6663 by decide, hentry.1]
    decide
  · rw [answerAt, lookup_reverseTable, if_pos (by decide),
      show (position (-781631056)).toNat = 8914 by decide, hentry.2]
    decide

end Integrator

end SignalPath
