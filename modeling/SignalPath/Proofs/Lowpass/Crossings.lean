import SignalPath.Lowpass.Spec
import SignalPath.Proofs.Number.WholePart

/-!
# Zero crossings of a filter

The more of the band a passband takes, the narrower is the transition that is left, and the more
zero crossings it needs. A passband that takes nothing needs six, and one that leaves some room
needs few. Close to half the sample rate their number is cut off at the end of its register.
-/

namespace SignalPath.Spec

open Binary64 Rounding

/-- The zero crossings for the share of the band that a passband takes, with their fraction. -/
def demand (share : Float) : Float :=
  (attenuation - 7.95) / (2.285 * ((1.0 - share) * pi * 2.0)) + 0.5

section

variable {share lo hi sample passband : Float}

theorem crossings_eq_truncate : crossings sample passband =
    truncate registerMin registerMax (demand (2.0 * passband / sample)) :=
  rfl

theorem crossings_le : crossings sample passband ≤ registerMax :=
  truncate_le _

/-- The transition that a share leaves and the number of crossings that it needs are finite, and so
is every result on the way to them. -/
def Demands (share : Float) : Prop :=
  (1.0 - share).isFinite = true ∧ ((1.0 - share) * pi).isFinite = true ∧
    ((1.0 - share) * pi * 2.0).isFinite = true ∧
    (2.285 * ((1.0 - share) * pi * 2.0)).isFinite = true ∧
    0.0 < 2.285 * ((1.0 - share) * pi * 2.0) ∧
    ((attenuation - 7.95) / (2.285 * ((1.0 - share) * pi * 2.0))).isFinite = true ∧
    (demand share).isFinite = true

instance : Decidable (Demands share) :=
  inferInstanceAs (Decidable (_ ∧ _ ∧ _ ∧ _ ∧ _ ∧ _ ∧ _))

/-- Between two shares that leave a transition every share leaves one, and a larger share needs no
fewer crossings. -/
theorem demands_inside (h : Inside lo hi share) (hlo : Demands lo) (hhi : Demands hi) :
    Demands share ∧ Inside (demand lo) (demand hi) (demand share) := by
  obtain ⟨hwidth, hhalf, htransition, hscaled, -, hquotient, hdemand⟩ := hlo
  obtain ⟨hwidth', hhalf', htransition', hscaled', hpos', hquotient', hdemand'⟩ := hhi
  have hleft : Inside (1.0 - hi) (1.0 - lo) (1.0 - share) := h.const_sub rfl hwidth' hwidth
  have hpi := hleft.mul_const (c := pi) (by decide) (by decide) hhalf' hhalf
  have hwide := hpi.mul_const (c := 2.0) (by decide) rfl htransition' htransition
  have hdivisor := hwide.const_mul (c := 2.285) (by decide) rfl hscaled' hscaled
  have hratio := hdivisor.const_div (c := attenuation - 7.95) (by decide) (by decide) hpos'
    hquotient hquotient'
  have hneed := hratio.add_const (c := 0.5) rfl hdemand hdemand'
  exact ⟨⟨hleft.finite, hpi.finite, hwide.finite, hdivisor.finite,
    float_lt_of_lt_of_le hpos' hdivisor.ge, hratio.finite, hneed.finite⟩, hneed⟩

theorem inside_demand (h : Inside lo hi share) (hlo : Demands lo) (hhi : Demands hi) :
    Inside (demand lo) (demand hi) (demand share) :=
  (demands_inside h hlo hhi).2

theorem demands_zero : Demands 0.0 := by
  decide +kernel

theorem demand_zero :
    0.0 ≤ demand 0.0 ∧ 6 ≤ truncate registerMin registerMax (demand 0.0) := by
  decide +kernel

/-- The filter for a passband with some room below half the sample rate has few zero crossings. -/
theorem crossings_lt (h : Inside 0.0 0.9375 (2.0 * passband / sample)) :
    crossings sample passband < registerMax :=
  ((inside_demand h demands_zero (by decide)).truncate demand_zero.1).2.trans_lt (by decide)

/-! ## The last share below the whole band -/

/-- The largest number below 1. -/
theorem real_largestShare : real 0.9999999999999999 = 1 - epsilon := by
  rw [real_of_unpack (show (0.9999999999999999 : Float).toModel.unpack =
    .finite .positive 9007199254740991 (-53) (by decide) from rfl), epsilon]
  norm_num

theorem demands_largestShare : Demands 0.9999999999999999 := by
  decide +kernel

/-- A part of the sample rate that is not all of it leaves a transition. -/
theorem inside_or_eq_one (h : Inside lo 1.0 share) :
    Inside lo 0.9999999999999999 share ∨ share = 1.0 := by
  have hle := real_le_of_le h.le h.finite rfl
  rw [real_one] at hle
  rcases hle.lt_or_eq with hlt | heq
  · refine Or.inl ⟨h.ge, ?_, h.lo_finite, rfl⟩
    rw [le_iff (numeric_of_finite h.finite) (numeric_of_finite rfl), ext_of_finite h.finite,
      ext_of_finite rfl, real_largestShare]
    exact EReal.coe_le_coe_iff.mpr (real_le_of_lt_one hlt)
  · exact Or.inr (eq_of_real_eq (by rw [heq]; norm_num) (heq.trans real_one.symm))

/-- The widest transition, from zero to half the sample rate, needs six zero crossings. -/
theorem six_le_crossings (h : Inside 0.0 1.0 (2.0 * passband / sample)) :
    6 ≤ crossings sample passband := by
  rcases inside_or_eq_one h with hshare | hone
  · have hdemand := inside_demand hshare demands_zero demands_largestShare
    exact demand_zero.2.trans (hdemand.truncate demand_zero.1).1
  · -- The transition is rounded to nothing, and the number of crossings is cut off.
    rw [crossings_eq_truncate, hone]
    decide +kernel

/-! ## Crossings that are cut off -/

/-- The smallest share whose crossings reach the end of their register. It leaves less than three
parts in `10 ^ 9` of the band. -/
def crowdedShare : Float := 0.9999999971334728

theorem real_crowdedShare : real crowdedShare = 9007199228921610 * epsilon := by
  rw [real_of_unpack (show crowdedShare.toModel.unpack =
    .finite .positive 9007199228921610 (-53) (by decide) from rfl), epsilon]
  norm_num

/-- The largest number below the crowded share. -/
theorem real_roomyShare : real 0.9999999971334727 = real crowdedShare - epsilon := by
  rw [real_of_unpack (show (0.9999999971334727 : Float).toModel.unpack =
    .finite .positive 9007199228921609 (-53) (by decide) from rfl), real_crowdedShare, epsilon]
  norm_num

theorem le_roomyShare (h : share.isFinite = true) (hlt : share < crowdedShare) :
    share ≤ 0.9999999971334727 := by
  have hlt' := real_lt_of_lt hlt h rfl
  have hhalf : 1 / 2 < real crowdedShare := by
    rw [real_crowdedShare, epsilon]
    norm_num
  rw [le_iff (numeric_of_finite h) (numeric_of_finite rfl), ext_of_finite h, ext_of_finite rfl,
    real_roomyShare]
  exact EReal.coe_le_coe_iff.mpr (real_le_sub_epsilon hhalf hlt')

/-- The number of crossings is cut off exactly from the crowded share on. -/
theorem crossings_eq_max_iff (h : Inside 0.0 1.0 (2.0 * passband / sample)) :
    crossings sample passband = registerMax ↔ crowdedShare ≤ 2.0 * passband / sample := by
  rw [crossings_eq_truncate]
  by_cases hcrowded : crowdedShare ≤ 2.0 * passband / sample
  · refine iff_of_true (le_antisymm (truncate_le _) ?_) hcrowded
    rcases inside_or_eq_one ⟨hcrowded, h.le, rfl, rfl⟩ with hshare | hone
    · have hdemand := inside_demand hshare (by decide +kernel) demands_largestShare
      exact le_trans (by decide +kernel) (hdemand.truncate (by decide +kernel)).1
    · rw [hone]
      decide +kernel
  · refine iff_of_false ?_ hcrowded
    have hlt : 2.0 * passband / sample < crowdedShare := by
      by_contra hge
      exact hcrowded ((float_not_lt_iff (numeric_of_finite h.finite)
        (numeric_of_finite rfl)).mp hge)
    have hroomy := inside_demand ⟨h.ge, le_roomyShare h.finite hlt, rfl, rfl⟩ demands_zero
      (by decide +kernel)
    exact ((hroomy.truncate demand_zero.1).2.trans_lt (by decide +kernel)).ne

/-- A passband inside the band is finite, and so is its double, which is not above the sample
rate. -/
theorem finite_of_band (hpassband : 0.0 < passband) (hband : passband < sample / 2.0)
    (hsample : 0.0 < sample) (hfinite : sample.isFinite = true) :
    passband.isFinite = true ∧ (2.0 * passband).isFinite = true ∧
      0 ≤ real (2.0 * passband) ∧ real (2.0 * passband) ≤ real sample := by
  have htwo : (2.0 : Float).isFinite = true := rfl
  have hpos := real_pos hsample hfinite
  have hhalf := computes_div hfinite htwo (by
    rw [real_two]
    norm_num)
  rw [real_two] at hhalf
  have hhalf_finite := hhalf.finite_of_le hfinite (by linarith) (by linarith)
  have hpassband_finite :=
    finite_of_between (float_le_of_lt hpassband) (float_le_of_lt hband) rfl hhalf_finite
  have hpassband_pos := real_pos hpassband hpassband_finite
  -- What lies below the rounded half lies below the half.
  have hle : real passband ≤ real sample / 2 := by
    by_contra hgt
    exact float_not_lt (hhalf.le (computes_self hpassband_finite) (not_le.mp hgt).le) hband
  have hdouble := computes_mul htwo hpassband_finite
  rw [real_two] at hdouble
  have hdouble_finite := hdouble.finite_of_le hfinite (by linarith) (by linarith)
  exact ⟨hpassband_finite, hdouble_finite,
    (AtLeast.of_computes hdouble (by linarith)).real_le hdouble_finite,
    real_le_of_le (hdouble.le (computes_self hfinite) (by linarith)) hdouble_finite hfinite⟩

/-- Twice a passband inside the band is a part of the sample rate. -/
theorem inside_share (hpassband : 0.0 < passband) (hband : passband < sample / 2.0)
    (hsample : 0.0 < sample) (hfinite : sample.isFinite = true) :
    Inside 0.0 1.0 (2.0 * passband / sample) := by
  have hpos := real_pos hsample hfinite
  obtain ⟨-, hdouble_finite, hdouble_nonneg, hdouble_le⟩ :=
    finite_of_band hpassband hband hsample hfinite
  have hshare := computes_div hdouble_finite hfinite hpos.ne'
  refine ⟨(computes_self rfl).le hshare ?_, hshare.le (computes_self rfl) ?_, rfl, rfl⟩
  · rw [real_zero]
    exact div_nonneg hdouble_nonneg hpos.le
  · rw [real_one, div_le_one hpos]
    exact hdouble_le

end

end SignalPath.Spec
