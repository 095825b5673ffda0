import SignalPath.Proofs.Number.Bounds
import SignalPath.Proofs.Rate.Refusal

/-!
# When a conversion in two stages is refused

For a sample rate of up to 44 kHz the rate between the stages is at least the sample rate, unless the
product under its root is too small for a floating-point number: then it is twice the passband and
leaves no room for the first filter. For a higher sample rate the passband stays where it is, and
nothing keeps the rate between the stages above the sample rate: a plan for a clock that is too slow
asks the second stage to convert upwards.
-/

namespace SignalPath.Plan

open Binary64 Rounding
open Float.Model.Format (binary64)

/-- The smallest number of full precision. -/
def smallestRate : Float := Float.ofBits 0x0010000000000000

/-- A pair of rates to convert between: finite numbers of full precision, the clock rate at least
the sample rate. -/
structure Downsampling (clock sample : Float) : Prop where
  smallest_le : smallestRate ≤ sample
  sample_le : sample ≤ clock
  clock_finite : clock.isFinite = true

/-- Twice the passband. -/
def lower (sample : Float) : Float := 2.0 * passbandFor sample

/-- The product under the root of the rate between the stages. -/
def product (clock sample : Float) : Float := lower sample * clock * (sample - lower sample)

/-- The rate with the least work for both stages. -/
def leastRate (clock sample : Float) : Float :=
  lower sample + (product clock sample / sample).sqrt

theorem rateBetween_eq (clock sample : Float) :
    rateBetween clock sample = smaller (leastRate clock sample) clock := rfl

section

variable {clock sample : Float}

theorem real_smallestRate : real smallestRate = 2 ^ (-1022 : ℤ) := by
  rw [real_of_unpack (show smallestRate.toModel.unpack =
      .finite .positive 4503599627370496 (-1074) (by decide) from rfl),
    show (-1022 : ℤ) = 52 + -1074 by norm_num, zpow_add₀ (by norm_num)]
  norm_num

theorem real_slope : |real 0.45 - 0.45| ≤ 1 / 100000 := by
  rw [real_of_unpack (show (0.45 : Float).toModel.unpack =
    .finite .positive 8106479329266893 (-54) (by decide) from rfl), abs_le]
  norm_num

theorem real_border : real 44000.0 = 44000 := by
  rw [real_of_unpack (show (44000.0 : Float).toModel.unpack =
    .finite .positive 6047313952768000 (-37) (by decide) from rfl)]
  norm_num

namespace Downsampling

theorem sample_finite (h : Downsampling clock sample) : sample.isFinite = true :=
  finite_of_between h.smallest_le h.sample_le rfl h.clock_finite

theorem real_sample_ge (h : Downsampling clock sample) : (2 : ℝ) ^ (-1022 : ℤ) ≤ real sample := by
  rw [← real_smallestRate]
  exact real_le_of_le h.smallest_le rfl h.sample_finite

theorem real_sample_pos (h : Downsampling clock sample) : 0 < real sample :=
  (two_zpow_pos _).trans_le h.real_sample_ge

theorem real_sample_le (h : Downsampling clock sample) : real sample ≤ real clock :=
  real_le_of_le h.sample_le h.sample_finite h.clock_finite

/-- A share of the sample rate is far above the smallest numbers. -/
theorem large_of_share (h : Downsampling clock sample) {x : ℝ} (hx : real sample / 16 ≤ x) :
    (2 : ℝ) ^ (-1030 : ℤ) ≤ x := by
  have hge := h.real_sample_ge
  have hsplit : (2 : ℝ) ^ (-1022 : ℤ) = 2 ^ (-1030 : ℤ) * 256 := by
    rw [show (-1022 : ℤ) = -1030 + 8 by norm_num, zpow_add₀ (by norm_num)]
    norm_num
  have hpos := two_zpow_pos (-1030)
  linarith

end Downsampling

/-! ## Sample rates up to 44 kHz -/

theorem passbandFor_of_le (h : sample ≤ 44000.0) : passbandFor sample = sample * 0.45 := by
  rw [passbandFor, if_neg (float_not_lt h)]

/-- The passband is close to 45 percent of the sample rate. -/
theorem low_passband (h : Downsampling clock sample) (hlow : sample ≤ 44000.0) :
    (passbandFor sample).isFinite = true ∧ 0.4499 * real sample ≤ real (passbandFor sample) ∧
      real (passbandFor sample) ≤ 0.4501 * real sample := by
  have hpos := h.real_sample_pos
  obtain ⟨hslope, hslope'⟩ := abs_le.mp real_slope
  have hcomputes := computes_mul h.sample_finite (show (0.45 : Float).isFinite = true from rfl)
  have hexact : 0.44999 * real sample ≤ real sample * real 0.45 ∧
      real sample * real 0.45 ≤ 0.45001 * real sample := by
    constructor
    · rw [mul_comm (real sample)]
      exact mul_le_mul_of_nonneg_right (by linarith) hpos.le
    · rw [mul_comm (real sample)]
      exact mul_le_mul_of_nonneg_right (by linarith) hpos.le
  rw [passbandFor_of_le hlow]
  have hfinite := hcomputes.finite_of_le h.sample_finite (by linarith) (by linarith)
  rw [hcomputes.real_eq hfinite]
  obtain ⟨hlo, hhi⟩ := abs_le.mp (abs_nearest_sub_le_of_large
    (h.large_of_share (show real sample / 16 ≤ real sample * real 0.45 by linarith)))
  exact ⟨hfinite, by linarith, by linarith⟩

/-- Twice the passband is exact. -/
theorem low_lower (h : Downsampling clock sample) (hlow : sample ≤ 44000.0) :
    (lower sample).isFinite = true ∧ real (lower sample) = 2 * real (passbandFor sample) := by
  have hpos := h.real_sample_pos
  obtain ⟨hfinite, hlo, hhi⟩ := low_passband h hlow
  have hcomputes := computes_mul (show (2.0 : Float).isFinite = true from rfl) hfinite
  rw [real_two] at hcomputes
  have hfinite' := hcomputes.finite_of_le h.sample_finite (by linarith) (by linarith)
  refine ⟨hfinite', ?_⟩
  rw [lower, hcomputes.real_eq hfinite']
  exact (canonical_toModel (passbandFor sample)).nearest_two_mul

/-- About a tenth of the sample rate lies between twice the passband and the sample rate. -/
theorem low_gap (h : Downsampling clock sample) (hlow : sample ≤ 44000.0) :
    (sample - lower sample).isFinite = true ∧ 0.099 * real sample ≤ real (sample - lower sample) := by
  have hpos := h.real_sample_pos
  obtain ⟨-, hlo, hhi⟩ := low_passband h hlow
  obtain ⟨hfinite, hdouble⟩ := low_lower h hlow
  have hcomputes := computes_sub h.sample_finite hfinite
  have hfinite' := hcomputes.finite_of_le h.sample_finite (by linarith) (by linarith)
  refine ⟨hfinite', ?_⟩
  rw [hcomputes.real_eq hfinite']
  obtain ⟨hge, -⟩ := abs_le.mp (abs_nearest_sub_le_of_large
    (h.large_of_share (show real sample / 16 ≤ real sample - real (lower sample) by linarith)))
  linarith

/-- Unless it is rounded to zero, the product is at least a share of the cube of the sample rate. -/
theorem low_product (h : Downsampling clock sample) (hlow : sample ≤ 44000.0)
    (hproduct : 0.0 < product clock sample) :
    AtLeast (product clock sample) (0.0395 * (real sample * real sample * real sample)) := by
  have hpos := h.real_sample_pos
  have hle := h.real_sample_le
  obtain ⟨-, hpassband, -⟩ := low_passband h hlow
  obtain ⟨hlower, hdouble⟩ := low_lower h hlow
  obtain ⟨hgap, hgap'⟩ := low_gap h hlow
  have hproduct' : ext (product clock sample) ≠ 0 := (ext_lt_of_lt hproduct).ne'
  have hscaled := computes_mul hlower h.clock_finite
  have hexact : 0.8998 * real sample * real sample ≤ real (lower sample) * real clock :=
    mul_le_mul (by linarith) hle hpos.le (by linarith)
  have hscaled' := (hscaled.atLeast (mul_nonneg (by linarith) (by linarith))
    (ext_ne_zero_of_mul hscaled.1 hgap hproduct')).mono
    (show 0.5998 * (real sample * real sample) ≤ _ by linarith [mul_pos hpos hpos])
  have hcube : 0 < real sample * real sample * real sample := mul_pos (mul_pos hpos hpos) hpos
  refine (hscaled'.mul (by positivity) hgap (show 0 < 0.099 * real sample by linarith) hgap'
    fun _ => hproduct').mono ?_
  linarith

/-- The quotient is not rounded to zero then: it is at least the product, or the sample rate is at
least 1 and the quotient far above the smallest numbers. -/
theorem low_quotient_ne_zero (h : Downsampling clock sample) (hlow : sample ≤ 44000.0)
    (hproduct : 0.0 < product clock sample) (hfinite : (product clock sample).isFinite = true) :
    ext (product clock sample / sample) ≠ 0 := by
  have hpos := h.real_sample_pos
  have hcomputes := computes_div hfinite h.sample_finite hpos.ne'
  rcases le_total (real sample) 1 with hone | hone
  · have hpositive : 0 < real (product clock sample) := real_pos hproduct hfinite
    refine hcomputes.ne_zero hfinite hpositive ?_
    rw [le_div_iff₀ hpos]
    exact mul_le_of_le_one_right hpositive.le hone
  · have hge := (low_product h hlow hproduct).real_le hfinite
    have hsmall : (2 : ℝ) ^ (-1022 : ℤ) ≤ 0.0395 :=
      (zpow_le_zpow_right₀ one_le_two (show (-1022 : ℤ) ≤ -5 by norm_num)).trans (by norm_num)
    have hone' : 1 ≤ real sample * real sample := one_le_mul_of_one_le_of_one_le hone hone
    refine hcomputes.ne_zero (c := smallestRate) rfl (by rw [real_smallestRate]; positivity) ?_
    rw [real_smallestRate, le_div_iff₀ hpos]
    refine le_trans ?_ hge
    rw [← mul_assoc]
    refine mul_le_mul_of_nonneg_right (hsmall.trans ?_) hpos.le
    linarith

/-- Unless the product is rounded to zero, the rate with the least work is at least the sample
rate. -/
theorem low_leastRate (h : Downsampling clock sample) (hlow : sample ≤ 44000.0)
    (hproduct : 0.0 < product clock sample) : AtLeast (leastRate clock sample) (real sample) := by
  have hpos := h.real_sample_pos
  obtain ⟨-, hpassband, -⟩ := low_passband h hlow
  obtain ⟨hlower, hdouble⟩ := low_lower h hlow
  have hquotient := (low_product h hlow hproduct).div (by positivity) h.sample_finite hpos
    (low_quotient_ne_zero h hlow hproduct)
  have hsquare : 0 < real sample * real sample := mul_pos hpos hpos
  have hroot := (hquotient.mono (show (0.162 * real sample) ^ 2 ≤ _ by
    rw [mul_div_assoc, mul_div_cancel_right₀ _ hpos.ne']
    linarith [show (0.162 * real sample) ^ 2 = 0.026244 * (real sample * real sample) by
      ring])).sqrt (by positivity)
  rw [Real.sqrt_sq (by linarith)] at hroot
  exact AtLeast.add hlower hroot h.sample_finite (by linarith)

/-! ## Sample rates above 44 kHz -/

/-- The quotient under the root for a sample rate above 44 kHz, without rounding. -/
noncomputable def quotientAbove (clock sample : ℝ) : ℝ := 40000 * clock * (sample - 40000) / sample

theorem passbandFor_of_lt (h : 44000.0 < sample) : passbandFor sample = 20000.0 := by
  rw [passbandFor, if_pos h]

theorem high_lower (hhigh : 44000.0 < sample) :
    (lower sample).isFinite = true ∧ real (lower sample) = 40000 := by
  rw [lower, passbandFor_of_lt hhigh]
  refine ⟨rfl, ?_⟩
  rw [real_of_unpack (show (2.0 * 20000.0 : Float).toModel.unpack =
    .finite .positive 5497558138880000 (-37) (by decide) from rfl)]
  norm_num

theorem high_sample (h : Downsampling clock sample) (hhigh : 44000.0 < sample) :
    44000 < real sample := by
  rw [← real_border]
  exact real_lt_of_lt hhigh rfl h.sample_finite

theorem le_quotientAbove (h : Downsampling clock sample) (hhigh : 44000.0 < sample) :
    12000 ^ 2 ≤ quotientAbove (real clock) (real sample) := by
  have hborder := high_sample h hhigh
  have hle := h.real_sample_le
  have hproduct := mul_le_mul (show 40000 * real sample ≤ 40000 * real clock by linarith)
    (show 4000 ≤ real sample - 40000 by linarith) (by norm_num) (by linarith)
  rw [quotientAbove, le_div_iff₀ h.real_sample_pos]
  linarith

theorem high_gap (h : Downsampling clock sample) (hhigh : 44000.0 < sample) :
    (sample - lower sample).isFinite = true ∧
      (1 - epsilon) * (real sample - 40000) ≤ real (sample - lower sample) ∧
      real (sample - lower sample) ≤ (1 + epsilon) * (real sample - 40000) := by
  have hborder := high_sample h hhigh
  obtain ⟨hlower, hreal⟩ := high_lower hhigh
  have hcomputes := computes_sub h.sample_finite hlower
  rw [hreal] at hcomputes
  have hfinite := hcomputes.finite_of_le h.sample_finite (by linarith) (by linarith)
  exact ⟨hfinite, (hcomputes.atLeast_of_one_le (by linarith)).real_le hfinite,
    hcomputes.real_le_of_one_le hfinite (by linarith)⟩

theorem high_scaled (h : Downsampling clock sample) (hhigh : 44000.0 < sample) :
    Computes (lower sample * clock) (40000 * real clock) := by
  obtain ⟨hlower, hreal⟩ := high_lower hhigh
  rw [← hreal]
  exact computes_mul hlower h.clock_finite

/-- The product is at least the exact one less three errors. -/
theorem high_product (h : Downsampling clock sample) (hhigh : 44000.0 < sample) :
    AtLeast (product clock sample)
      ((1 - epsilon) ^ 3 * (quotientAbove (real clock) (real sample) * real sample)) := by
  have hle := h.real_sample_le
  have hborder := high_sample h hhigh
  obtain ⟨hgap, hgap', -⟩ := high_gap h hhigh
  have hscaled := (high_scaled h hhigh).atLeast_of_one_le (by linarith)
  have hscaled' := one_le_share_mul (show 2 ≤ 40000 * real clock by linarith)
  have hgap'' := one_le_share_mul (show 2 ≤ real sample - 40000 by linarith)
  refine hscaled.mul_of_finite (by linarith) fun hfinite hge => ?_
  have hexact := mul_le_mul hge hgap' (by linarith) (by linarith)
  have hone := one_le_mul_of_one_le_of_one_le hscaled' hgap''
  refine ((computes_mul hfinite hgap).atLeast_of_one_le (hone.trans hexact)).mono ?_
  rw [quotientAbove, div_mul_cancel₀ _ h.real_sample_pos.ne']
  linarith [mul_le_mul_of_nonneg_left hexact share_pos.le]

theorem high_quotient (h : Downsampling clock sample) (hhigh : 44000.0 < sample) :
    AtLeast (product clock sample / sample)
      ((1 - epsilon) ^ 4 * quotientAbove (real clock) (real sample)) := by
  have hpos := h.real_sample_pos
  have hlarge := le_quotientAbove h hhigh
  refine (high_product h hhigh).div_of_finite hpos fun hfinite hge => ?_
  have hexact := div_le_div_of_nonneg_right hge hpos.le
  rw [← mul_assoc, mul_div_cancel_right₀ _ hpos.ne'] at hexact
  have hone := one_le_share_pow_mul 3 (show 2 ^ 3 ≤ quotientAbove _ _ by linarith)
  refine ((computes_div hfinite h.sample_finite hpos.ne').atLeast_of_one_le
    (hone.trans hexact)).mono ?_
  linarith [mul_le_mul_of_nonneg_left hexact share_pos.le]

/-- The rate with the least work is at least the exact one less three errors of its root. -/
theorem high_leastRate {r : Float} (h : Downsampling clock sample) (hhigh : 44000.0 < sample)
    (hr : r.isFinite = true)
    (hle : real r ≤ 40000 + (1 - epsilon) ^ 3 * √(quotientAbove (real clock) (real sample))) :
    AtLeast (leastRate clock sample) (real r) := by
  have hlarge := le_quotientAbove h hhigh
  obtain ⟨hlower, hreal⟩ := high_lower hhigh
  have hroot : AtLeast (product clock sample / sample).sqrt
      ((1 - epsilon) ^ 3 * √(quotientAbove (real clock) (real sample))) := by
    refine (high_quotient h hhigh).sqrt_of_finite fun hfinite hge => ?_
    have hone := one_le_share_pow_mul 4 (show 2 ^ 4 ≤ quotientAbove _ _ by linarith)
    have hsqrt := Real.sqrt_le_sqrt hge
    refine ((computes_sqrt hfinite (by linarith)).atLeast_of_one_le
      (Real.one_le_sqrt.mpr (hone.trans hge))).mono ?_
    rw [Real.sqrt_mul (by positivity), show (1 - epsilon) ^ 4 = ((1 - epsilon) ^ 2) ^ 2 by ring,
      Real.sqrt_sq (by positivity)] at hsqrt
    linarith [mul_le_mul_of_nonneg_left hsqrt share_pos.le]
  refine AtLeast.add hlower hroot hr ?_
  rw [hreal]
  exact hle

/-! A finite product bounds all that is made of it from above. -/

theorem high_product_le (h : Downsampling clock sample) (hhigh : 44000.0 < sample)
    (hproduct : (product clock sample).isFinite = true) :
    real (product clock sample) ≤
      (1 + epsilon) ^ 3 * (quotientAbove (real clock) (real sample) * real sample) := by
  have heps := epsilon_pos
  have hle := h.real_sample_le
  have hborder := high_sample h hhigh
  obtain ⟨hgap, hgap', hgap''⟩ := high_gap h hhigh
  have hscaled := high_scaled h hhigh
  have hscaled' := hscaled.atLeast_of_one_le (by linarith)
  have hgapOne := one_le_share_mul (show 2 ≤ real sample - 40000 by linarith)
  have hscaledOne := one_le_share_mul (show 2 ≤ 40000 * real clock by linarith)
  have hfinite := hscaled'.finite_of_mul (by linarith) hproduct
  have hge := hscaled'.real_le hfinite
  have hexact := mul_le_mul (hscaled.real_le_of_one_le hfinite (by linarith)) hgap''
    (by linarith) (by linarith [hscaled.real_le_of_one_le hfinite (by linarith)])
  have hbound := (computes_mul hfinite hgap).real_le_of_one_le hproduct
    (one_le_mul_of_one_le_of_one_le (hscaledOne.trans hge) (hgapOne.trans hgap'))
  rw [quotientAbove, div_mul_cancel₀ _ h.real_sample_pos.ne']
  exact hbound.trans (by
    linarith [mul_le_mul_of_nonneg_left hexact (show 0 ≤ 1 + epsilon by linarith)])

theorem high_quotient_le (h : Downsampling clock sample) (hhigh : 44000.0 < sample)
    (hproduct : (product clock sample).isFinite = true) :
    (product clock sample / sample).isFinite = true ∧
      real (product clock sample / sample) ≤
        (1 + epsilon) ^ 4 * quotientAbove (real clock) (real sample) := by
  have heps := epsilon_pos
  have hpos := h.real_sample_pos
  have hborder := high_sample h hhigh
  have hlarge := le_quotientAbove h hhigh
  have hge := (high_product h hhigh).real_le hproduct
  have hle := high_product_le h hhigh hproduct
  have hcomputes := computes_div hproduct h.sample_finite hpos.ne'
  have hexact := div_le_div_of_nonneg_right hle hpos.le
  have hexact' := div_le_div_of_nonneg_right hge hpos.le
  rw [← mul_assoc, mul_div_cancel_right₀ _ hpos.ne'] at hexact hexact'
  have hone := (one_le_share_pow_mul 3 (show 2 ^ 3 ≤ quotientAbove _ _ by linarith)).trans hexact'
  have hpositive : 0 ≤ real (product clock sample) := by
    rw [one_le_div₀ hpos] at hone
    linarith
  have hfinite := hcomputes.finite_of_le hproduct (by linarith) (div_le_self hpositive (by linarith))
  refine ⟨hfinite, (hcomputes.real_le_of_one_le hfinite hone).trans ?_⟩
  linarith [mul_le_mul_of_nonneg_left hexact (show 0 ≤ 1 + epsilon by linarith)]

/-- The rate with the least work is at most the exact one and four errors. -/
theorem high_leastRate_le (h : Downsampling clock sample) (hhigh : 44000.0 < sample)
    (hproduct : (product clock sample).isFinite = true) :
    (leastRate clock sample).isFinite = true ∧ real (leastRate clock sample) ≤
      (1 + epsilon) *
        (40000 + (1 + epsilon) ^ 3 * √(quotientAbove (real clock) (real sample))) := by
  have heps := epsilon_pos
  have hlarge := le_quotientAbove h hhigh
  obtain ⟨hlower, hreal⟩ := high_lower hhigh
  obtain ⟨hfinite, hle⟩ := high_quotient_le h hhigh hproduct
  have hge := (high_quotient h hhigh).real_le hfinite
  have hone := one_le_share_pow_mul 4 (x := quotientAbove (real clock) (real sample) / 1000 ^ 2)
    (by linarith)
  replace hone : 1000 ^ 2 ≤ real (product clock sample / sample) := by linarith
  -- The quotient is so large that its root is small next to it.
  have hsmall : √(real (product clock sample / sample)) ≤
      real (product clock sample / sample) / 1000 := by
    rw [Real.sqrt_le_left (by linarith), div_pow, le_div_iff₀ (by norm_num), pow_two (real _)]
    exact mul_le_mul_of_nonneg_left hone (by linarith)
  have hroot := computes_sqrt hfinite (by linarith)
  have hfinite' := hroot.finite_of_le hfinite (Real.sqrt_nonneg _) (by linarith)
  have hsqrt := Real.sqrt_le_sqrt hle
  rw [Real.sqrt_mul (by positivity), show (1 + epsilon) ^ 4 = ((1 + epsilon) ^ 2) ^ 2 by ring,
    Real.sqrt_sq (by positivity)] at hsqrt
  have honeRoot : 1 ≤ √(real (product clock sample / sample)) :=
    Real.one_le_sqrt.mpr (by linarith)
  have hrootGe := (hroot.atLeast_of_one_le honeRoot).real_le hfinite'
  have hrootLe := hroot.real_le_of_one_le hfinite' honeRoot
  have hrootNonneg := mul_nonneg share_pos.le (zero_le_one.trans honeRoot)
  have hsum := computes_add hlower hfinite'
  rw [hreal] at hsum
  have htwice := mul_le_mul_of_nonneg_right (show 1 + epsilon ≤ 2 by linarith [epsilon_le])
    (zero_le_one.trans honeRoot)
  have hfinite'' := hsum.finite_of_le hfinite (by linarith) (by linarith)
  refine ⟨hfinite'', (hsum.real_le_of_one_le hfinite'' (by linarith)).trans ?_⟩
  refine mul_le_mul_of_nonneg_left ?_ (by linarith)
  linarith [mul_le_mul_of_nonneg_left hsqrt (show 0 ≤ 1 + epsilon by linarith)]

/-! The two bounds, as conditions on the rates. -/

/-- A clock that is fast enough keeps the rate with the least work above the sample rate. -/
theorem leastRate_of_fast (h : Downsampling clock sample) (hhigh : 44000.0 < sample)
    (hfast : real sample * (real sample - 40000) ≤ (1 - epsilon) ^ 6 * (40000 * real clock)) :
    AtLeast (leastRate clock sample) (real sample) := by
  have hborder := high_sample h hhigh
  refine high_leastRate h hhigh h.sample_finite ?_
  have hroot : (real sample - 40000) / (1 - epsilon) ^ 3 ≤
      √(quotientAbove (real clock) (real sample)) := by
    refine Real.le_sqrt_of_sq_le ?_
    rw [div_pow, div_le_iff₀ (pow_pos (pow_pos share_pos 3) 2),
      show ((1 - epsilon) ^ 3) ^ 2 = (1 - epsilon) ^ 6 by ring, quotientAbove, div_mul_eq_mul_div,
      le_div_iff₀ h.real_sample_pos]
    linarith [mul_le_mul_of_nonneg_left hfast (show 0 ≤ real sample - 40000 by linarith)]
  rw [div_le_iff₀ (pow_pos share_pos 3)] at hroot
  linarith

/-- A clock that is too slow lets it fall below the sample rate. -/
theorem leastRate_of_slow (h : Downsampling clock sample) (hhigh : 44000.0 < sample)
    (hproduct : (product clock sample).isFinite = true)
    (hslow : (1 + epsilon) ^ 30 * (40000 * real clock) ≤ real sample * (real sample - 40000)) :
    leastRate clock sample < sample := by
  have heps := epsilon_pos
  have hborder := high_sample h hhigh
  obtain ⟨hfinite, hle⟩ := high_leastRate_le h hhigh hproduct
  refine lt_of_real_lt hfinite h.sample_finite (hle.trans_lt ?_)
  have hshare : 0 < 1 + epsilon := by linarith
  have hroot : √(quotientAbove (real clock) (real sample)) ≤
      (real sample - 40000) / (1 + epsilon) ^ 15 := by
    rw [Real.sqrt_le_left (div_nonneg (by linarith) (by positivity)), div_pow,
      le_div_iff₀ (by positivity), show ((1 + epsilon) ^ 15) ^ 2 = (1 + epsilon) ^ 30 by ring,
      quotientAbove, div_mul_eq_mul_div, div_le_iff₀ h.real_sample_pos]
    linarith [mul_le_mul_of_nonneg_left hslow (show 0 ≤ real sample - 40000 by linarith)]
  rw [le_div_iff₀ (by positivity)] at hroot
  -- Eleven of the fifteen errors in `hroot` are left over for the lower end of the band.
  have hrest : 1 + 11 * epsilon ≤ (1 + epsilon) ^ 11 := by
    exact_mod_cast one_add_mul_le_pow (show -2 ≤ epsilon by linarith) 11
  have hshared : (1 + epsilon) ^ 4 * √(quotientAbove (real clock) (real sample)) *
      (1 + 11 * epsilon) ≤ real sample - 40000 := by
    refine le_trans ?_ hroot
    calc (1 + epsilon) ^ 4 * √(quotientAbove (real clock) (real sample)) * (1 + 11 * epsilon)
        ≤ (1 + epsilon) ^ 4 * √(quotientAbove (real clock) (real sample)) * (1 + epsilon) ^ 11 :=
          mul_le_mul_of_nonneg_left hrest (by positivity)
      _ = √(quotientAbove (real clock) (real sample)) * (1 + epsilon) ^ 15 := by ring
  have hgoal : (1 + epsilon) * (40000 + (1 + epsilon) ^ 3 *
      √(quotientAbove (real clock) (real sample))) = 40000 + 40000 * epsilon +
        (1 + epsilon) ^ 4 * √(quotientAbove (real clock) (real sample)) := by ring
  rw [hgoal]
  rcases le_total 3640 ((1 + epsilon) ^ 4 * √(quotientAbove (real clock) (real sample))) with
    hlarge | hsmall
  · linarith [mul_le_mul_of_nonneg_right hlarge (show 0 ≤ 11 * epsilon by linarith)]
  · linarith [epsilon_le]

end

end SignalPath.Plan
