import SignalPath.Proofs.Lowpass.Dimensions

/-!
# Lengths that do not fit a word

On the way to its length a filter passes two casts that cut off what they cannot hold, and each is
followed by a sum. The number of crossings is cut off once the passband leaves less than three parts
in `10 ^ 9` of the band, and the length once it reaches `2 ^ 64`. From there on the sum overflows,
and nowhere else does anything overflow.

Both limits are far beyond the filters that a converter can run. So an overflow never takes a filter
away: it only takes the place of the report that the filter is too long.
-/

namespace SignalPath.Spec

open Binary64

section

variable {clock sample passband : Float}

/-- The first number that no word holds. -/
def wordEnd : Float := 18446744073709551616.0

/-- The length of a filter overflows: the number of its crossings or its scaled order is cut off. -/
def Overflows (clock sample passband : Float) : Prop :=
  crowdedShare ≤ 2.0 * passband / sample ∨ wordEnd ≤ scaledOrder clock sample passband

instance : Decidable (Overflows clock sample passband) :=
  inferInstanceAs (Decidable (_ ∨ _))

theorem real_wordEnd : real wordEnd = 18446744073709551616 := by
  rw [real_of_unpack (show wordEnd.toModel.unpack =
    .finite .positive 4503599627370496 12 (by decide) from rfl)]
  norm_num

/-- There is no number between the largest word and the end of the words. -/
theorem wordEnd_le_iff {x : Float} (hx : Numeric x) :
    wordEnd ≤ x ↔ largestWord ≤ wholeWord x := by
  have hreaches : largestWord ≤ wholeWord x ↔ AtLeast x (18446744073709551615 : ℕ) := by
    have hwhole := le_toUInt64_iff hx (n := 18446744073709551615) (by decide) le_rfl
    rw [AtLeast, and_iff_right hx, ← hwhole]
    exact le_min_iff.trans (and_iff_left le_rfl)
  rw [hreaches]
  constructor
  · intro hle
    have hext := ext_le_of_le hle
    rw [ext_of_finite (show wordEnd.isFinite = true from rfl), real_wordEnd] at hext
    exact ⟨hx, (EReal.coe_le_coe_iff.mpr (by norm_num)).trans hext⟩
  · intro hlarge
    have hword : Computes wordEnd (18446744073709551615 : ℕ) :=
      computes_toFloat 18446744073709551615
    rcases hlarge.cases with htop | ⟨hfinite, hge⟩
    · rw [le_iff hword.1 hx, htop]
      exact le_top
    · exact hword.le (computes_self hfinite) hge

section

variable (hshare : Inside 0.0 1.0 (2.0 * passband / sample)) (hratio : AtLeast (clock / sample) 1)

include hshare hratio

theorem numeric_scaledOrder : Numeric (scaledOrder clock sample passband) := by
  have hone : real 1.0 ≤ (6 : ℕ) * 1 := by
    rw [real_one]
    norm_num
  exact (atLeast_scaledOrder (by decide) zero_le_one (six_le_crossings hshare) hratio rfl hone).1

theorem derive_of_overflows (h : Overflows clock sample passband) :
    derive clock sample passband = .error .overflow := by
  by_cases hcut : crossings sample passband = registerMax
  · -- An odd number of crossings at the end of the register has no even number after it.
    have horder : order sample passband = .error .overflow := by
      rw [order, hcut]
      rfl
    rw [derive, ofRatio, horder]
    rfl
  · have hlarge := h.resolve_left fun hcrowded => hcut ((crossings_eq_max_iff hshare).mpr hcrowded)
    have hword := (wordEnd_le_iff (numeric_scaledOrder hshare hratio)).mp hlarge
    exact (derive_of_lt (lt_of_le_of_ne crossings_le hcut)).trans (if_neg (not_lt.mpr hword))

theorem derive_of_not_overflows (h : ¬ Overflows clock sample passband) :
    derive clock sample passband = .ok (dimensions clock sample passband) := by
  have hcut : crossings sample passband ≠ registerMax := fun hcut =>
    h (Or.inl ((crossings_eq_max_iff hshare).mp hcut))
  have hword : ¬ largestWord ≤ wholeWord (scaledOrder clock sample passband) := fun hword =>
    h (Or.inr ((wordEnd_le_iff (numeric_scaledOrder hshare hratio)).mpr hword))
  exact (derive_of_lt (lt_of_le_of_ne crossings_le hcut)).trans (if_pos (not_le.mp hword))

/-- A length that overflows is also too long. -/
theorem le_lengthFor_of_overflows (h : Overflows clock sample passband) :
    historySize ≤ lengthFor clock sample passband := by
  rcases h with hcrowded | hlarge
  · have hcut := (crossings_eq_max_iff hshare).mpr hcrowded
    exact le_lengthFor_of_crossings (n := 2147483647) (by decide) zero_le_one hcut.ge hratio
      (by norm_num)
  · have hword := (wordEnd_le_iff (numeric_scaledOrder hshare hratio)).mp hlarge
    have hlargest : largestWord = 18446744073709551615 := rfl
    rw [lengthFor_eq, historySize]
    omega

end

/-- What becomes of a conversion to a lower rate with a passband inside the band. A filter that is
short enough is accepted, with its odd length, and any other is reported as too long unless its
length overflows. -/
theorem outcome_of_passband (hfinite : clock.isFinite = true) (hsample : 0.0 < sample)
    (hle : sample ≤ clock) (hband : 0.0 < passband ∧ passband < sample / 2.0) :
    derive clock sample passband =
        (if Overflows clock sample passband then .error .overflow
        else .ok (dimensions clock sample passband)) ∧
      checked clock sample passband =
        if (dimensions clock sample passband).length < historySize then
          .ok (dimensions clock sample passband)
        else if Overflows clock sample passband then .error .overflow
        else .error (.tooLong (dimensions clock sample passband).length) := by
  have hsample_finite := finite_of_between (float_le_of_lt hsample) hle rfl hfinite
  have hrates : checkRates clock sample = .ok () :=
    checkRates_eq_ok_iff.mpr ⟨float_lt_of_lt_of_le hsample hle, hsample, float_not_lt hle⟩
  have hshare := inside_share hband.1 hband.2 hsample hsample_finite
  have hratio := atLeast_ratio hrates hsample_finite
  by_cases hover : Overflows clock sample passband
  · have hderive := derive_of_overflows hshare hratio hover
    have hlong : ¬ (dimensions clock sample passband).length < historySize :=
      not_lt.mpr (le_lengthFor_of_overflows hshare hratio hover)
    rw [if_pos hover, if_neg hlong, if_pos hover]
    exact ⟨hderive, checked_of_derive_error hrates hband hderive⟩
  · have hderive := derive_of_not_overflows hshare hratio hover
    rw [if_neg hover, if_neg hover]
    exact ⟨hderive, checked_of_derive_ok hrates hband hderive⟩

/-- A filter of three million coefficients, which is reported as too long. -/
theorem outcome_narrow_transition :
    checked 10000000.0 8000.0 3990.0 =
      .error (.tooLong (dimensions 10000000.0 8000.0 3990.0).length) ∧
      (dimensions 10000000.0 8000.0 3990.0).length = 3077501 := by
  have hlength : (dimensions 10000000.0 8000.0 3990.0).length = 3077501 := by decide +kernel
  have hlong : ¬ (dimensions 10000000.0 8000.0 3990.0).length < historySize := by
    rw [hlength]
    decide
  have hover : ¬ Overflows 10000000.0 8000.0 3990.0 := by decide +kernel
  obtain ⟨-, houtcome⟩ := outcome_of_passband (show (10000000.0 : Float).isFinite = true from rfl)
    (show 0.0 < 8000.0 by decide) (by decide) (show 0.0 < 3990.0 ∧ 3990.0 < 8000.0 / 2.0 by decide)
  rw [if_neg hlong, if_neg hover] at houtcome
  exact ⟨houtcome, hlength⟩

/-- A passband next to half the sample rate: its filter is too long, and overflows instead. -/
theorem overflows_next_to_half :
    ((1.0 : Float).isFinite = true ∧ (0.0 : Float) < 1.0 ∧ (1.0 : Float) ≤ 1.0 ∧
        (0.0 : Float) < 0.4999999985667364 ∧ (0.4999999985667364 : Float) < 1.0 / 2.0) ∧
      historySize ≤ (dimensions 1.0 1.0 0.4999999985667364).length ∧
      derive 1.0 1.0 0.4999999985667364 = .error .overflow ∧
      checked 1.0 1.0 0.4999999985667364 = .error .overflow := by
  have hrates : checkRates (1.0 : Float) 1.0 = .ok () := by decide +kernel
  have hband : (0.0 : Float) < 0.4999999985667364 ∧ (0.4999999985667364 : Float) < 1.0 / 2.0 := by
    decide +kernel
  have hshare := inside_share hband.1 hband.2 (by decide) rfl
  have hratio := atLeast_ratio hrates rfl
  have hover : Overflows 1.0 1.0 0.4999999985667364 := by decide +kernel
  have hderive := derive_of_overflows hshare hratio hover
  exact ⟨⟨rfl, by decide, by decide, hband⟩, le_lengthFor_of_overflows hshare hratio hover,
    hderive, checked_of_derive_error hrates hband hderive⟩

/-! ## Ordinary conversions -/

/-- The largest order that has room in its register, scaled by a ratio of `2 ^ 33`. -/
theorem real_largestScaledOrder : real 18446744056529682432.0 = 2147483646 * 8589934592 := by
  rw [real_of_unpack (show (18446744056529682432.0 : Float).toModel.unpack =
    .finite .positive 9007199246352384 11 (by decide) from rfl)]
  norm_num

theorem real_ratioLimit : real 8589934592.0 = 8589934592 := by
  rw [real_of_unpack (show (8589934592.0 : Float).toModel.unpack =
    .finite .positive 4503599627370496 (-19) (by decide) from rfl)]
  norm_num

/-- Nothing overflows if the passband leaves some room below half the sample rate and the ratio of
the rates is at most `2 ^ 33`. -/
theorem not_overflows (hshare : Inside 0.0 1.0 (2.0 * passband / sample))
    (hratio : Inside 1.0 8589934592.0 (clock / sample))
    (hroom : 2.0 * passband / sample < crowdedShare) : ¬ Overflows clock sample passband := by
  have hcut : crossings sample passband ≠ 2147483647 := fun hcut =>
    absurd hroom (float_not_lt ((crossings_eq_max_iff hshare).mp hcut))
  have hmax : crossings sample passband ≤ 2147483647 := crossings_le
  have hsix := six_le_crossings hshare
  obtain ⟨m, hm⟩ : ∃ m : ℕ, crossings sample passband + crossings sample passband % 2 = m :=
    Int.eq_ofNat_of_zero_le (by omega)
  obtain ⟨hfinite, hreal⟩ := real_ofNat (show m < 2 ^ 53 by omega)
  have hm' : (m : ℝ) ≤ 2147483646 := by exact_mod_cast (show m ≤ 2147483646 by omega)
  have hratio_pos := real_le_of_le hratio.ge rfl hratio.finite
  have hratio_le := real_le_of_le hratio.le hratio.finite rfl
  rw [real_one] at hratio_pos
  rw [real_ratioLimit] at hratio_le
  have hscaled : scaledOrder clock sample passband ≤ 18446744056529682432.0 := by
    have hcomputes := computes_mul hfinite hratio.finite
    rw [scaledOrder, hm]
    refine hcomputes.le (computes_self rfl) ?_
    rw [hreal, real_largestScaledOrder]
    exact mul_le_mul hm' hratio_le (by linarith) (by norm_num)
  rintro (hcrowded | hlarge)
  · exact float_not_lt hcrowded hroom
  · exact absurd (float_le_trans hlarge hscaled) (by decide)

end

end SignalPath.Spec
