import SignalPath.Proofs.Lowpass.Crossings
import SignalPath.Proofs.Rate.Planning

/-!
# Which pairs of rates a conversion in two stages accepts

Both stages check a rate that the plan has computed. Where the rate between the stages has a floor
that leaves room for the passband, the first stage accepts it, and the second stage refuses exactly
the rates between the stages that are below the sample rate.
-/

namespace SignalPath

namespace Plan

open Binary64 Rounding

section

variable {clock sample : Float}

/-! ## The rate between the stages -/

theorem smaller_cases {x y : Float} (hy : y.isFinite = true) :
    smaller x y = x ∧ x < y ∨ smaller x y = y := by
  unfold smaller
  by_cases h : x < y
  · rw [if_pos h]
    exact Or.inl ⟨rfl, h⟩
  · have hnumber : isNumber y = true := by
      unfold isNumber
      rw [decide_eq_true_iff]
      exact float_le_refl (numeric_of_finite hy)
    rw [if_neg h, if_pos hnumber]
    exact Or.inr rfl

theorem rateBetween_le_clock (sample : Float) (h : clock.isFinite = true) :
    rateBetween clock sample ≤ clock := by
  rw [rateBetween_eq]
  rcases smaller_cases h with ⟨heq, hlt⟩ | heq
  · rw [heq]
    exact float_le_of_lt hlt
  · rw [heq]
    exact float_le_refl (numeric_of_finite h)

theorem le_rateBetween {r : Float} (h : clock.isFinite = true) (hr : r.isFinite = true)
    (hle : r ≤ clock) (hleast : AtLeast (leastRate clock sample) (real r)) :
    r ≤ rateBetween clock sample := by
  rw [rateBetween_eq]
  rcases smaller_cases (x := leastRate clock sample) h with ⟨heq, -⟩ | heq
  · rw [heq, le_iff (numeric_of_finite hr) hleast.1, ext_of_finite hr]
    exact hleast.2
  · rw [heq]
    exact hle

theorem half_mono {a b : Float} (h : a ≤ b) (ha : a.isFinite = true) (hb : b.isFinite = true) :
    a / 2.0 ≤ b / 2.0 := by
  have htwo : real 2.0 ≠ 0 := by
    rw [real_two]
    norm_num
  refine (computes_div ha rfl htwo).le (computes_div hb rfl htwo) ?_
  rw [real_two]
  linarith [real_le_of_le h ha hb]

/-- A rate that neither the sample rate nor the rate between the stages is below, and that leaves
room for the passband. -/
structure Floor (clock sample floor : Float) : Prop where
  finite : floor.isFinite = true
  pos : 0.0 < floor
  le_sample : floor ≤ sample
  le_between : floor ≤ rateBetween clock sample
  passband_pos : 0.0 < passbandFor sample
  passband_lt : passbandFor sample < floor / 2.0
  lower_finite : (lower sample).isFinite = true
  lower_nonneg : 0 ≤ real (lower sample)
  lower_le : real (lower sample) ≤ 15 / 16 * real floor

section

variable {floor rate : Float}

theorem Floor.between_finite (h : Floor clock sample floor) (hclock : clock.isFinite = true) :
    (rateBetween clock sample).isFinite = true :=
  finite_of_between h.le_between (rateBetween_le_clock sample hclock) h.finite hclock

/-- The passband lies below half of every finite rate that is at least the floor. -/
theorem Floor.inside_band (h : Floor clock sample floor) (hle : floor ≤ rate)
    (hrate : rate.isFinite = true) : 0.0 < passbandFor sample ∧ passbandFor sample < rate / 2.0 :=
  ⟨h.passband_pos, float_lt_of_lt_of_le h.passband_lt (half_mono hle h.finite hrate)⟩

theorem Floor.crossings_lt (h : Floor clock sample floor) (hle : floor ≤ rate)
    (hrate : rate.isFinite = true) : Spec.crossings rate (passbandFor sample) < registerMax := by
  have hfloor := real_pos h.pos h.finite
  have hge := real_le_of_le hle h.finite hrate
  have hshare : real 0.9375 = 15 / 16 := by
    rw [real_of_unpack (show (0.9375 : Float).toModel.unpack =
      .finite .positive 8444249301319680 (-53) (by decide) from rfl)]
    norm_num
  have hcomputes := computes_div h.lower_finite hrate (by linarith)
  refine Spec.crossings_lt ⟨(computes_self rfl).le hcomputes ?_, hcomputes.le (computes_self rfl) ?_,
    rfl, rfl⟩
  · rw [real_zero]
    exact div_nonneg h.lower_nonneg (by linarith)
  · rw [hshare, div_le_iff₀ (by linarith)]
    linarith [h.lower_le]

end

theorem low_passband_inside (h : Downsampling clock sample) (hlow : sample ≤ 44000.0) :
    0.0 < passbandFor sample ∧ passbandFor sample < sample / 2.0 := by
  have hpos := h.real_sample_pos
  obtain ⟨hfinite, hlo, hhi⟩ := low_passband h hlow
  have hcomputes := computes_div h.sample_finite (show (2.0 : Float).isFinite = true from rfl)
    (by rw [real_two]; norm_num)
  rw [real_two] at hcomputes
  have hhalf := hcomputes.finite_of_le h.sample_finite (by linarith) (by linarith)
  obtain ⟨hclose, -⟩ := abs_le.mp (abs_nearest_sub_le_of_large
    (h.large_of_share (show real sample / 16 ≤ real sample / 2 by linarith)))
  refine ⟨pos_of_real_pos hfinite (by linarith), lt_of_real_lt hfinite hhalf ?_⟩
  rw [hcomputes.real_eq hhalf]
  linarith

theorem low_floor (h : Downsampling clock sample) (hlow : sample ≤ 44000.0)
    (hproduct : 0.0 < product clock sample) : Floor clock sample sample where
  finite := h.sample_finite
  pos := pos_of_real_pos h.sample_finite h.real_sample_pos
  le_sample := float_le_refl (numeric_of_finite h.sample_finite)
  le_between := le_rateBetween h.clock_finite h.sample_finite h.sample_le
    (low_leastRate h hlow hproduct)
  passband_pos := (low_passband_inside h hlow).1
  passband_lt := (low_passband_inside h hlow).2
  lower_finite := (low_lower h hlow).1
  lower_nonneg := by
    rw [(low_lower h hlow).2]
    linarith [(low_passband h hlow).2.1, h.real_sample_pos]
  lower_le := by
    rw [(low_lower h hlow).2]
    linarith [(low_passband h hlow).2.2, h.real_sample_pos]

theorem high_floor (h : Downsampling clock sample) (hhigh : 44000.0 < sample) :
    Floor clock sample 44000.0 where
  finite := rfl
  pos := by decide
  le_sample := float_le_of_lt hhigh
  le_between := le_rateBetween h.clock_finite rfl
    (float_le_trans (float_le_of_lt hhigh) h.sample_le) (high_leastRate h hhigh rfl (by
      have hroot := Real.le_sqrt_of_sq_le (le_quotientAbove h hhigh)
      have hshare := pow_le_pow_left₀ (by norm_num)
        (show (9 : ℝ) / 10 ≤ 1 - epsilon by linarith [epsilon_le]) 3
      rw [real_border]
      linarith [mul_le_mul hshare hroot (by norm_num) (pow_pos share_pos 3).le]))
  passband_pos := by
    rw [passbandFor_of_lt hhigh]
    decide
  passband_lt := by
    rw [passbandFor_of_lt hhigh]
    decide
  lower_finite := (high_lower hhigh).1
  lower_nonneg := by
    rw [(high_lower hhigh).2]
    norm_num
  lower_le := by
    rw [(high_lower hhigh).2, real_border]
    norm_num

/-! ## A product that is rounded to zero -/

theorem product_eq_zero (h : Downsampling clock sample) (hlow : sample ≤ 44000.0)
    (hzero : ¬ 0.0 < product clock sample) :
    (product clock sample).isFinite = true ∧ real (product clock sample) = 0 := by
  have hpos := h.real_sample_pos
  obtain ⟨-, hpassband, -⟩ := low_passband h hlow
  obtain ⟨hlower, hdouble⟩ := low_lower h hlow
  obtain ⟨hgap, hgap'⟩ := low_gap h hlow
  have hscaled := computes_mul hlower h.clock_finite
  have hexact : 0 ≤ real (lower sample) * real clock :=
    mul_nonneg (by linarith) (by linarith [h.real_sample_le])
  by_cases htop : ext (lower sample * clock) = ⊤
  · -- An infinite factor would have made the product infinite.
    have hinfinite : AtLeast (lower sample * clock) 1 := ⟨hscaled.1, by rw [htop]; exact le_top⟩
    obtain ⟨hnumeric, hge⟩ := hinfinite.mul zero_le_one hgap
      (show 0 < 0.099 * real sample by linarith) hgap' fun hfinite => by
        rw [ext_of_finite hfinite] at htop
        exact absurd htop (EReal.coe_ne_top _)
    refine absurd ((lt_iff (numeric_of_finite rfl) hnumeric).mpr (lt_of_lt_of_le ?_ hge)) hzero
    rw [ext_of_finite (show (0.0 : Float).isFinite = true from rfl), real_zero,
      EReal.coe_lt_coe_iff]
    linarith
  · have hfinite := ((AtLeast.of_computes hscaled hexact).cases.resolve_left htop)
    have hcomputes := computes_mul hfinite.1 hgap
    have hge := AtLeast.of_computes hcomputes (mul_nonneg hfinite.2 (by linarith))
    have hle := not_lt.mp fun hlt => hzero ((lt_iff (numeric_of_finite rfl) hcomputes.1).mpr hlt)
    exact finite_of_ext hcomputes.1 (le_antisymm hle hge.2)

/-- The rate with the least work is then twice the passband. -/
theorem rateBetween_of_zero (h : Downsampling clock sample) (hlow : sample ≤ 44000.0)
    (hzero : ¬ 0.0 < product clock sample) :
    (rateBetween clock sample).isFinite = true ∧
      real (rateBetween clock sample) = 2 * real (passbandFor sample) := by
  have hpos := h.real_sample_pos
  obtain ⟨-, -, hpassband⟩ := low_passband h hlow
  obtain ⟨hlower, hdouble⟩ := low_lower h hlow
  obtain ⟨hfinite, hreal⟩ := product_eq_zero h hlow hzero
  have hquotient := computes_div hfinite h.sample_finite hpos.ne'
  rw [hreal, zero_div, ← real_zero] at hquotient
  obtain ⟨hfinite', hreal'⟩ := hquotient.eq_real rfl
  rw [real_zero] at hreal'
  have hroot := computes_sqrt hfinite' hreal'.ge
  rw [hreal', Real.sqrt_zero, ← real_zero] at hroot
  obtain ⟨hfinite'', hreal''⟩ := hroot.eq_real rfl
  have hsum := computes_add hlower hfinite''
  rw [hreal'', real_zero, add_zero] at hsum
  obtain ⟨hleast, hleast'⟩ := hsum.eq_real hlower
  have hlt : leastRate clock sample < clock := by
    refine lt_of_real_lt hleast h.clock_finite ?_
    rw [leastRate, hleast', hdouble]
    linarith [h.real_sample_le]
  rw [rateBetween_eq, smaller, if_pos hlt]
  exact ⟨hleast, hleast'.trans hdouble⟩

theorem half_rateBetween_of_zero (h : Downsampling clock sample) (hlow : sample ≤ 44000.0)
    (hzero : ¬ 0.0 < product clock sample) :
    ¬ passbandFor sample < rateBetween clock sample / 2.0 := by
  obtain ⟨hpassband, -, -⟩ := low_passband h hlow
  obtain ⟨hfinite, hreal⟩ := rateBetween_of_zero h hlow hzero
  have hhalf := computes_div hfinite (show (2.0 : Float).isFinite = true from rfl)
    (by rw [real_two]; norm_num)
  rw [real_two, hreal, mul_div_cancel_left₀ _ two_ne_zero] at hhalf
  obtain ⟨hfinite', heq⟩ := hhalf.eq_real hpassband
  intro hlt
  have hlt' := real_lt_of_lt hlt hpassband hfinite'
  rw [heq] at hlt'
  exact lt_irrefl _ hlt'

/-- There is no room for the first filter then. -/
theorem firstSpec_of_zero (h : Downsampling clock sample) (hlow : sample ≤ 44000.0)
    (hzero : ¬ 0.0 < product clock sample) :
    firstSpec clock sample = .error (.rates .passbandOutsideBand) := by
  have hpos := h.real_sample_pos
  obtain ⟨-, hlo, -⟩ := low_passband h hlow
  obtain ⟨hfinite, hreal⟩ := rateBetween_of_zero h hlow hzero
  have hbetween : 0.0 < rateBetween clock sample :=
    pos_of_real_pos hfinite (by rw [hreal]; linarith)
  refine Spec.checked_eq_rates_iff.mpr (Or.inr ⟨?_, rfl, fun hband => ?_⟩)
  · have hle := rateBetween_le_clock sample h.clock_finite
    exact checkRates_eq_ok_iff.mpr
      ⟨float_lt_of_lt_of_le hbetween hle, hbetween, float_not_lt hle⟩
  · exact half_rateBetween_of_zero h hlow hzero hband.2

/-! ## A rate between the stages with a floor -/

section

variable {floor : Float} {e : RateError}

theorem Floor.checkRates_first (h : Downsampling clock sample) (hfloor : Floor clock sample floor) :
    checkRates clock (rateBetween clock sample) = .ok () := by
  have hle := rateBetween_le_clock sample h.clock_finite
  have hpos := float_lt_of_lt_of_le hfloor.pos hfloor.le_between
  exact checkRates_eq_ok_iff.mpr ⟨float_lt_of_lt_of_le hpos hle, hpos, float_not_lt hle⟩

/-- The length alone decides whether the first stage has a filter. -/
theorem Floor.firstSpec_eq_ok_iff (h : Downsampling clock sample)
    (hfloor : Floor clock sample floor) :
    (∃ spec, firstSpec clock sample = .ok spec) ↔
      Spec.lengthFor clock (rateBetween clock sample) (passbandFor sample) < historySize :=
  Spec.checked_eq_ok_iff (hfloor.checkRates_first h)
    (hfloor.inside_band hfloor.le_between (hfloor.between_finite h.clock_finite))
    (hfloor.crossings_lt hfloor.le_between (hfloor.between_finite h.clock_finite))

theorem Floor.firstSpec_ne_rates (h : Downsampling clock sample) (hfloor : Floor clock sample floor) :
    firstSpec clock sample ≠ .error (.rates e) := by
  intro hchecked
  rcases Spec.checked_eq_rates_iff.mp hchecked with herror | ⟨-, -, hband⟩
  · rw [hfloor.checkRates_first h] at herror
    cases herror
  · exact hband (hfloor.inside_band hfloor.le_between (hfloor.between_finite h.clock_finite))

theorem Floor.checkRates_second (hfloor : Floor clock sample floor) :
    checkRates (rateBetween clock sample) sample =
      if rateBetween clock sample < sample then .error .upsampling else .ok () := by
  have hpos := float_lt_of_lt_of_le hfloor.pos hfloor.le_between
  have hpos' := float_lt_of_lt_of_le hfloor.pos hfloor.le_sample
  by_cases hlt : rateBetween clock sample < sample
  · rw [checkRates_eq_upsampling hpos hpos' hlt, if_pos hlt]
  · rw [checkRates_eq_ok_iff.mpr ⟨hpos, hpos', hlt⟩, if_neg hlt]

/-- The second stage has a filter if it does not go upwards and the filter is not too long. -/
theorem Floor.secondSpec_eq_ok_iff (h : Downsampling clock sample)
    (hfloor : Floor clock sample floor) :
    (∃ spec, secondSpec clock sample = .ok spec) ↔
      ¬ rateBetween clock sample < sample ∧
        Spec.lengthFor (rateBetween clock sample) sample (passbandFor sample) < historySize := by
  have hrates := hfloor.checkRates_second
  by_cases hlt : rateBetween clock sample < sample
  · rw [if_pos hlt] at hrates
    refine iff_of_false ?_ fun hnot => hnot.1 hlt
    rintro ⟨spec, hspec⟩
    rw [secondSpec, Spec.checked_eq_rates_iff.mpr (Or.inl hrates)] at hspec
    cases hspec
  · rw [if_neg hlt] at hrates
    rw [secondSpec, Spec.checked_eq_ok_iff hrates (hfloor.inside_band hfloor.le_sample h.sample_finite)
      (hfloor.crossings_lt hfloor.le_sample h.sample_finite)]
    exact ⟨fun hlength => ⟨hlt, hlength⟩, fun hlength => hlength.2⟩

/-- The second stage refuses its rates if they go upwards. -/
theorem Floor.secondSpec_eq_rates_iff (h : Downsampling clock sample)
    (hfloor : Floor clock sample floor) :
    secondSpec clock sample = .error (.rates e) ↔
      e = .upsampling ∧ rateBetween clock sample < sample := by
  rw [secondSpec, Spec.checked_eq_rates_iff, hfloor.checkRates_second]
  by_cases hlt : rateBetween clock sample < sample
  · rw [if_pos hlt]
    constructor
    · rintro (herror | ⟨herror, -⟩)
      · cases herror
        exact ⟨rfl, hlt⟩
      · cases herror
    · rintro ⟨rfl, -⟩
      exact Or.inl rfl
  · rw [if_neg hlt]
    constructor
    · rintro (herror | ⟨-, -, hnot⟩)
      · cases herror
      · exact absurd (hfloor.inside_band hfloor.le_sample h.sample_finite) hnot
    · rintro ⟨-, hlt'⟩
      exact absurd hlt' hlt

end

end

end Plan

namespace TwoStageConverter

open Binary64 Plan Rounding

section

variable {clock sample floor : Float}

theorem checkRates_of_downsampling (h : Downsampling clock sample) :
    checkRates clock sample = .ok () := by
  have hpos : 0.0 < sample := pos_of_real_pos h.sample_finite h.real_sample_pos
  exact checkRates_eq_ok_iff.mpr
    ⟨float_lt_of_lt_of_le hpos h.sample_le, hpos, float_not_lt h.sample_le⟩

/-- Both filters are shorter than what the converters keep of their inputs. -/
def Fits (clock sample : Float) : Prop :=
  Spec.lengthFor clock (rateBetween clock sample) (passbandFor sample) < historySize ∧
    Spec.lengthFor (rateBetween clock sample) sample (passbandFor sample) < historySize

theorem accepted_iff_of_floor (h : Downsampling clock sample) (hfloor : Floor clock sample floor)
    (c : Catalogue) :
    (∃ t, (withCatalogue c clock sample).2 = .ok t) ↔
      ¬ rateBetween clock sample < sample ∧ Fits clock sample := by
  rw [withCatalogue_ok_iff, hfloor.firstSpec_eq_ok_iff h, hfloor.secondSpec_eq_ok_iff h]
  constructor
  · rintro ⟨-, hfirst, hlt, hsecond⟩
    exact ⟨hlt, hfirst, hsecond⟩
  · rintro ⟨hlt, hfirst, hsecond⟩
    exact ⟨checkRates_of_downsampling h, hfirst, hlt, hsecond⟩

/-- With a floor for the rate between the stages only the second stage can refuse the rates. -/
theorem refused_iff_of_floor (h : Downsampling clock sample) (hfloor : Floor clock sample floor)
    (c : Catalogue) (e : RateError) :
    (withCatalogue c clock sample).2 = .error (.rates e) ↔
      e = .upsampling ∧ rateBetween clock sample < sample ∧
        Spec.lengthFor clock (rateBetween clock sample) (passbandFor sample) < historySize := by
  rw [withCatalogue_error_iff, checkRates_of_downsampling h, hfloor.firstSpec_eq_ok_iff h,
    hfloor.secondSpec_eq_rates_iff h]
  constructor
  · rintro (⟨e', herror, -⟩ | ⟨-, hfirst | ⟨hlength, he, hlt⟩⟩)
    · cases herror
    · exact absurd hfirst (hfloor.firstSpec_ne_rates h)
    · exact ⟨he, hlt, hlength⟩
  · rintro ⟨he, hlt, hlength⟩
    exact Or.inr ⟨rfl, Or.inr ⟨hlength, he, hlt⟩⟩

theorem error_iff_of_zero (h : Downsampling clock sample) (hlow : sample ≤ 44000.0)
    (hzero : ¬ 0.0 < product clock sample) (c : Catalogue) (f : SpecFault) :
    (withCatalogue c clock sample).2 = .error f ↔ f = .rates .passbandOutsideBand := by
  rw [withCatalogue_error_iff, checkRates_of_downsampling h, firstSpec_of_zero h hlow hzero]
  constructor
  · rintro (⟨e', herror, -⟩ | ⟨-, hfirst | ⟨⟨spec, hspec⟩, -⟩⟩)
    · cases herror
    · cases hfirst
      rfl
    · cases hspec
  · rintro rfl
    exact Or.inr ⟨rfl, Or.inl rfl⟩

end

/-- What becomes of a pair of rates. A sample rate of up to 44 kHz is refused if the product under
the root is rounded to zero, and a higher one if the clock is too slow for it; otherwise only the
lengths of the filters count. -/
structure Outcome (c : Catalogue) (clock sample : Float) : Prop where
  between_le : rateBetween clock sample ≤ clock
  passband_inside : 0.0 < passbandFor sample ∧ passbandFor sample < sample / 2.0
  passband_lt_iff : passbandFor sample < rateBetween clock sample / 2.0 ↔
    44000.0 < sample ∨ sample ≤ rateBetween clock sample
  low : sample ≤ 44000.0 → (sample ≤ rateBetween clock sample ↔ 0.0 < product clock sample)
  /-- A high sample rate is accepted if the exact root reaches it with six errors to spare. -/
  fast : 44000.0 < sample →
    real sample * (real sample - 40000) ≤ (1 - epsilon) ^ 6 * (40000 * real clock) →
    sample ≤ rateBetween clock sample
  /-- It is refused if the exact root stays below it by thirty errors. -/
  slow : 44000.0 < sample → (product clock sample).isFinite = true →
    (1 + epsilon) ^ 30 * (40000 * real clock) ≤ real sample * (real sample - 40000) →
    rateBetween clock sample < sample
  accepted_iff : (∃ t, (withCatalogue c clock sample).2 = .ok t) ↔
    sample ≤ rateBetween clock sample ∧ Fits clock sample
  refused_iff : ∀ e, (withCatalogue c clock sample).2 = .error (.rates e) ↔
    rateBetween clock sample < sample ∧
      (sample ≤ 44000.0 ∧ e = .passbandOutsideBand ∨
        44000.0 < sample ∧ e = .upsampling ∧
          Spec.lengthFor clock (rateBetween clock sample) 20000.0 < historySize)

section

variable {clock sample : Float}

theorem outcome_high (h : Downsampling clock sample) (hhigh : 44000.0 < sample) (c : Catalogue) :
    Outcome c clock sample := by
  have hfloor := high_floor h hhigh
  have hbetween := hfloor.between_finite h.clock_finite
  have hnot : ¬ sample ≤ 44000.0 := fun hlow => float_not_lt hlow hhigh
  have hlt : ¬ rateBetween clock sample < sample ↔ sample ≤ rateBetween clock sample :=
    float_not_lt_iff (numeric_of_finite hbetween) (numeric_of_finite h.sample_finite)
  refine
    { between_le := rateBetween_le_clock sample h.clock_finite
      passband_inside := hfloor.inside_band hfloor.le_sample h.sample_finite
      passband_lt_iff := iff_of_true (hfloor.inside_band hfloor.le_between hbetween).2 (Or.inl hhigh)
      low := fun hlow => absurd hlow hnot
      fast := fun _ hfast =>
        le_rateBetween h.clock_finite h.sample_finite h.sample_le (leastRate_of_fast h hhigh hfast)
      slow := fun _ hproduct hslow => ?_
      accepted_iff := ?_
      refused_iff := fun e => ?_ }
  · rw [rateBetween_eq, smaller, if_pos (float_lt_of_lt_of_le (leastRate_of_slow h hhigh hproduct
      hslow) h.sample_le)]
    exact leastRate_of_slow h hhigh hproduct hslow
  · rw [accepted_iff_of_floor h hfloor, hlt]
  · rw [refused_iff_of_floor h hfloor, passbandFor_of_lt hhigh]
    constructor
    · rintro ⟨he, hupward, hlength⟩
      exact ⟨hupward, Or.inr ⟨hhigh, he, hlength⟩⟩
    · rintro ⟨hupward, ⟨hlow, -⟩ | ⟨-, he, hlength⟩⟩
      · exact absurd hlow hnot
      · exact ⟨he, hupward, hlength⟩

theorem outcome_low (h : Downsampling clock sample) (hlow : sample ≤ 44000.0)
    (hproduct : 0.0 < product clock sample) (c : Catalogue) : Outcome c clock sample := by
  have hfloor := low_floor h hlow hproduct
  have hbetween := hfloor.between_finite h.clock_finite
  have hnot := float_not_lt hlow
  have hupward := float_not_lt hfloor.le_between
  refine
    { between_le := rateBetween_le_clock sample h.clock_finite
      passband_inside := hfloor.inside_band hfloor.le_sample h.sample_finite
      passband_lt_iff := iff_of_true (hfloor.inside_band hfloor.le_between hbetween).2
        (Or.inr hfloor.le_between)
      low := fun _ => iff_of_true hfloor.le_between hproduct
      fast := fun hhigh => absurd hhigh hnot
      slow := fun hhigh => absurd hhigh hnot
      accepted_iff := ?_
      refused_iff := fun e => ?_ }
  · rw [accepted_iff_of_floor h hfloor]
    exact and_congr_left fun _ => iff_of_true hupward hfloor.le_between
  · rw [refused_iff_of_floor h hfloor]
    exact iff_of_false (fun hrest => hupward hrest.2.1) fun hrest => hupward hrest.1

theorem outcome_zero (h : Downsampling clock sample) (hlow : sample ≤ 44000.0)
    (hzero : ¬ 0.0 < product clock sample) (c : Catalogue) : Outcome c clock sample := by
  have hnot := float_not_lt hlow
  have hpos := h.real_sample_pos
  obtain ⟨hbetween, hreal⟩ := rateBetween_of_zero h hlow hzero
  have hupward : rateBetween clock sample < sample := by
    refine lt_of_real_lt hbetween h.sample_finite ?_
    rw [hreal]
    linarith [(low_passband h hlow).2.2]
  have hle : ¬ sample ≤ rateBetween clock sample := fun hle => float_not_lt hle hupward
  refine
    { between_le := rateBetween_le_clock sample h.clock_finite
      passband_inside := low_passband_inside h hlow
      passband_lt_iff := iff_of_false (half_rateBetween_of_zero h hlow hzero)
        (not_or.mpr ⟨hnot, hle⟩)
      low := fun _ => iff_of_false hle hzero
      fast := fun hhigh => absurd hhigh hnot
      slow := fun hhigh => absurd hhigh hnot
      accepted_iff := ?_
      refused_iff := fun e => ?_ }
  · refine iff_of_false ?_ fun hrest => hle hrest.1
    rintro ⟨t, ht⟩
    rw [(error_iff_of_zero h hlow hzero c _).mpr rfl] at ht
    cases ht
  · rw [error_iff_of_zero h hlow hzero, SpecFault.rates.injEq]
    constructor
    · intro he
      exact ⟨hupward, Or.inl ⟨hlow, he⟩⟩
    · rintro ⟨-, ⟨-, he⟩ | ⟨hhigh, -⟩⟩
      · exact he
      · exact absurd hhigh hnot

theorem outcome_of_downsampling (h : Downsampling clock sample) (c : Catalogue) :
    Outcome c clock sample := by
  by_cases hhigh : 44000.0 < sample
  · exact outcome_high h hhigh c
  · have hlow := (float_not_lt_iff (numeric_of_finite rfl)
      (numeric_of_finite h.sample_finite)).mp hhigh
    by_cases hproduct : 0.0 < product clock sample
    · exact outcome_low h hlow hproduct c
    · exact outcome_zero h hlow hproduct c

theorem downsampling_96000 : Downsampling 96000.0 96000.0 where
  smallest_le := by decide
  sample_le := by decide
  clock_finite := rfl

theorem outcome_96000 :
    Downsampling 96000.0 96000.0 ∧ Outcome .empty 96000.0 96000.0 :=
  ⟨downsampling_96000, outcome_of_downsampling downsampling_96000 .empty⟩

/-- A pair of rates that is no upsampling, and is refused as one. -/
theorem refuses_96000 :
    Downsampling 96000.0 96000.0 ∧ ofRates 96000.0 96000.0 = .error (.rates .upsampling) := by
  refine ⟨downsampling_96000, ?_⟩
  have hfirst : Spec.lengthFor 96000.0 (rateBetween 96000.0 96000.0) (passbandFor 96000.0) <
    historySize := by decide +kernel
  exact (refused_iff_of_floor downsampling_96000
    (high_floor downsampling_96000 (by decide)) _ _).mpr
    ⟨rfl, by decide +kernel, hfirst⟩

end

end TwoStageConverter

end SignalPath
