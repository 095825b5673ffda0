import Mathlib
import SignalPath.Proofs.Lowpass.Continuation
import SignalPath.Proofs.Lowpass.Dimensions

/-!
# Narrower passbands

A narrower passband leaves a wider transition. Its filter needs no more zero crossings, so that it
is no longer, and what does not fail on the way to the length of the longer filter does not fail on
the way to the shorter one. Each rounding on that way keeps the order: the two whole parts, the steps
to the next even and to the next odd number, and the ends of a register and of a word.
-/

namespace SignalPath.Spec

section

variable {α : Type} [Mul α] [Whole α]

/-- An order that is scaled to less has room in a word too, and its filter is no longer. -/
theorem lengthOf_of_le {m n : Int} {ratio : α} {length : { n : Nat // n % 2 = 1 }}
    (hle : wholeWord (ofInt m * ratio) ≤ wholeWord (ofInt n * ratio))
    (h : lengthOf n ratio = .ok length) :
    ∃ shorter, lengthOf m ratio = .ok shorter ∧ shorter.val ≤ length.val := by
  obtain ⟨hlength, hword⟩ := lengthOf_eq_ok_iff.mp h
  refine ⟨⟨(wholeWord (ofInt m * ratio) + 1) / 2 * 2 + 1, by omega⟩,
    lengthOf_eq_ok_iff.mpr ⟨rfl, by omega⟩, ?_⟩
  dsimp only
  omega

variable [Add α] [Sub α] [Div α] [Neg α] [LT α] [DecidableLT α] [OfScientific α]
  {clock sample low high : α}

/-- Fewer crossings have room in their register too, and their order is no larger. -/
theorem order_of_crossings_le {n : Int} (hle : crossings sample low ≤ crossings sample high)
    (h : order sample high = .ok n) :
    ∃ m, order sample low = .ok m ∧ crossings sample low ≤ m ∧ m ≤ n ∧ n ≤ registerMax := by
  obtain ⟨hn, hmax⟩ := order_eq_ok_iff.mp h
  exact ⟨_, order_eq_ok_iff.mpr ⟨rfl, by omega⟩, by omega, by omega, hmax⟩

variable [LE α] [DecidableLE α] [Transcendental α]

theorem derive_of_crossings_le {wide : Spec α}
    (hle : crossings sample low ≤ crossings sample high)
    (hscale : ∀ m n : Int, crossings sample low ≤ m → m ≤ n → n ≤ registerMax →
      wholeWord (ofInt m * (clock / sample)) ≤ wholeWord (ofInt n * (clock / sample)))
    (h : derive clock sample high = .ok wide) :
    ∃ narrow, derive clock sample low = .ok narrow ∧ narrow.phases = wide.phases ∧
      narrow.ratio = wide.ratio ∧ narrow.length ≤ wide.length := by
  obtain ⟨n, horder, h⟩ := bind_eq_ok_iff.mp h
  obtain ⟨length, hlength, h⟩ := bind_eq_ok_iff.mp h
  cases h
  obtain ⟨m, horder', hm, hmn, hn⟩ := order_of_crossings_le hle horder
  obtain ⟨shorter, hshorter, hshorter_le⟩ := lengthOf_of_le (hscale m n hm hmn hn) hlength
  exact ⟨_, bind_eq_ok_iff.mpr ⟨m, horder', bind_eq_ok_iff.mpr ⟨shorter, hshorter, rfl⟩⟩, rfl, rfl,
    hshorter_le⟩

theorem checked_of_crossings_le {wide : Spec α} (hband : 0.0 < low ∧ low < sample / 2.0)
    (hle : crossings sample low ≤ crossings sample high)
    (hscale : ∀ m n : Int, crossings sample low ≤ m → m ≤ n → n ≤ registerMax →
      wholeWord (ofInt m * (clock / sample)) ≤ wholeWord (ofInt n * (clock / sample)))
    (h : checked clock sample high = .ok wide) :
    ∃ narrow, checked clock sample low = .ok narrow ∧ narrow.phases = wide.phases ∧
      narrow.ratio = wide.ratio ∧ narrow.length ≤ wide.length := by
  obtain ⟨hrates, -, hderive, hlength⟩ := checked_eq_ok_iff_derive.mp h
  obtain ⟨narrow, hnarrow, hphases, hratio, hshorter⟩ := derive_of_crossings_le hle hscale hderive
  exact ⟨narrow, checked_eq_ok_iff_derive.mpr
    ⟨hrates, hband, hnarrow, hshorter.trans_lt hlength⟩, hphases, hratio, hshorter⟩

end

/-! ## Exact numbers -/

section

variable {K : Type} [Field K] [LinearOrder K] [IsStrictOrderedRing K] [Whole K]
  (hcast : ∀ i : Int, (ofInt i : K) = i)

include hcast

theorem pi_pos : (0 : K) < pi := by
  rw [pi, hcast, hcast]
  positivity

theorem attenuation_ge : (7.95 : K) ≤ attenuation := by
  rw [attenuation, hcast, hcast]
  norm_num

theorem transition_pos {sample passband : K} (hsample : 0 < sample)
    (hband : passband < sample / 2.0) : 0 < transition sample passband := by
  have hpi : (0 : K) < pi := pi_pos hcast
  have hshare : 2.0 * passband / sample < 1 := by
    rw [div_lt_one hsample]
    linarith
  have hleft : 0 < 1.0 - 2.0 * passband / sample := by linarith
  rw [transition]
  positivity

theorem transition_anti {sample low high : K} (hsample : 0 < sample) (hle : low ≤ high) :
    transition sample high ≤ transition sample low := by
  have hpi : (0 : K) < pi := pi_pos hcast
  have hshare : 2.0 * low / sample ≤ 2.0 * high / sample := by gcongr
  rw [transition, transition]
  gcongr

omit hcast in
theorem truncate_mono (hwhole : Monotone (whole : K → Nat)) {lo hi : Int} {x y : K} (hx : 0 ≤ x)
    (hle : x ≤ y) : truncate lo hi x ≤ truncate lo hi y := by
  have hzero : (0.0 : K) = 0 := by norm_num
  have hmono := hwhole hle
  rw [truncate, truncate, hzero, if_neg (not_lt.mpr hx), if_neg (not_lt.mpr (hx.trans hle))]
  omega

variable (hwhole : Monotone (whole : K → Nat))

include hwhole

theorem crossings_mono {sample low high : K} (hsample : 0 < sample) (hle : low ≤ high)
    (hband : high < sample / 2.0) : crossings sample low ≤ crossings sample high := by
  have hnarrow : 0 < 2.285 * transition sample high :=
    mul_pos (by norm_num) (transition_pos hcast hsample hband)
  have hwide : 2.285 * transition sample high ≤ 2.285 * transition sample low :=
    mul_le_mul_of_nonneg_left (transition_anti hcast hsample hle) (by norm_num)
  have hattenuation : (0 : K) ≤ attenuation - 7.95 := sub_nonneg.mpr (attenuation_ge hcast)
  have hquotient : (attenuation - 7.95) / (2.285 * transition sample low) ≤
      (attenuation - 7.95) / (2.285 * transition sample high) :=
    div_le_div_of_nonneg_left hattenuation hnarrow hwide
  have hnonneg : 0 ≤ (attenuation - 7.95) / (2.285 * transition sample low) :=
    div_nonneg hattenuation (hnarrow.le.trans hwide)
  exact truncate_mono hwhole (by linarith) (by linarith)

theorem wholeWord_mono {m n : Int} {ratio : K} (hratio : 0 ≤ ratio) (hle : m ≤ n) :
    wholeWord (ofInt m * ratio) ≤ wholeWord (ofInt n * ratio) := by
  have hscaled : (ofInt m : K) * ratio ≤ ofInt n * ratio := by
    rw [hcast, hcast]
    exact mul_le_mul_of_nonneg_right (by exact_mod_cast hle) hratio
  have hmono := hwhole hscaled
  rw [wholeWord, wholeWord]
  omega

end

section

variable {K : Type} [Field K] [LinearOrder K] [Whole K] [Transcendental K]

/-- The passbands that there is a filter for. -/
def acceptedPassbands (clock sample : K) : Set K :=
  {passband | ∃ spec, checked clock sample passband = .ok spec}

variable [IsStrictOrderedRing K]

theorem inside_of_checked {clock sample passband : K} {spec : Spec K}
    (h : checked clock sample passband = .ok spec) :
    0 < sample ∧ sample ≤ clock ∧ 0 < passband ∧ passband < sample / 2 := by
  have hzero : (0.0 : K) = 0 := by norm_num
  have htwo : (2.0 : K) = 2 := by norm_num
  obtain ⟨hrates, hband, -⟩ := checked_eq_ok_iff_derive.mp h
  obtain ⟨-, hsample, hclock⟩ := checkRates_eq_ok_iff.mp hrates
  rw [hzero] at hsample
  rw [hzero, htwo] at hband
  exact ⟨hsample, not_lt.mp hclock, hband⟩

section

variable (hcast : ∀ i : Int, (ofInt i : K) = i) (hwhole : Monotone (whole : K → Nat))

include hcast hwhole

theorem checked_of_le {clock sample low high : K} {wide : Spec K} (hlow : 0 < low)
    (hle : low ≤ high) (h : checked clock sample high = .ok wide) :
    ∃ narrow, checked clock sample low = .ok narrow ∧ narrow.phases = wide.phases ∧
      narrow.ratio = wide.ratio ∧ narrow.length ≤ wide.length := by
  obtain ⟨hsample, hclock, -, hhigh⟩ := inside_of_checked h
  have hratio : 0 ≤ clock / sample := div_nonneg (hsample.le.trans hclock) hsample.le
  have hband : (0.0 : K) < low ∧ low < sample / 2.0 := by
    constructor
    · linarith
    · linarith
  exact checked_of_crossings_le hband (crossings_mono hcast hwhole hsample hle (by linarith))
    (fun m n _ hmn _ => wholeWord_mono hcast hwhole hratio hmn) h

/-- A passband that is narrower than an accepted one is accepted too, with the same phases and ratio
and a filter that is no longer. So the accepted passbands are an initial part of those between zero
and half the sample rate. All that is asked of whole parts is that they keep the order. -/
theorem narrower_passband_accepted (clock sample : K) :
    (∀ low high (wide : Spec K), 0 < low → low ≤ high →
      checked clock sample high = .ok wide →
      ∃ narrow, checked clock sample low = .ok narrow ∧ narrow.phases = wide.phases ∧
        narrow.ratio = wide.ratio ∧ narrow.length ≤ wide.length) ∧
    acceptedPassbands clock sample ⊆ Set.Ioo 0 (sample / 2) ∧
    ∀ high ∈ acceptedPassbands clock sample, Set.Ioc 0 high ⊆ acceptedPassbands clock sample := by
  refine ⟨fun low high wide hlow hle h => checked_of_le hcast hwhole hlow hle h, ?_, ?_⟩
  · rintro passband ⟨spec, h⟩
    obtain ⟨-, -, hband⟩ := inside_of_checked h
    exact hband
  · rintro high ⟨wide, h⟩ low ⟨hlow, hle⟩
    obtain ⟨narrow, hnarrow, -⟩ := checked_of_le hcast hwhole hlow hle h
    exact ⟨narrow, hnarrow⟩

end

end

/-! ### From the clock of a PAL machine to 44.1 kHz -/

theorem crossings_pal : crossings (44100 : ℝ) 20000 = 66 := by
  have hdemand : (66 : ℝ) ≤ (attenuation - 7.95) / (2.285 * transition 44100 20000) + 0.5 ∧
      (attenuation - 7.95) / (2.285 * transition 44100 20000) + 0.5 < (67 : ℝ) := by
    simp only [attenuation, transition, pi, ofInt]
    norm_num
  have hwhole : whole ((attenuation - 7.95) / (2.285 * transition 44100 20000) + 0.5 : ℝ) = 66 := by
    refine (Nat.floor_eq_iff (by linarith)).mpr ?_
    exact_mod_cast hdemand
  rw [crossings, truncate, if_neg (by linarith), hwhole]
  rfl

theorem lengthOf_pal : lengthOf 66 (985248 / 44100 : ℝ) = .ok ⟨1475, rfl⟩ := by
  have hwhole : whole (ofInt 66 * (985248 / 44100) : ℝ) = 1474 := by
    simp only [whole, ofInt]
    rw [Nat.floor_eq_iff (by norm_num)]
    norm_num
  have hword : wholeWord (ofInt 66 * (985248 / 44100) : ℝ) = 1474 := by
    rw [wholeWord, hwhole]
    rfl
  simp only [lengthOf, hword]
  rfl

theorem exists_checked_pal :
    ∃ wide, checked (985248 : ℝ) 44100 20000 = .ok wide ∧ wide.length = 1475 := by
  have hrates : checkRates (985248 : ℝ) 44100 = .ok () := by
    rw [checkRates_eq_ok_iff]
    norm_num
  have hband : (0.0 : ℝ) < 20000 ∧ (20000 : ℝ) < 44100 / 2.0 := by norm_num
  have horder : order (44100 : ℝ) 20000 = .ok 66 := by
    simp only [order, crossings_pal]
    rfl
  refine ⟨_, checked_eq_ok_iff_derive.mpr ⟨hrates, hband, bind_eq_ok_iff.mpr
    ⟨66, horder, bind_eq_ok_iff.mpr ⟨_, lengthOf_pal, rfl⟩⟩, ?_⟩, rfl⟩
  decide

theorem narrower_passband_pal :
    (∀ i : Int, (ofInt i : ℝ) = i) ∧ Monotone (whole : ℝ → Nat) ∧
    ∃ wide narrow, checked (985248 : ℝ) 44100 20000 = .ok wide ∧ wide.length = 1475 ∧
      checked (985248 : ℝ) 44100 15000 = .ok narrow ∧ narrow.phases = wide.phases ∧
      narrow.ratio = wide.ratio ∧ narrow.length ≤ 1475 := by
  have hcast : ∀ i : Int, (ofInt i : ℝ) = i := fun _ => rfl
  have hwhole : Monotone (whole : ℝ → Nat) := Nat.floor_mono
  obtain ⟨wide, hwide, hlength⟩ := exists_checked_pal
  obtain ⟨hpair, -⟩ := narrower_passband_accepted hcast hwhole (985248 : ℝ) 44100
  obtain ⟨narrow, hnarrow, hphases, hratio, hshorter⟩ :=
    hpair 15000 20000 wide (by norm_num) (by norm_num) hwide
  exact ⟨hcast, hwhole, wide, narrow, hwide, hlength, hnarrow, hphases, hratio,
    hlength ▸ hshorter⟩

/-! ## Double precision -/

section

open Binary64

variable {clock sample low high ratio : Float}

section

variable (hsample : 0.0 < sample) (hfinite : sample.isFinite = true) (hlow : 0.0 < low)
  (hle : low ≤ high) (hhigh : high < sample / 2.0)

include hsample hfinite hlow hle hhigh

/-- A narrower passband takes no larger share of the band. -/
theorem share_le : 2.0 * low / sample ≤ 2.0 * high / sample := by
  have htwo : (2.0 : Float).isFinite = true := rfl
  have hpos := real_pos hsample hfinite
  obtain ⟨hlow_finite, hlow_double, -⟩ :=
    finite_of_band hlow (float_lt_of_le_of_lt hle hhigh) hsample hfinite
  obtain ⟨hhigh_finite, hhigh_double, -⟩ :=
    finite_of_band (float_lt_of_lt_of_le hlow hle) hhigh hsample hfinite
  have hdouble : 2.0 * low ≤ 2.0 * high :=
    mul_mono_left hle (by decide) hlow_finite hhigh_finite htwo
  exact (computes_div hlow_double hfinite hpos.ne').le (computes_div hhigh_double hfinite hpos.ne')
    (div_le_div_of_nonneg_right (real_le_of_le hdouble hlow_double hhigh_double) hpos.le)

theorem float_crossings_mono : crossings sample low ≤ crossings sample high := by
  have hlow_share := inside_share hlow (float_lt_of_le_of_lt hle hhigh) hsample hfinite
  have hhigh_share := inside_share (float_lt_of_lt_of_le hlow hle) hhigh hsample hfinite
  rcases inside_or_eq_one hhigh_share with hshare | hone
  · have hdemands := (demands_inside hshare demands_zero demands_largestShare).1
    have hinside : Inside 0.0 (2.0 * high / sample) (2.0 * low / sample) :=
      ⟨hlow_share.ge, share_le hsample hfinite hlow hle hhigh, rfl, hhigh_share.finite⟩
    exact ((inside_demand hinside demands_zero hdemands).truncate demand_zero.1).2
  · -- No transition is left for the wider passband, and the number of its crossings is cut off.
    have hcut : crossings sample high = registerMax :=
      (crossings_eq_max_iff hhigh_share).mpr (by
        rw [hone]
        decide)
    rw [hcut]
    exact crossings_le

end

theorem float_wholeWord_mono (hratio : Inside 1.0 4096.0 ratio) {m n : Int} (hm : 0 ≤ m)
    (hmn : m ≤ n) (hn : n ≤ registerMax) :
    wholeWord (ofInt m * ratio) ≤ wholeWord (ofInt n * ratio) := by
  have hmax : registerMax = 2147483647 := rfl
  obtain ⟨m, rfl⟩ := Int.eq_ofNat_of_zero_le hm
  obtain ⟨n, rfl⟩ := Int.eq_ofNat_of_zero_le (hm.trans hmn)
  obtain ⟨hm_finite, hm_real⟩ := real_ofNat (show m < 2 ^ 53 by omega)
  obtain ⟨hn_finite, hn_real⟩ := real_ofNat (show n < 2 ^ 53 by omega)
  obtain ⟨-, hlimit⟩ : (4096.0 : Float).isFinite = true ∧ real 4096.0 = (4096 : ℕ) :=
    real_ofNat (n := 4096) (by decide)
  obtain ⟨hbound_finite, hbound⟩ := real_ofNat (n := 2147483647 * 4096) (by decide)
  have hratio_pos := real_le_of_le hratio.ge rfl hratio.finite
  have hratio_le := real_le_of_le hratio.le hratio.finite rfl
  rw [real_one] at hratio_pos
  rw [hlimit] at hratio_le
  have hm_scaled := computes_mul hm_finite hratio.finite
  have hn_scaled := computes_mul hn_finite hratio.finite
  rw [hm_real] at hm_scaled
  rw [hn_real] at hn_scaled
  have hscaled : (m : ℝ) * real ratio ≤ n * real ratio :=
    mul_le_mul_of_nonneg_right (by exact_mod_cast (show m ≤ n by omega)) (by linarith)
  have hn_le : (n : ℝ) * real ratio ≤ real (Float.ofNat (2147483647 * 4096)) := by
    rw [hbound, Nat.cast_mul]
    exact mul_le_mul (by exact_mod_cast (show n ≤ 2147483647 by omega)) hratio_le (by linarith)
      (Nat.cast_nonneg _)
  have hm_nonneg : 0 ≤ (m : ℝ) * real ratio := mul_nonneg (Nat.cast_nonneg _) (by linarith)
  have hwhole := toUInt64_mono (hm_scaled.le hn_scaled hscaled)
    (hm_scaled.finite_of_le hbound_finite hm_nonneg (hscaled.trans hn_le))
    (hn_scaled.finite_of_le hbound_finite (hm_nonneg.trans hscaled) hn_le)
  exact min_le_min_right _ hwhole

/-- The rounding of each operation keeps the order too, so that the same holds in double
precision. -/
theorem float_checked_of_le {wide : Spec Float} (hfinite : sample.isFinite = true)
    (hlow : 0.0 < low) (hle : low ≤ high) (h : checked clock sample high = .ok wide) :
    ∃ narrow, checked clock sample low = .ok narrow ∧ narrow.phases = wide.phases ∧
      narrow.ratio = wide.ratio ∧ narrow.length ≤ wide.length := by
  obtain ⟨hrates, ⟨-, hhigh⟩, -⟩ := of_checked_eq_ok h
  obtain ⟨-, hsample, -⟩ := bounds_of_checkRates hrates
  have hband := float_lt_of_le_of_lt hle hhigh
  have hsix := six_le_crossings (inside_share hlow hband hsample hfinite)
  exact checked_of_crossings_le ⟨hlow, hband⟩
    (float_crossings_mono hsample hfinite hlow hle hhigh)
    (fun m n hm hmn hn => float_wholeWord_mono (inside_ratio h hfinite) (by omega) hmn hn) h

end

end SignalPath.Spec
