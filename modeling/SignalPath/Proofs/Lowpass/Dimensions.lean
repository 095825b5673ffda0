import SignalPath.Proofs.Lowpass.Crossings
import SignalPath.Proofs.Rate.Refusal
import SignalPath.Proofs.Rate.Register

/-!
# The dimensions of an accepted filter

Only the length of a filter is checked against what a converter keeps. That also bounds the ratio of
the rates: however wide the transition is, the filter has at least six zero crossings for each
output sample, so that a large ratio makes it too long.
-/

namespace SignalPath.Spec

open Binary64

section

variable {clock sample passband : Float} {spec : Spec Float}

theorem derive_eq_ok (h : derive clock sample passband = .ok spec) :
    spec.length = lengthFor clock sample passband ∧ spec.phases = phasesOf (clock / sample) := by
  obtain ⟨n, horder, h⟩ := bind_eq_ok_iff.mp h
  obtain ⟨length, hlength, h⟩ := bind_eq_ok_iff.mp h
  cases h
  refine ⟨?_, rfl⟩
  rw [lengthFor, ← (order_eq_ok_iff.mp horder).1]
  exact (lengthOf_eq_ok_iff.mp hlength).1

/-- An accepted specification has the length and the number of phases for its rates. -/
theorem of_checked_eq_ok (h : checked clock sample passband = .ok spec) :
    checkRates clock sample = .ok () ∧ (0.0 < passband ∧ passband < sample / 2.0) ∧
      (spec.length = lengthFor clock sample passband ∧ spec.length < historySize) ∧
      spec.phases = phasesOf (clock / sample) := by
  obtain ⟨hrates, hband, hderive, hlength⟩ := checked_eq_ok_iff_derive.mp h
  obtain ⟨hlengthFor, hphases⟩ := derive_eq_ok hderive
  exact ⟨hrates, hband, ⟨hlengthFor, hlength⟩, hphases⟩

/-! ## The ratio of the rates -/

/-- The scaled order reaches every number that the exact bounds of its factors reach. -/
theorem atLeast_scaledOrder {n : ℕ} {limit : Float} {x : ℝ} (hn : 0 < n) (hx : 0 ≤ x)
    (hcrossings : (n : ℤ) ≤ crossings sample passband) (hratio : AtLeast (clock / sample) x)
    (hlimit : limit.isFinite = true) (h : real limit ≤ n * x) :
    AtLeast (scaledOrder clock sample passband) (real limit) := by
  have hmax : crossings sample passband ≤ 2147483647 := crossings_le
  obtain ⟨m, hm⟩ : ∃ m : ℕ, crossings sample passband + crossings sample passband % 2 = m :=
    Int.eq_ofNat_of_zero_le (by omega)
  obtain ⟨hfinite, hreal⟩ := real_ofNat (show m < 2 ^ 53 by omega)
  have hnm : (n : ℝ) ≤ m := by exact_mod_cast (show (n : ℤ) ≤ m by omega)
  have hn' : (0 : ℝ) < n := by exact_mod_cast hn
  have hm' : 0 < real (Float.ofNat m) := hreal ▸ hn'.trans_le hnm
  rw [scaledOrder, hm]
  refine hratio.left_mul_of_finite (b := Float.ofNat m) hm' fun hfinite' hge => ?_
  refine (computes_mul hfinite hfinite').reaches hlimit ?_
  rw [hreal]
  exact h.trans (mul_le_mul hnm hge hx (hn'.le.trans hnm))

/-- Many crossings or a large ratio make a filter too long. -/
theorem le_lengthFor_of_crossings {n : ℕ} {x : ℝ} (hn : 0 < n) (hx : 0 ≤ x)
    (hcrossings : (n : ℤ) ≤ crossings sample passband) (hratio : AtLeast (clock / sample) x)
    (h : 16384 ≤ n * x) : historySize ≤ lengthFor clock sample passband := by
  obtain ⟨hlimit, hlimit'⟩ :
      (16384.0 : Float).isFinite = true ∧ real 16384.0 = (16384 : ℕ) :=
    real_ofNat (n := 16384) (by decide)
  have hproduct := atLeast_scaledOrder hn hx hcrossings hratio hlimit (by
    rw [hlimit', Nat.cast_ofNat]
    exact h)
  rw [hlimit'] at hproduct
  have hword : 16384 ≤ whole (scaledOrder clock sample passband) :=
    (le_toUInt64_iff hproduct.1 (by decide) (by decide)).mpr hproduct.2
  have hlargest : largestWord = 18446744073709551615 := rfl
  rw [lengthFor_eq, wholeWord, historySize]
  omega

/-- A ratio of 4096 makes every filter too long. -/
theorem le_lengthFor (h : Inside 0.0 1.0 (2.0 * passband / sample))
    (hratio : AtLeast (clock / sample) 4096) : historySize ≤ lengthFor clock sample passband :=
  le_lengthFor_of_crossings (n := 6) (by decide) (by norm_num) (six_le_crossings h) hratio
    (by norm_num)

/-- The ratio of accepted rates is below 4096. -/
theorem inside_ratio (h : checked clock sample passband = .ok spec)
    (hfinite : sample.isFinite = true) : Inside 1.0 4096.0 (clock / sample) := by
  obtain ⟨hrates, ⟨hpassband, hband⟩, ⟨hlength, hlength_lt⟩, -⟩ := of_checked_eq_ok h
  obtain ⟨-, hsample, -⟩ := bounds_of_checkRates hrates
  have hshare := inside_share hpassband hband hsample hfinite
  have hone := atLeast_ratio hrates hfinite
  obtain ⟨hlimit, hlimit'⟩ : (4096.0 : Float).isFinite = true ∧ real 4096.0 = (4096 : ℕ) :=
    real_ofNat (n := 4096) (by decide)
  have hlt : ext (clock / sample) < ext 4096.0 := by
    by_contra hge
    rw [ext_of_finite hlimit, hlimit', Nat.cast_ofNat, not_lt] at hge
    have := le_lengthFor hshare ⟨hone.1, hge⟩
    omega
  refine ⟨?_, float_le_of_lt ((lt_iff hone.1 (numeric_of_finite hlimit)).mpr hlt), rfl, hlimit⟩
  rw [le_iff (numeric_of_finite rfl) hone.1, ext_of_finite rfl, real_one]
  exact hone.2

/-- There is no filter down from an infinite rate to a finite one. -/
theorem clock_finite (h : checked clock sample passband = .ok spec)
    (hfinite : sample.isFinite = true) : clock.isFinite = true := by
  obtain ⟨hrates, -⟩ := of_checked_eq_ok h
  obtain ⟨-, hsample, -⟩ := bounds_of_checkRates hrates
  exact (atLeast_clock hrates hfinite).finite_of_div (real_pos hsample hfinite)
    (inside_ratio h hfinite).finite

/-- The step of accepted rates has at most 22 bits. -/
theorem stepOf_bounds (h : checked clock sample passband = .ok spec)
    (hfinite : sample.isFinite = true) :
    1024 ≤ Phase.stepOf (Ratio.of clock sample) ∧
      Phase.stepOf (Ratio.of clock sample) ≤ 4194304 := by
  refine ⟨le_stepOf (of_checked_eq_ok h).1 hfinite, ?_⟩
  have hunits := (inside_ratio h hfinite).mul_const (c := 1024.0) (by decide) rfl
    (by decide) (by decide)
  exact (hunits.truncate (by decide)).2.trans (by decide)

/-- Accepted rates need at most 285 phases. -/
theorem phases_le (h : checked clock sample passband = .ok spec)
    (hfinite : sample.isFinite = true) : spec.phases ≤ 285 := by
  have hquotient := (inside_ratio h hfinite).const_div
    (c := Transcendental.sqrt ((1.234 : Float) * 65536.0)) (by decide +kernel) (by decide +kernel)
    (by decide) (by decide +kernel) (by decide +kernel)
  have hwhole := toUInt64_mono hquotient.le hquotient.finite hquotient.hi_finite
  have hbound : whole (Transcendental.sqrt ((1.234 : Float) * 65536.0) / (clock / sample)) ≤ 284 :=
    hwhole.trans (by decide +kernel)
  rw [(of_checked_eq_ok h).2.2.2]
  unfold phasesOf roundUp
  dsimp only
  split
  · omega
  · omega

/-- For infinite rates there is one phase, since their ratio is not a number. -/
theorem phases_of_infinite (h : checked clock sample passband = .ok spec)
    (hfinite : ¬ sample.isFinite = true) : spec.phases = 1 := by
  obtain ⟨hrates, -, -, hphases⟩ := of_checked_eq_ok h
  have hratio : clock / sample = .ofModel (.pack .notANumber) := by
    rw [← toModel_ratio hrates hfinite]
  rw [hphases, hratio]
  decide +kernel

end

end SignalPath.Spec
