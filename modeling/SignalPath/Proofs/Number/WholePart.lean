import SignalPath.Number.Whole
import SignalPath.Proofs.Number.Bounds

/-!
# Whole parts of floating-point numbers

A whole part reaches a whole number exactly if the number does, also where it saturates: an infinite
number reaches all of them. In the other direction every whole number of up to 53 binary digits is a
floating-point number, and the numbers below 1 stay away from it by one unit of the last digit.
-/

namespace SignalPath.Binary64

open Float.Model.Format (binary64)
open Rounding

section

variable {a b : Float} {n : ℕ}

theorem le_toUInt64_iff (ha : Numeric a) (hn : 0 < n) (hn' : n ≤ 18446744073709551615) :
    n ≤ a.toUInt64.toNat ↔ ((n : ℝ) : EReal) ≤ ext a := by
  by_cases hfinite : a.isFinite = true
  · rw [toUInt64_toNat hfinite, ext_of_finite hfinite, EReal.coe_le_coe_iff, le_min_iff,
      Nat.le_floor_iff' hn.ne']
    exact and_iff_left hn'
  · have hword : a.toUInt64.toNat =
        (UInt64.ofNatClamp (a.toModel.unpack.toInt 0 (UInt64.size - 1)).toNat).toNat := rfl
    rw [hword]
    unfold Numeric at ha
    unfold ext
    have hfinite' : ¬ a.toModel.unpack.isFinite = true := hfinite
    cases hu : a.toModel.unpack with
    | infinity s =>
      cases s with
      | positive => exact iff_of_true hn' le_top
      | negative => exact iff_of_false (Nat.not_le_of_lt hn) (not_le.mpr (EReal.bot_lt_coe _))
    | notANumber => exact absurd hu ha
    | zero s =>
      rw [hu] at hfinite'
      exact absurd rfl hfinite'
    | finite s m e hm =>
      rw [hu] at hfinite'
      exact absurd rfl hfinite'

/-- A whole number that fits the register is reached by a truncated number exactly if the number
itself reaches it. -/
theorem le_truncate_iff (ha : Numeric a) (hn : 0 < n) (hn' : (n : ℤ) ≤ registerMax) :
    (n : ℤ) ≤ truncate registerMin registerMax a ↔ ((n : ℝ) : EReal) ≤ ext a := by
  have hmax : registerMax = 2147483647 := rfl
  have hmin : registerMin = -2147483648 := rfl
  have hpos : (0 : EReal) < ((n : ℝ) : EReal) := by exact_mod_cast hn
  unfold truncate
  split_ifs with hneg
  · have hext := ext_lt_of_lt hneg
    rw [ext_of_finite (show (0.0 : Float).isFinite = true from rfl), real_zero] at hext
    exact iff_of_false (by omega) (not_le.mpr (hext.trans hpos))
  · have hwhole := le_toUInt64_iff ha hn (by omega)
    rw [← hwhole]
    show _ ≤ min _ ((a.toUInt64.toNat : ℕ) : ℤ) ↔ _
    omega

theorem truncate_le (a : Float) : truncate registerMin registerMax a ≤ registerMax := by
  have hmax : registerMax = 2147483647 := rfl
  have hmin : registerMin = -2147483648 := rfl
  unfold truncate
  split
  · omega
  · omega

theorem truncate_of_nonneg (h : 0.0 ≤ a) :
    truncate registerMin registerMax a = min registerMax (a.toUInt64.toNat : ℤ) :=
  if_neg (float_not_lt h)

theorem Inside.truncate {lo hi : Float} (h : Inside lo hi a) (hlo : 0.0 ≤ lo) :
    truncate registerMin registerMax lo ≤ truncate registerMin registerMax a ∧
      truncate registerMin registerMax a ≤ truncate registerMin registerMax hi := by
  have hbelow := toUInt64_mono h.ge h.lo_finite h.finite
  have habove := toUInt64_mono h.le h.finite h.hi_finite
  have hnonneg := float_le_trans hlo h.ge
  rw [truncate_of_nonneg hlo, truncate_of_nonneg hnonneg,
    truncate_of_nonneg (float_le_trans hnonneg h.le)]
  omega

/-- What is not a number has no whole part. -/
theorem truncate_of_not_numeric (h : ¬ Numeric a) : truncate registerMin registerMax a = 0 := by
  have hnan : a.toModel.unpack = .notANumber := not_not.mp h
  have hword : a.toUInt64.toNat = 0 := by
    show (UInt64.ofNatClamp (a.toModel.unpack.toInt 0 (UInt64.size - 1)).toNat).toNat = 0
    rw [hnan]
    rfl
  unfold truncate
  rw [if_neg fun hneg => h (numeric_of_lt hneg).1]
  show min registerMax ((a.toUInt64.toNat : ℕ) : ℤ) = 0
  rw [hword]
  rfl

/-- A result that needs no rounding and is below the limit of the format is exact. -/
theorem Computes.exact {x : ℝ} (h : Computes a x) (hexact : nearest binary64 x = x)
    (hlimit : |x| < limit binary64) : a.isFinite = true ∧ real a = x := by
  refine finite_of_ext h.1 ?_
  rw [h.2, result_of_lt (by rwa [hexact]), hexact]

theorem nearest_natCast (hn : n < 2 ^ 53) : nearest binary64 n = n := by
  have h := nearest_of_digits (F := binary64) (n := n) (e := 0) (by decide) (by
    rw [Nat.abs_cast]
    exact_mod_cast hn)
  simpa using h

theorem natCast_lt_limit (hn : n < 2 ^ 53) : |(n : ℝ)| < limit binary64 := by
  have hdigits : (n : ℝ) < 2 ^ (53 : ℤ) := by exact_mod_cast hn
  rw [Nat.abs_cast, limit]
  exact hdigits.trans_le (two_zpow_mono (by decide))

theorem computes_toFloat (w : UInt64) : Computes w.toFloat w.toNat := by
  have hrounds := normalize_rounds binary64 w.toNat 0 .positive
  rw [zpow_zero, mul_one, Int.cast_natCast] at hrounds
  exact hrounds.unpack_pack (by decide)

/-- A whole number of up to 53 binary digits is a floating-point number. -/
theorem real_ofNat (hn : n < 2 ^ 53) :
    (Float.ofNat n).isFinite = true ∧ real (Float.ofNat n) = n := by
  have hproduct : Float.ofNat n = (Nat.toUInt64 n).toFloat * 1.0 := dif_pos ⟨hn, by decide⟩
  have hword : (Nat.toUInt64 n).toNat = n := UInt64.toNat_ofNat_of_lt' (by
    rw [UInt64.size]
    omega)
  have hcomputes := computes_toFloat (Nat.toUInt64 n)
  rw [hword] at hcomputes
  obtain ⟨hfinite, hreal⟩ := hcomputes.exact (nearest_natCast hn) (natCast_lt_limit hn)
  have hscaled := computes_mul hfinite (show (1.0 : Float).isFinite = true from rfl)
  rw [hreal, real_one, mul_one] at hscaled
  rw [hproduct]
  exact hscaled.exact (nearest_natCast hn) (natCast_lt_limit hn)

/-- A positive number is determined by its value. -/
theorem eq_of_real_eq (hpos : 0 < real a) (h : real a = real b) : a = b := by
  obtain ⟨m, e, hm, hu⟩ := unpack_of_pos hpos
  obtain ⟨m', e', hm', hu'⟩ := unpack_of_pos (h ▸ hpos)
  have hcanonical := canonical_toModel a
  have hcanonical' := canonical_toModel b
  rw [real_of_unpack hu, real_of_unpack hu'] at h
  rw [hu] at hcanonical
  rw [hu'] at hcanonical'
  obtain ⟨he, hm⟩ := Ordering.then_eq_eq.mp
    ((compares_magnitude hcanonical hcanonical').eq_eq.mpr h)
  have hunpack : a.toModel.unpack = b.toModel.unpack := by
    rw [hu, hu']
    exact finite_congr (compare_eq_iff_eq.mp hm) (compare_eq_iff_eq.mp he)
  have hbits : a.toModel.toBits.toBitVec = b.toModel.toBits.toBitVec := by
    rw [← Float.Model.UnpackedFloat.pack_unpack_of_valid a.toModel.valid,
      ← Float.Model.UnpackedFloat.pack_unpack_of_valid b.toModel.valid]
    exact congrArg _ hunpack
  cases a with | ofModel a =>
  cases b with | ofModel b =>
  cases a
  cases b
  congr
  exact UInt64.toBitVec_inj.mp hbits

/-- From a half on the numbers are multiples of the unit of the last digit below 1. -/
theorem exists_mul_epsilon (h : 1 / 2 ≤ real a) : ∃ k : ℕ, real a = k * epsilon := by
  obtain ⟨m, e, hm, hu⟩ := unpack_of_pos (by linarith)
  have hcanonical := canonical_toModel a
  rw [hu] at hcanonical
  have hdigits : m < 2 ^ 53 := (Nat.log2_lt hm.ne').mp hcanonical.log.2.1
  rw [real_of_unpack hu] at h ⊢
  have hexponent : -53 ≤ e := by
    by_contra hfar
    have hm' : (m : ℝ) < 2 ^ 53 := by exact_mod_cast hdigits
    have hsmall := two_zpow_mono (show e ≤ -54 by omega)
    have hproduct := mul_lt_mul hm' hsmall (two_zpow_pos e) (by positivity)
    norm_num at hproduct
    linarith
  obtain ⟨j, hj⟩ : ∃ j : ℕ, e = j + -53 := ⟨(e + 53).toNat, by omega⟩
  refine ⟨m * 2 ^ j, ?_⟩
  rw [epsilon, hj, zpow_add₀ (by norm_num), zpow_natCast, Nat.cast_mul, Nat.cast_pow,
    Nat.cast_ofNat, mul_assoc]

theorem mul_epsilon_le_sub {k l : ℕ} (h : k * epsilon < l * epsilon) :
    k * epsilon ≤ l * epsilon - epsilon := by
  have hlt : k < l := by exact_mod_cast lt_of_mul_lt_mul_right h epsilon_pos.le
  have hsucc : (k : ℝ) + 1 ≤ l := by exact_mod_cast hlt
  linarith [mul_le_mul_of_nonneg_right hsucc epsilon_pos.le]

/-- A number below another one, which is above a half, is at least that unit away from it. -/
theorem real_le_sub_epsilon (hb : 1 / 2 < real b) (h : real a < real b) :
    real a ≤ real b - epsilon := by
  obtain ⟨l, hl⟩ := exists_mul_epsilon hb.le
  rcases le_or_gt (1 / 2) (real a) with hge | hlt
  · obtain ⟨k, hk⟩ := exists_mul_epsilon hge
    rw [hk, hl] at h ⊢
    exact mul_epsilon_le_sub h
  · have hhalf : (1 : ℝ) / 2 = (2 ^ 52 : ℕ) * epsilon := by
      rw [epsilon]
      norm_num
    rw [hhalf, hl] at hb
    rw [hl]
    exact (hlt.trans_eq hhalf).le.trans (mul_epsilon_le_sub hb)

/-- A number below 1 is at least one unit of the last digit away from it. -/
theorem real_le_of_lt_one (h : real a < 1) : real a ≤ 1 - epsilon := by
  rw [← real_one] at h ⊢
  exact real_le_sub_epsilon (by rw [real_one]; norm_num) h

end

end SignalPath.Binary64
