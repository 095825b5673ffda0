import SignalPath.Proofs.Number.Rounding

/-!
# Rounding an unpacked floating-point number

An unpacked number is a sign, a mantissa and an exponent. A mantissa with two residual bits stands
for a real number as far as rounding can depend on it; shifting it to the exponent of the grid and
rounding it there gives the number of the format nearest to the real number.
-/

namespace SignalPath.Rounding

open Float.Model (Format totalExponent)
open Float.Model Float.Model.UnpackedFloat

/-! ## Mantissas with residual bits -/

/-- A mantissa and what is known about the rest stand for the number `x`. -/
def Locates (m : ℕ) : Accuracy → ℝ → Prop
  | .exact, x => x = m
  | .inexact o, x => ((m : ℝ) < x ∧ x < m + 1) ∧ o.Compares x (halfway m)

theorem Locates.le {m : ℕ} {acc : Accuracy} {x : ℝ} (h : Locates m acc x) : (m : ℝ) ≤ x := by
  cases acc with
  | exact => exact h.ge
  | inexact o => exact h.1.1.le

theorem Locates.lt {m : ℕ} {acc : Accuracy} {x : ℝ} (h : Locates m acc x) : x < m + 1 := by
  cases acc with
  | exact =>
    rw [show x = m from h]
    linarith
  | inexact o => exact h.1.2

theorem Locates.floor {m : ℕ} {acc : Accuracy} {x : ℝ} (h : Locates m acc x) : ⌊x⌋ = (m : ℤ) := by
  rw [Int.floor_eq_iff]
  exact ⟨by exact_mod_cast h.le, by exact_mod_cast h.lt⟩

/-- The rounded mantissa is the nearest integer. -/
theorem Locates.rounded {m : ℕ} {acc : Accuracy} {x : ℝ} (h : Locates m acc x) :
    ((acc.roundToNearestEven m : ℕ) : ℤ) = toEven x := by
  have hfloor := h.floor
  have hfract : Int.fract x = x - m := by
    rw [Int.fract, hfloor]
    norm_cast
  unfold toEven
  rw [hfract, hfloor]
  rcases acc with _ | (_ | _ | _)
  · have hx : x = m := h
    rw [if_pos (by rw [hx, sub_self]; norm_num)]
    rfl
  · have hx : x < m + 1 / 2 := h.2
    rw [if_pos (by linarith)]
    rfl
  · have hx : x = m + 1 / 2 := h.2
    rw [if_neg (by linarith), if_neg (by linarith)]
    rfl
  · have hx : (m : ℝ) + 1 / 2 < x := h.2
    rw [if_neg (by linarith), if_pos (by linarith)]
    rfl

/-- With any residual bit set the number lies strictly above its mantissa. -/
theorem Locates.lt_of_rest {m : ℕ} {r s : Bool} {x : ℝ}
    (h : Locates m (ExtendedMantissa.accuracy ⟨m, r, s⟩) x) (hrest : (r || s) = true) :
    (m : ℝ) < x ∧ x < m + 1 := by
  cases r <;> cases s
  · cases hrest
  · exact h.1
  · exact h.1
  · exact h.1

/-- Dropping the last digit of the mantissa halves the number. -/
theorem Locates.shiftRightOne {em : ExtendedMantissa} {x : ℝ}
    (h : Locates em.mantissa em.accuracy x) :
    Locates em.shiftRightOne.mantissa em.shiftRightOne.accuracy (x / 2) := by
  obtain ⟨m, r, s⟩ := em
  have hdigit : (m : ℝ) = 2 * (m / 2 : ℕ) + (m % 2 : ℕ) := by
    exact_mod_cast (Nat.div_add_mod m 2).symm
  rcases Nat.mod_two_eq_zero_or_one m with hm | hm
  · rw [hm, Nat.cast_zero, add_zero] at hdigit
    have hbit : ExtendedMantissa.shiftRightOne ⟨m, r, s⟩ = ⟨m / 2, false, r || s⟩ := by
      simp [ExtendedMantissa.shiftRightOne, hm]
    rw [hbit]
    cases hrest : (r || s) with
    | false =>
      obtain ⟨rfl, rfl⟩ := Bool.or_eq_false_iff.mp hrest
      have hx : x = m := h
      show x / 2 = (m / 2 : ℕ)
      linarith
    | true =>
      have hx := h.lt_of_rest hrest
      exact ⟨⟨by dsimp only; linarith, by dsimp only; linarith⟩,
        show x / 2 < (m / 2 : ℕ) + 1 / 2 by linarith⟩
  · rw [hm, Nat.cast_one] at hdigit
    have hbit : ExtendedMantissa.shiftRightOne ⟨m, r, s⟩ = ⟨m / 2, true, r || s⟩ := by
      simp [ExtendedMantissa.shiftRightOne, hm]
    rw [hbit]
    cases hrest : (r || s) with
    | false =>
      obtain ⟨rfl, rfl⟩ := Bool.or_eq_false_iff.mp hrest
      have hx : x = m := h
      exact ⟨⟨by dsimp only; linarith, by dsimp only; linarith⟩,
        show x / 2 = (m / 2 : ℕ) + 1 / 2 by linarith⟩
    | true =>
      have hx := h.lt_of_rest hrest
      exact ⟨⟨by dsimp only; linarith, by dsimp only; linarith⟩,
        show (m / 2 : ℕ) + 1 / 2 < x / 2 by linarith⟩

/-- Dropping several digits. -/
theorem Locates.shiftRight {em : ExtendedMantissa} {x : ℝ}
    (h : Locates em.mantissa em.accuracy x) (n : ℕ) :
    Locates (em >>> n).mantissa (em >>> n).accuracy (x / 2 ^ n) := by
  show Locates (n.repeat ExtendedMantissa.shiftRightOne em).mantissa
    (n.repeat ExtendedMantissa.shiftRightOne em).accuracy (x / 2 ^ n)
  induction n with
  | zero => simpa [Nat.repeat] using h
  | succ n ih =>
    rw [pow_succ, ← div_div, Nat.repeat]
    exact ih.shiftRightOne

theorem mantissa_shiftRight (em : ExtendedMantissa) (n : ℕ) :
    (em >>> n).mantissa = em.mantissa / 2 ^ n := by
  show (n.repeat ExtendedMantissa.shiftRightOne em).mantissa = em.mantissa / 2 ^ n
  induction n with
  | zero => simp [Nat.repeat]
  | succ n ih =>
    rw [Nat.repeat, ExtendedMantissa.shiftRightOne, ih, Nat.div_div_eq_div_mul, pow_succ]

theorem accuracy_ofMantissaAndAccuracy (m : ℕ) (acc : Accuracy) :
    (ExtendedMantissa.ofMantissaAndAccuracy m acc).mantissa = m ∧
      (ExtendedMantissa.ofMantissaAndAccuracy m acc).accuracy = acc := by
  rcases acc with _ | (_ | _ | _) <;> exact ⟨rfl, rfl⟩

/-! ## Values -/

/-- The exponent is the one that the format asks for, if it is large enough. -/
def Canonical (F : Format) : UnpackedFloat → Prop
  | .finite _ m e _ => e = F.targetExponent (totalExponent m e)
  | _ => True

/-- A finite number in canonical form that is the rounded value of `x`. -/
structure Rounds (F : Format) (u : UnpackedFloat) (x : ℝ) : Prop where
  finite : u.isFinite = true
  canonical : Canonical F u
  value_eq : value u = nearest F x

theorem nearest_signed (F : Format) (s : Sign) (x : ℝ) :
    nearest F (signed s x) = signed s (nearest F x) := by
  cases s with
  | negative => exact nearest_neg
  | positive => rfl

theorem log_eq {x : ℝ} {k : ℤ} (hlo : 2 ^ k ≤ x) (hhi : x < 2 ^ (k + 1)) : Int.log 2 x = k := by
  have hx : 0 < x := (two_zpow_pos k).trans_le hlo
  have hle : k ≤ Int.log 2 x := by
    rw [← Int.zpow_le_iff_le_log (by norm_num) hx]
    exact_mod_cast hlo
  have hlt : Int.log 2 x < k + 1 := by
    rw [← Int.lt_zpow_iff_log_lt (by norm_num) hx]
    exact_mod_cast hhi
  omega

/-- The highest digit of a number is that of its mantissa. -/
theorem Locates.log {m : ℕ} {acc : Accuracy} {x : ℝ} (h : Locates m acc x) (hm : 0 < m) (e : ℤ) :
    Int.log 2 |x * 2 ^ e| = m.log2 + e := by
  have hx : 0 < x := lt_of_lt_of_le (by exact_mod_cast hm) h.le
  rw [abs_of_pos (mul_pos hx (two_zpow_pos e))]
  have hlo : (2 : ℝ) ^ m.log2 ≤ m := by exact_mod_cast Nat.log2_self_le hm.ne'
  have hhi : (m : ℝ) + 1 ≤ 2 ^ (m.log2 + 1) := by exact_mod_cast Nat.lt_log2_self
  apply log_eq
  · rw [zpow_add₀ (by norm_num), zpow_natCast]
    exact mul_le_mul_of_nonneg_right (hlo.trans h.le) (two_zpow_pos e).le
  · rw [add_right_comm, zpow_add₀ (by norm_num), show ((m.log2 : ℤ) + 1) = (m.log2 + 1 : ℕ) by simp,
      zpow_natCast]
    exact mul_lt_mul_of_pos_right (h.lt.trans_le hhi) (two_zpow_pos e)

theorem mantissaBits_pos (F : Format) : 1 < F.mantissaBits := by
  have := F.hm
  unfold Format.mantissaBits
  omega

/-- The exponent that a mantissa is brought to is that of the grid around its number. -/
theorem Locates.targetExponent {F : Format} {m : ℕ} {acc : Accuracy} {x : ℝ} {e : ℤ}
    (h : Locates m acc x) (hx : 0 < x) (he : e ≤ F.targetExponent (totalExponent m e)) :
    F.targetExponent (totalExponent m e) = gridExponent F (x * 2 ^ e) := by
  rcases Nat.eq_zero_or_pos m with rfl | hm
  · -- The number has no digit above the exponent, which is already that of the finest grid.
    have hlog : Int.log 2 |x * 2 ^ e| < e := by
      have hpos : 0 < x * 2 ^ e := mul_pos hx (two_zpow_pos e)
      rw [abs_of_pos hpos, ← Int.lt_zpow_iff_log_lt (by norm_num) hpos]
      have hlt := h.lt
      rw [Nat.cast_zero, zero_add] at hlt
      have := mul_lt_mul_of_pos_right hlt (two_zpow_pos e)
      rw [one_mul] at this
      exact_mod_cast this
    have hbits := mantissaBits_pos F
    have hzero : Nat.log2 0 = 0 := by decide
    simp only [gridExponent, Format.targetExponent, totalExponent, hzero] at he ⊢
    omega
  · rw [gridExponent, h.log hm, totalExponent]
    congr 1
    omega

/-! ## Rounding an unpacked number -/

/-- A mantissa that rounding has carried out of the format is shifted once more, which drops only a
zero; any other stays. -/
theorem shift_settled {F : Format} {r : ℕ} {e : ℤ} (hr : 0 < r) (hle : r ≤ 2 ^ F.mantissaBits)
    (hmin : F.minExponent ≤ e) (hfull : e = F.minExponent ∨ 2 ^ (F.mantissaBits - 1) ≤ r) :
    ∃ k r' : ℕ, (F.targetExponent (totalExponent r e) - e).toNat = k ∧ r = r' * 2 ^ k ∧
      e + k = F.targetExponent (totalExponent r' (e + k)) := by
  have hbits := mantissaBits_pos F
  rcases Nat.lt_or_eq_of_le hle with hlt | rfl
  · have hlog : r.log2 < F.mantissaBits := (Nat.log2_lt hr.ne').mpr hlt
    have htarget : F.targetExponent (totalExponent r e) = e := by
      rw [Format.targetExponent, totalExponent]
      rcases hfull with rfl | hfull
      · omega
      · have hlog' : F.mantissaBits - 1 ≤ r.log2 := (Nat.le_log2 hr.ne').mpr hfull
        omega
    refine ⟨0, r, by omega, by simp, ?_⟩
    rw [Nat.cast_zero, add_zero, htarget]
  · have hlog : (2 ^ F.mantissaBits).log2 = F.mantissaBits := Nat.log2_two_pow
    have hlog' : (2 ^ (F.mantissaBits - 1)).log2 = F.mantissaBits - 1 := Nat.log2_two_pow
    refine ⟨1, 2 ^ (F.mantissaBits - 1), ?_, ?_, ?_⟩
    · rw [Format.targetExponent, totalExponent, hlog]
      omega
    · rw [← pow_add]
      congr 1
      omega
    · rw [Format.targetExponent, totalExponent, hlog']
      push_cast
      omega

/-- The mantissa of a rounded number fills the format or has the smallest exponent. -/
theorem toEven_bounds {F : Format} {x : ℝ} (hx : 0 < x) :
    toEven (x / 2 ^ gridExponent F x) ≤ 2 ^ F.mantissaBits ∧
      (gridExponent F x = F.minExponent ∨
        2 ^ (F.mantissaBits - 1) ≤ toEven (x / 2 ^ gridExponent F x)) := by
  have hpos := two_zpow_pos (gridExponent F x)
  have hlog := log_lt_gridExponent_add (F := F) (x := x)
  rw [abs_of_pos hx] at hlog
  constructor
  · have hlt : x < 2 ^ (gridExponent F x + F.mantissaBits) :=
      lt_two_zpow_log.trans_le (two_zpow_mono (by omega))
    have hdiv : x / 2 ^ gridExponent F x ≤ ((2 ^ F.mantissaBits : ℤ) : ℝ) := by
      rw [div_le_iff₀ hpos]
      push_cast
      rw [← zpow_natCast, ← zpow_add₀ (by norm_num), add_comm]
      exact hlt.le
    have h := toEven_mono hdiv
    rwa [toEven_intCast] at h
  · by_cases hmin : gridExponent F x = F.minExponent
    · exact Or.inl hmin
    · right
      have hgrid : gridExponent F x + (F.mantissaBits - 1 : ℕ) = Int.log 2 x := by
        have hbits := mantissaBits_pos F
        rw [gridExponent, Format.targetExponent, abs_of_pos hx] at hmin ⊢
        omega
      have hdiv : ((2 ^ (F.mantissaBits - 1) : ℤ) : ℝ) ≤ x / 2 ^ gridExponent F x := by
        rw [le_div_iff₀ hpos]
        push_cast
        rw [← zpow_natCast, ← zpow_add₀ (by norm_num), add_comm, hgrid]
        exact two_zpow_log_le hx
      have h := toEven_mono hdiv
      rwa [toEven_intCast] at h

/-- Rounding a located number that has enough digits. -/
theorem roundWithAccuracy_rounds {F : Format} {m : ℕ} {e : ℤ} {acc : Accuracy} {x : ℝ}
    (h : Locates m acc x) (he : e ≤ F.targetExponent (totalExponent m e)) (s : Sign) :
    Rounds F (roundWithAccuracy F s m e acc) (signed s (x * 2 ^ e)) := by
  set n := (F.targetExponent (totalExponent m e) - e).toNat with hn
  set em := ExtendedMantissa.ofMantissaAndAccuracy m acc >>> n with hem
  set r := em.roundedMantissa with hr
  have hlocates : Locates em.mantissa em.accuracy (x / 2 ^ n) := by
    refine Locates.shiftRight ?_ n
    obtain ⟨hmantissa, haccuracy⟩ := accuracy_ofMantissaAndAccuracy m acc
    rwa [hmantissa, haccuracy]
  have hrounded : (r : ℤ) = toEven (x / 2 ^ n) := hlocates.rounded
  have hx : 0 ≤ x := le_trans (Nat.cast_nonneg m) h.le
  have hscale : x / 2 ^ n = x * 2 ^ e / 2 ^ (e + n) := by
    rw [zpow_add₀ (by norm_num), zpow_natCast, mul_comm ((2 : ℝ) ^ e),
      mul_div_mul_right _ _ (two_zpow_pos e).ne']
  have hnearest : nearest F (x * 2 ^ e) = r * 2 ^ (e + n) := by
    rcases hx.eq_or_lt with rfl | hx
    · rw [zero_div, ← Int.cast_zero, toEven_intCast] at hrounded
      have hzero : r = 0 := by exact_mod_cast hrounded
      rw [hzero, zero_mul, nearest_zero, Nat.cast_zero, zero_mul]
    · have hgrid : e + n = gridExponent F (x * 2 ^ e) := by
        rw [← h.targetExponent hx he]
        omega
      rw [nearest, ← hgrid, ← hscale, ← hrounded, Int.cast_natCast]
  have hround : roundWithAccuracy F s m e acc =
      let k := (F.targetExponent (totalExponent r (e + n)) - (e + n)).toNat
      if h : r / 2 ^ k = 0 then .zero s
      else .finite s (r / 2 ^ k) (e + n + k) (Nat.pos_of_ne_zero h) := by
    simp only [roundWithAccuracy, shiftToTargetExponent, shiftToExponent, mantissa_shiftRight]
    rfl
  rw [hround]
  rcases Nat.eq_zero_or_pos r with hzero | hpos
  · simp only [hzero, Nat.zero_div, dite_true]
    refine ⟨rfl, trivial, ?_⟩
    rw [nearest_signed, hnearest, hzero]
    cases s <;> simp [value, signed]
  · have hx : 0 < x := by
      rcases hx.eq_or_lt with rfl | hx
      · rw [zero_div, ← Int.cast_zero, toEven_intCast] at hrounded
        omega
      · exact hx
    have hgrid : e + n = gridExponent F (x * 2 ^ e) := by
      rw [← h.targetExponent hx he]
      omega
    obtain ⟨hle, hfull⟩ := toEven_bounds (F := F) (mul_pos hx (two_zpow_pos e))
    rw [← hgrid, ← hscale, ← hrounded] at hle hfull
    obtain ⟨k, r', hk, hshift, hcanonical⟩ := shift_settled hpos (by exact_mod_cast hle)
      (by rw [hgrid]; exact minExponent_le_gridExponent) (hfull.imp id fun h => by exact_mod_cast h)
    have hdiv : r / 2 ^ k = r' := by
      rw [hshift, Nat.mul_div_cancel _ (by positivity)]
    have hr' : r' ≠ 0 := by
      rintro rfl
      rw [Nat.zero_mul] at hshift
      omega
    simp only [hk, hdiv, dif_neg hr']
    refine ⟨rfl, hcanonical, ?_⟩
    rw [nearest_signed, hnearest, value]
    congr 1
    rw [hshift, zpow_add₀ (by norm_num) (e + n), zpow_natCast]
    push_cast
    ring

/-- A located number whose highest digit is known to lie high enough has enough digits. -/
theorem Locates.le_targetExponent {F : Format} {m : ℕ} {e t : ℤ} {acc : Accuracy} {x : ℝ}
    (h : Locates m acc x) (hx : 0 < x) (ht : t ≤ Int.log 2 |x * 2 ^ e| + 1)
    (he : e ≤ F.targetExponent t) : e ≤ F.targetExponent (totalExponent m e) := by
  have hbits := mantissaBits_pos F
  rcases Nat.eq_zero_or_pos m with rfl | hm
  · have hlog : Int.log 2 |x * 2 ^ e| < e := by
      have hpos : 0 < x * 2 ^ e := mul_pos hx (two_zpow_pos e)
      rw [abs_of_pos hpos, ← Int.lt_zpow_iff_log_lt (by norm_num) hpos]
      have hlt := h.lt
      rw [Nat.cast_zero, zero_add] at hlt
      have := mul_lt_mul_of_pos_right hlt (two_zpow_pos e)
      rw [one_mul] at this
      exact_mod_cast this
    simp only [Format.targetExponent] at he ⊢
    omega
  · rw [h.log hm] at ht
    simp only [Format.targetExponent, totalExponent] at he ⊢
    omega

theorem locates_exact (m : ℕ) : Locates m .exact m := rfl

theorem decreaseExponent_value (m : ℕ) (e t : ℤ) :
    ((decreaseExponent m e t).1 : ℝ) * 2 ^ (decreaseExponent m e t).2 = m * 2 ^ e := by
  rw [decreaseExponent, Nat.shiftLeft_eq]
  push_cast
  rw [mul_assoc, ← zpow_natCast, ← zpow_add₀ (by norm_num), add_sub_cancel]

/-- Rounding any finite number. -/
theorem round_rounds (F : Format) (s : Sign) {m : ℕ} (hm : 0 < m) (e : ℤ) :
    Rounds F (UnpackedFloat.round F s m e) (signed s (m * 2 ^ e)) := by
  set t := F.targetExponent (totalExponent m e) with ht
  have hlog : ((decreaseExponent m e t).1).log2 = m.log2 + (e - t).toNat := by
    rw [decreaseExponent, Nat.shiftLeft_eq, Nat.log2_eq_iff (by positivity), pow_add, pow_succ,
      pow_add]
    have hlo := Nat.log2_self_le hm.ne'
    have hhi : m < 2 ^ (m.log2 + 1) := Nat.lt_log2_self
    rw [pow_succ] at hhi
    constructor
    · exact Nat.mul_le_mul_right _ hlo
    · calc m * 2 ^ (e - t).toNat < 2 ^ m.log2 * 2 * 2 ^ (e - t).toNat :=
          Nat.mul_lt_mul_of_pos_right hhi (by positivity)
        _ = 2 ^ m.log2 * 2 ^ (e - t).toNat * 2 := by ring
  have htotal : totalExponent (decreaseExponent m e t).1 (decreaseExponent m e t).2 =
      totalExponent m e := by
    rw [totalExponent, hlog, totalExponent, decreaseExponent]
    push_cast
    ring
  have hvalue := decreaseExponent_value m e t
  rw [← hvalue]
  show Rounds F (roundWithAccuracy F s (decreaseExponent m e t).1 (decreaseExponent m e t).2 .exact) _
  refine roundWithAccuracy_rounds (locates_exact _) ?_ s
  rw [htotal, ← ht]
  show e - ((e - t).toNat : ℤ) ≤ t
  omega

/-- Rounding a number whose mantissa has a sign. -/
theorem normalize_rounds (F : Format) (m e : ℤ) (s : Sign) :
    Rounds F (normalize F m e s) (m * 2 ^ e) := by
  unfold UnpackedFloat.normalize
  rcases lt_trichotomy m 0 with hneg | rfl | hpos
  · rw [compare_lt_iff_lt.mpr hneg]
    have h := round_rounds F .negative (m := (-m).toNat) (by omega) e
    have hcast : (((-m).toNat : ℕ) : ℝ) = -m := by
      exact_mod_cast Int.toNat_of_nonneg (by omega : 0 ≤ -m)
    rw [hcast, signed] at h
    rwa [neg_mul, neg_neg] at h
  · rw [compare_eq_iff_eq.mpr rfl]
    refine ⟨rfl, trivial, ?_⟩
    show (0 : ℝ) = _
    rw [Int.cast_zero, zero_mul, nearest_zero]
  · rw [compare_gt_iff_gt.mpr hpos]
    have h := round_rounds F .positive (m := m.toNat) (by omega) e
    have hcast : ((m.toNat : ℕ) : ℝ) = m := by
      exact_mod_cast Int.toNat_of_nonneg hpos.le
    rwa [hcast, signed] at h

end SignalPath.Rounding
