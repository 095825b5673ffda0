import SignalPath.Proofs.Number.Unpacked

/-!
# Operations on unpacked floating-point numbers

Every operation on finite numbers computes the exact result as far as rounding can depend on it, and
rounds once: its value is the exact result rounded to the format. Comparison is that of the values,
and the conversion to an integer drops the fraction.
-/

namespace SignalPath.Rounding

open Float.Model (Format totalExponent)
open Float.Model Float.Model.UnpackedFloat

section

variable {F : Format} {a b : UnpackedFloat}

/-- A canonical number is its own rounded value. -/
theorem Canonical.nearest_value (h : Canonical F a) : nearest F (value a) = value a := by
  cases a with
  | finite s m e hm =>
    have hx : (0 : ℝ) < m := by exact_mod_cast hm
    have hgrid := (locates_exact m).targetExponent hx (e := e) (F := F) h.le
    rw [value, nearest_signed]
    congr 1
    refine nearest_of_grid (n := m) ?_
    rw [← hgrid, ← show e = _ from h, Int.cast_natCast]
  | infinity s => exact nearest_zero
  | notANumber => exact nearest_zero
  | zero s => exact nearest_zero

theorem Canonical.rounds (h : Canonical F a) (hfinite : a.isFinite = true) :
    Rounds F a (value a) := ⟨hfinite, h, h.nearest_value.symm⟩

theorem rounds_zero (s : Sign) : Rounds F (.zero s) 0 := ⟨rfl, trivial, nearest_zero.symm⟩

@[simp]
theorem value_neg (a : UnpackedFloat) : value a.neg = -value a := by
  cases a with
  | finite s m e hm =>
    cases s with
    | negative => exact (neg_neg _).symm
    | positive => rfl
  | infinity s => simp [UnpackedFloat.neg, value]
  | notANumber => simp [UnpackedFloat.neg, value]
  | zero s => simp [UnpackedFloat.neg, value]

theorem Canonical.neg (h : Canonical F a) : Canonical F a.neg := by
  cases a <;> exact h

/-- The mantissas of two numbers brought to a common exponent. -/
theorem apply_decreaseExponent (s : Sign) (m : ℕ) {e t : ℤ} (ht : t ≤ e) :
    ((s.apply (decreaseExponent m e t).1 : ℤ) : ℝ) * 2 ^ t = signed s (m * 2 ^ e) := by
  have hexponent : (decreaseExponent m e t).2 = t := by
    rw [decreaseExponent]
    dsimp only
    omega
  have hvalue := decreaseExponent_value m e t
  rw [hexponent] at hvalue
  rw [← hvalue]
  cases s with
  | negative => simp [Sign.apply, signed]
  | positive => simp [Sign.apply, signed]

/-- A sum is the exact sum rounded. -/
theorem add_rounds (ha : Canonical F a) (hb : Canonical F b) (ha' : a.isFinite = true)
    (hb' : b.isFinite = true) : Rounds F (UnpackedFloat.add F a b) (value a + value b) := by
  cases a with
  | infinity s => cases ha'
  | notANumber => cases ha'
  | zero s =>
    rw [show value (.zero s) = 0 from rfl, zero_add]
    cases b with
    | infinity t => cases hb'
    | notANumber => cases hb'
    | zero t =>
      cases s <;> cases t <;> exact rounds_zero _
    | finite t n f hn => exact hb.rounds rfl
  | finite s m e hm =>
    cases b with
    | infinity t => cases hb'
    | notANumber => cases hb'
    | zero t =>
      rw [show value (.zero t) = 0 from rfl, add_zero]
      exact ha.rounds rfl
    | finite t n f hn =>
      rw [value, value, ← apply_decreaseExponent s m (min_le_left e f),
        ← apply_decreaseExponent t n (min_le_right e f), ← add_mul, ← Int.cast_add]
      exact normalize_rounds F _ _ .positive

/-- A difference is the exact difference rounded. -/
theorem sub_rounds (ha : Canonical F a) (hb : Canonical F b) (ha' : a.isFinite = true)
    (hb' : b.isFinite = true) : Rounds F (UnpackedFloat.sub F a b) (value a - value b) := by
  cases a with
  | infinity s => cases ha'
  | notANumber => cases ha'
  | zero s =>
    rw [show value (.zero s) = 0 from rfl, zero_sub]
    cases b with
    | infinity t => cases hb'
    | notANumber => cases hb'
    | zero t =>
      rw [show value (.zero t) = 0 from rfl, neg_zero]
      cases s <;> cases t <;> exact rounds_zero _
    | finite t n f hn =>
      rw [← value_neg]
      exact hb.neg.rounds rfl
  | finite s m e hm =>
    cases b with
    | infinity t => cases hb'
    | notANumber => cases hb'
    | zero t =>
      rw [show value (.zero t) = 0 from rfl, sub_zero]
      exact ha.rounds rfl
    | finite t n f hn =>
      rw [value, value, ← apply_decreaseExponent s m (min_le_left e f),
        ← apply_decreaseExponent t n (min_le_right e f), ← sub_mul, ← Int.cast_sub]
      exact normalize_rounds F _ _ .positive

/-- What the exponent of a canonical number tells about its mantissa. -/
theorem Canonical.log {s : Sign} {m : ℕ} {e : ℤ} {hm : 0 < m} (h : Canonical F (.finite s m e hm)) :
    F.minExponent ≤ e ∧ m.log2 < F.mantissaBits ∧
      (e = F.minExponent ∨ m.log2 + 1 = F.mantissaBits) := by
  have h' : e = max ((m.log2 : ℤ) + 1 + e - F.mantissaBits) F.minExponent := h
  omega

/-- Doubling a canonical number is exact. -/
theorem Canonical.nearest_two_mul (h : Canonical F a) :
    nearest F (2 * value a) = 2 * value a := by
  cases a with
  | finite s m e hm =>
    obtain ⟨he, hlog, -⟩ := h.log
    have hdigits : |(m : ℤ)| < 2 ^ F.mantissaBits := by
      rw [Nat.abs_cast]
      exact_mod_cast (Nat.log2_lt hm.ne').mp hlog
    have hdouble : 2 * value (.finite s m e hm) = signed s ((m : ℤ) * 2 ^ (e + 1)) := by
      have hpow : (2 : ℝ) ^ (e + 1) = 2 * 2 ^ e := by
        rw [zpow_add_one₀ (by norm_num), mul_comm]
      rw [value, hpow]
      cases s <;> simp only [signed, Int.cast_natCast] <;> ring
    rw [hdouble, nearest_signed, nearest_of_digits (by omega) hdigits]
  | infinity s => exact (congrArg _ (mul_zero 2)).trans (nearest_zero.trans (mul_zero 2).symm)
  | notANumber => exact (congrArg _ (mul_zero 2)).trans (nearest_zero.trans (mul_zero 2).symm)
  | zero s => exact (congrArg _ (mul_zero 2)).trans (nearest_zero.trans (mul_zero 2).symm)

theorem minExponent_nonpos (F : Format) : F.minExponent ≤ 0 := by
  have hbits := mantissaBits_pos F
  have hpow : (1 : ℤ) ≤ 2 ^ (F.exponentBits - 1) := one_le_pow₀ (by norm_num)
  rw [Format.minExponent]
  omega

theorem signed_mul (s t : Sign) (x y : ℝ) : signed (s * t) (x * y) = signed s x * signed t y := by
  cases s with
  | negative =>
    cases t with
    | negative => exact (neg_mul_neg x y).symm
    | positive => exact (neg_mul x y).symm
  | positive =>
    cases t with
    | negative => exact (mul_neg x y).symm
    | positive => rfl

/-- A product is the exact product rounded. -/
theorem mul_rounds (ha : Canonical F a) (hb : Canonical F b) (ha' : a.isFinite = true)
    (hb' : b.isFinite = true) : Rounds F (UnpackedFloat.mul F a b) (value a * value b) := by
  cases a with
  | infinity s => cases ha'
  | notANumber => cases ha'
  | zero s =>
    rw [show value (.zero s) = 0 from rfl, zero_mul]
    cases b with
    | infinity t => cases hb'
    | notANumber => cases hb'
    | zero t => exact rounds_zero _
    | finite t n f hn => exact rounds_zero _
  | finite s m e hm =>
    cases b with
    | infinity t => cases hb'
    | notANumber => cases hb'
    | zero t =>
      rw [show value (.zero t) = 0 from rfl, mul_zero]
      exact rounds_zero _
    | finite t n f hn =>
      obtain ⟨he, -, hm'⟩ := ha.log
      obtain ⟨hf, -, hn'⟩ := hb.log
      have hnonpos := minExponent_nonpos F
      have hlog : m.log2 + n.log2 ≤ (m * n).log2 := by
        rw [Nat.le_log2 (by positivity), pow_add]
        exact Nat.mul_le_mul (Nat.log2_self_le hm.ne') (Nat.log2_self_le hn.ne')
      have hdigits : e + f ≤ F.targetExponent (totalExponent (m * n) (e + f)) := by
        rw [Format.targetExponent, totalExponent]
        omega
      have hvalue : value (.finite s m e hm) * value (.finite t n f hn) =
          signed (s * t) ((m * n : ℕ) * 2 ^ (e + f)) := by
        rw [value, value, ← signed_mul, zpow_add₀ (by norm_num)]
        congr 1
        push_cast
        ring
      rw [hvalue]
      exact roundWithAccuracy_rounds (locates_exact _) hdigits _

/-- A quotient of naturals with what its remainder tells. -/
theorem locates_div (n : ℕ) {d : ℕ} (hd : 0 < d) :
    Locates (n / d) (accuracyOfFraction (n % d) d) ((n : ℝ) / d) := by
  have hd' : (0 : ℝ) < d := by exact_mod_cast hd
  have hsplit : (n : ℝ) = (n / d : ℕ) * d + (n % d : ℕ) := by
    exact_mod_cast (Nat.div_add_mod' n d).symm
  have hlt : ((n % d : ℕ) : ℝ) < d := by exact_mod_cast Nat.mod_lt n hd
  rw [accuracyOfFraction]
  split_ifs with hzero
  · rw [hzero, Nat.cast_zero, add_zero] at hsplit
    show (n : ℝ) / d = (n / d : ℕ)
    rw [div_eq_iff hd'.ne']
    exact hsplit
  · have hpos : (0 : ℝ) < (n % d : ℕ) := by exact_mod_cast Nat.pos_of_ne_zero hzero
    refine ⟨⟨?_, ?_⟩, ?_⟩
    · rw [lt_div_iff₀ hd']
      linarith
    · rw [div_lt_iff₀ hd']
      linarith
    · rcases lt_trichotomy (2 * (n % d)) d with h | h | h
      · rw [compare_lt_iff_lt.mpr h]
        have h' : 2 * ((n % d : ℕ) : ℝ) < d := by exact_mod_cast h
        show (n : ℝ) / d < (n / d : ℕ) + 1 / 2
        rw [div_lt_iff₀ hd']
        linarith
      · rw [compare_eq_iff_eq.mpr h]
        have h' : 2 * ((n % d : ℕ) : ℝ) = d := by exact_mod_cast h
        show (n : ℝ) / d = (n / d : ℕ) + 1 / 2
        rw [div_eq_iff hd'.ne']
        linarith
      · rw [compare_gt_iff_gt.mpr h]
        have h' : (d : ℝ) < 2 * ((n % d : ℕ) : ℝ) := by exact_mod_cast h
        show ((n / d : ℕ) : ℝ) + 1 / 2 < (n : ℝ) / d
        rw [lt_div_iff₀ hd']
        linarith

/-- The bounds of a number by its highest digit. -/
theorem two_zpow_totalExponent {m : ℕ} (hm : 0 < m) (e : ℤ) :
    (2 : ℝ) ^ (totalExponent m e - 1) ≤ m * 2 ^ e ∧ (m : ℝ) * 2 ^ e < 2 ^ totalExponent m e := by
  have hpos : (0 : ℝ) < m * 2 ^ e := mul_pos (by exact_mod_cast hm) (two_zpow_pos e)
  have hlog := (locates_exact m).log hm e
  rw [abs_of_pos hpos] at hlog
  have hlo := two_zpow_log_le hpos
  have hhi := lt_two_zpow_log (x := (m : ℝ) * 2 ^ e)
  rw [hlog] at hlo hhi
  have htotal : totalExponent m e = m.log2 + e + 1 := by
    rw [totalExponent]
    ring
  rw [htotal, add_sub_cancel_right]
  exact ⟨hlo, hhi⟩

theorem signed_div (s t : Sign) (x y : ℝ) : signed (s / t) (x / y) = signed s x / signed t y := by
  cases s with
  | negative =>
    cases t with
    | negative => exact (neg_div_neg_eq x y).symm
    | positive => exact (neg_div y x).symm
  | positive =>
    cases t with
    | negative => exact (div_neg x).symm
    | positive => rfl

/-- A quotient is the exact quotient rounded. -/
theorem div_rounds (ha' : a.isFinite = true) (hb' : b.isFinite = true) (hb : value b ≠ 0) :
    Rounds F (UnpackedFloat.div F a b) (value a / value b) := by
  cases b with
  | infinity t => cases hb'
  | notANumber => cases hb'
  | zero t => exact absurd rfl hb
  | finite t n f hn =>
    cases a with
    | infinity s => cases ha'
    | notANumber => cases ha'
    | zero s =>
      rw [show value (.zero s) = 0 from rfl, zero_div]
      exact rounds_zero _
    | finite s m e hm =>
      set target := min (e - f) (F.targetExponent (totalExponent m e - totalExponent n f))
        with htarget
      set k := (e - f - target).toNat with hk
      have hlocates := locates_div (m <<< k) hn
      have hn' : (0 : ℝ) < n := by exact_mod_cast hn
      have hvalue : ((m <<< k : ℕ) : ℝ) / n * 2 ^ target = m * 2 ^ e / (n * 2 ^ f) := by
        have hexponent : (k : ℤ) + target = e - f := by omega
        rw [Nat.shiftLeft_eq, Nat.cast_mul, Nat.cast_pow, Nat.cast_ofNat, ← zpow_natCast,
          div_mul_eq_mul_div, mul_assoc, ← zpow_add₀ (by norm_num), hexponent,
          zpow_sub₀ (by norm_num), mul_div_assoc', div_div, mul_comm ((2 : ℝ) ^ f)]
      have hx : 0 < ((m <<< k : ℕ) : ℝ) / n := by
        refine div_pos ?_ hn'
        rw [Nat.shiftLeft_eq]
        positivity
      -- The highest digits of the operands give that of the quotient, up to one place.
      have hlog : totalExponent m e - totalExponent n f ≤
          Int.log 2 |((m <<< k : ℕ) : ℝ) / n * 2 ^ target| + 1 := by
        have hpos : 0 < ((m <<< k : ℕ) : ℝ) / n * 2 ^ target := mul_pos hx (two_zpow_pos _)
        have hle : totalExponent m e - totalExponent n f - 1 ≤
            Int.log 2 (((m <<< k : ℕ) : ℝ) / n * 2 ^ target) := by
          rw [← Int.zpow_le_iff_le_log (by norm_num) hpos, hvalue, Nat.cast_ofNat,
            sub_right_comm, zpow_sub₀ (by norm_num)]
          exact div_le_div₀ (mul_pos (by exact_mod_cast hm) (two_zpow_pos e)).le
            (two_zpow_totalExponent hm e).1 (mul_pos hn' (two_zpow_pos f))
            (two_zpow_totalExponent hn f).2.le
        rw [abs_of_pos hpos]
        omega
      rw [value, value, ← signed_div, ← hvalue]
      exact roundWithAccuracy_rounds hlocates
        (hlocates.le_targetExponent hx hlog (min_le_right _ _)) _

/-- A square root of a natural number with what its remainder tells. -/
theorem locates_sqrt (n : ℕ) :
    Locates n.sqrt
      (if n - n.sqrt * n.sqrt = 0 then .exact
        else .inexact (if n - n.sqrt * n.sqrt ≤ n.sqrt then .lt else .gt)) √n := by
  have hlo : n.sqrt * n.sqrt ≤ n := Nat.sqrt_le n
  have hhi : n < (n.sqrt + 1) * (n.sqrt + 1) := Nat.lt_succ_sqrt n
  generalize n.sqrt = r at hlo hhi
  have hr : (0 : ℝ) ≤ r := Nat.cast_nonneg r
  have hbelow : (r : ℝ) ≤ √n := by
    rw [Real.le_sqrt hr (Nat.cast_nonneg n), pow_two]
    exact_mod_cast hlo
  have habove : √(n : ℝ) < r + 1 := by
    rw [Real.sqrt_lt' (by positivity), pow_two]
    exact_mod_cast hhi
  split_ifs with hzero hle
  · have hsq : (n : ℝ) = r * r := by exact_mod_cast (by omega : n = r * r)
    show √(n : ℝ) = r
    rw [hsq, Real.sqrt_mul_self hr]
  · refine ⟨⟨lt_of_le_of_ne hbelow ?_, habove⟩, ?_⟩
    · intro h
      have hsq : (r : ℝ) * r = n := by
        rw [h, Real.mul_self_sqrt (Nat.cast_nonneg n)]
      have : r * r = n := by exact_mod_cast hsq
      omega
    · have hsq : (n : ℝ) ≤ r * r + r := by exact_mod_cast (by omega : n ≤ r * r + r)
      show √(n : ℝ) < r + 1 / 2
      rw [Real.sqrt_lt' (by positivity)]
      linarith [show ((r : ℝ) + 1 / 2) ^ 2 = r * r + r + 1 / 4 by ring]
  · have hsq : (r : ℝ) * r + r + 1 ≤ n := by exact_mod_cast (by omega : r * r + r + 1 ≤ n)
    have hhalf : (r : ℝ) + 1 / 2 < √n := by
      rw [Real.lt_sqrt (by positivity)]
      linarith [show ((r : ℝ) + 1 / 2) ^ 2 = r * r + r + 1 / 4 by ring]
    exact ⟨⟨by linarith, habove⟩, hhalf⟩

/-- A square root is the exact root rounded. -/
theorem sqrt_rounds (ha' : a.isFinite = true) (ha : 0 ≤ value a) :
    Rounds F (UnpackedFloat.sqrt F a) √(value a) := by
  cases a with
  | infinity s => cases ha'
  | notANumber => cases ha'
  | zero s =>
    rw [show value (.zero s) = 0 from rfl, Real.sqrt_zero]
    exact rounds_zero s
  | finite s m e hm =>
    have hpos : (0 : ℝ) < m * 2 ^ e := mul_pos (by exact_mod_cast hm) (two_zpow_pos e)
    cases s with
    | negative =>
      have hneg : value (.finite .negative m e hm) = -(m * 2 ^ e) := rfl
      linarith
    | positive =>
      set target := min (e / 2) (F.targetExponent ((totalExponent m e + 1) / 2)) with htarget
      set k := (e - 2 * target).toNat with hk
      have hlocates := locates_sqrt (m <<< k)
      have hvalue : √((m <<< k : ℕ) : ℝ) * 2 ^ target = √(m * 2 ^ e) := by
        have hsplit : (m : ℝ) * 2 ^ e = (m <<< k : ℕ) * (2 ^ target) ^ 2 := by
          have hexponent : e = k + (target + target) := by omega
          conv_lhs => rw [hexponent]
          rw [Nat.shiftLeft_eq, Nat.cast_mul, Nat.cast_pow, Nat.cast_ofNat,
            zpow_add₀ (by norm_num), zpow_add₀ (by norm_num), zpow_natCast]
          ring
        rw [hsplit, Real.sqrt_mul (Nat.cast_nonneg _), Real.sqrt_sq (two_zpow_pos target).le]
      have hx : 0 < √((m <<< k : ℕ) : ℝ) := by
        rw [Real.sqrt_pos, Nat.shiftLeft_eq]
        positivity
      have hlog : (totalExponent m e + 1) / 2 ≤
          Int.log 2 |√((m <<< k : ℕ) : ℝ) * 2 ^ target| + 1 := by
        have hroot : 0 < √((m <<< k : ℕ) : ℝ) * 2 ^ target := mul_pos hx (two_zpow_pos _)
        have hle : (totalExponent m e + 1) / 2 - 1 ≤
            Int.log 2 (√((m <<< k : ℕ) : ℝ) * 2 ^ target) := by
          rw [← Int.zpow_le_iff_le_log (by norm_num) hroot, hvalue, Nat.cast_ofNat,
            Real.le_sqrt' (two_zpow_pos _), ← zpow_natCast, ← zpow_mul]
          exact (two_zpow_mono (by omega)).trans (two_zpow_totalExponent hm e).1
        rw [abs_of_pos hroot]
        omega
      rw [show value (.finite .positive m e hm) = m * 2 ^ e from rfl, ← hvalue]
      exact roundWithAccuracy_rounds hlocates
        (hlocates.le_targetExponent hx hlog (min_le_right _ _)) .positive

end

end SignalPath.Rounding
