import SignalPath.Proofs.Number.Binary64

/-!
# Lower bounds on floating-point results

A bound from below on the operands of a chain of operations gives one on its result, and infinite
results need no exception: they are above every bound. As long as nothing has been rounded to zero a
single operation loses at most a third, even next to the smallest numbers, so a comparison with that
much room holds for all numbers.
-/

namespace SignalPath.Binary64

open Float.Model (Format)
open Float.Model.Format (binary64)
open Rounding

/-- A number that is at least `x`, and may be infinite. -/
def AtLeast (a : Float) (x : ℝ) : Prop := Numeric a ∧ (x : EReal) ≤ ext a

section

variable {a b : Float} {x y : ℝ}

theorem AtLeast.mono (h : AtLeast a y) (hxy : x ≤ y) : AtLeast a x :=
  ⟨h.1, (EReal.coe_le_coe_iff.mpr hxy).trans h.2⟩

theorem real_of_unpack {m : ℕ} {e : ℤ} {hm : 0 < m}
    (h : a.toModel.unpack = .finite .positive m e hm) : real a = m * 2 ^ e := by
  rw [real, h]
  rfl

@[simp]
theorem real_one : real 1.0 = 1 := by
  rw [real_of_unpack (show (1.0 : Float).toModel.unpack =
    .finite .positive 4503599627370496 (-52) (by decide) from rfl)]
  norm_num

@[simp]
theorem real_two : real 2.0 = 2 := by
  rw [real_of_unpack (show (2.0 : Float).toModel.unpack =
    .finite .positive 4503599627370496 (-51) (by decide) from rfl)]
  norm_num

theorem AtLeast.real_le (h : AtLeast a x) (ha : a.isFinite = true) : x ≤ real a := by
  have hle := h.2
  rwa [ext_of_finite ha, EReal.coe_le_coe_iff] at hle

/-- A number with a lower bound is infinite or finite. -/
theorem AtLeast.cases (h : AtLeast a x) : ext a = ⊤ ∨ a.isFinite = true ∧ x ≤ real a := by
  by_cases htop : ext a = ⊤
  · exact Or.inl htop
  · have hbot : ext a ≠ ⊥ := ne_bot_of_le_ne_bot (EReal.coe_ne_bot x) h.2
    obtain ⟨y, hy⟩ : ∃ y : ℝ, ext a = (y : ℝ) := by
      lift ext a to ℝ using ⟨htop, hbot⟩ with y
      exact ⟨y, rfl⟩
    have hfinite := (finite_of_ext h.1 hy).1
    exact Or.inr ⟨hfinite, h.real_le hfinite⟩

theorem unpack_of_ext_eq_top (h : ext a = ⊤) : a.toModel.unpack = .infinity .positive := by
  unfold ext at h
  cases hu : a.toModel.unpack with
  | infinity s =>
    rw [hu] at h
    cases s with
    | positive => rfl
    | negative => exact absurd h bot_ne_top
  | notANumber =>
    rw [hu] at h
    exact absurd h (EReal.coe_ne_top _)
  | zero s =>
    rw [hu] at h
    exact absurd h (EReal.coe_ne_top _)
  | finite s m e hm =>
    rw [hu] at h
    exact absurd h (EReal.coe_ne_top _)

theorem unpack_of_pos (hb : 0 < real b) : ∃ m e hm, b.toModel.unpack = .finite .positive m e hm := by
  unfold real at hb
  cases hu : b.toModel.unpack with
  | infinity s =>
    rw [hu] at hb
    exact absurd hb (lt_irrefl _)
  | notANumber =>
    rw [hu] at hb
    exact absurd hb (lt_irrefl _)
  | zero s =>
    rw [hu] at hb
    exact absurd hb (lt_irrefl _)
  | finite s m e hm =>
    rw [hu] at hb
    cases s with
    | positive => exact ⟨m, e, hm, rfl⟩
    | negative =>
      have hpos := magnitude_pos m e hm
      have hneg : value (.finite .negative m e hm) = -(m * 2 ^ e) := rfl
      linarith

/-- A result that is packed as an infinity. -/
theorem atLeast_of_infinity (h : a.toModel = Float.Model.pack (.infinity .positive)) (x : ℝ) :
    AtLeast a x := by
  have hunpack : a.toModel.unpack = .infinity .positive := by
    rw [h]
    exact unpack_packedInfinity (F := binary64) .positive
  refine ⟨by unfold Numeric; rw [hunpack]; simp, ?_⟩
  unfold ext
  rw [hunpack]
  exact le_top

/-- A result reaches every number that the exact value reaches. -/
theorem Computes.reaches {c : Float} (h : Computes a x) (hc : c.isFinite = true)
    (hx : real c ≤ x) : AtLeast a (real c) := by
  refine ⟨h.1, ?_⟩
  rw [← ext_of_finite hc]
  exact ext_le_of_le ((computes_self hc).le h hx)

/-- Rounding to something at all keeps two thirds of a result. -/
theorem Computes.atLeast (h : Computes a x) (hx : 0 ≤ x) (hne : ext a ≠ 0) :
    AtLeast a (2 / 3 * x) := by
  refine ⟨h.1, ?_⟩
  rw [h.2, result] at hne ⊢
  split_ifs at hne ⊢ with htop hbot
  · exact le_top
  · have hnonneg := nearest_nonneg (F := binary64) hx
    have hlimit := limit_pos binary64
    linarith
  · refine EReal.coe_le_coe_iff.mpr (two_thirds_le_nearest hx fun hzero => hne ?_)
    rw [hzero]
    rfl

/-! An infinite operand makes a result infinite, so that bounds on results need a proof for finite
operands only. -/

theorem AtLeast.mul_of_finite {z : ℝ} (ha : AtLeast a x) (hb : 0 < real b)
    (h : a.isFinite = true → x ≤ real a → AtLeast (a * b) z) : AtLeast (a * b) z := by
  rcases ha.cases with htop | ⟨hfinite, hle⟩
  · refine atLeast_of_infinity ?_ _
    obtain ⟨m, e, hm, hu⟩ := unpack_of_pos hb
    show Float.Model.pack (Float.Model.UnpackedFloat.mul binary64 _ _) = _
    rw [unpack_of_ext_eq_top htop, hu]
    rfl
  · exact h hfinite hle

theorem AtLeast.left_mul_of_finite {z : ℝ} (ha : AtLeast a x) (hb : 0 < real b)
    (h : a.isFinite = true → x ≤ real a → AtLeast (b * a) z) : AtLeast (b * a) z := by
  rcases ha.cases with htop | ⟨hfinite, hle⟩
  · refine atLeast_of_infinity ?_ _
    obtain ⟨m, e, hm, hu⟩ := unpack_of_pos hb
    show Float.Model.pack (Float.Model.UnpackedFloat.mul binary64 _ _) = _
    rw [unpack_of_ext_eq_top htop, hu]
    rfl
  · exact h hfinite hle

/-- An operand is finite if the result is, and if an infinite operand would make the result exceed
every bound. -/
theorem finite_of_result {c : Float} (hc : c.isFinite = true)
    (h : ∀ z : ℝ, (a.isFinite = true → x ≤ real a → AtLeast c z) → AtLeast c z) :
    a.isFinite = true := by
  by_contra hinfinite
  have hlarge := h (real c + 1) fun hfinite _ => absurd hfinite hinfinite
  linarith [hlarge.real_le hc]

/-- A factor of a finite product is finite. -/
theorem AtLeast.finite_of_mul (ha : AtLeast a x) (hb : 0 < real b) (h : (a * b).isFinite = true) :
    a.isFinite = true :=
  finite_of_result h fun _ => ha.mul_of_finite hb

theorem AtLeast.div_of_finite {z : ℝ} (ha : AtLeast a x) (hb : 0 < real b)
    (h : a.isFinite = true → x ≤ real a → AtLeast (a / b) z) : AtLeast (a / b) z := by
  rcases ha.cases with htop | ⟨hfinite, hle⟩
  · refine atLeast_of_infinity ?_ _
    obtain ⟨m, e, hm, hu⟩ := unpack_of_pos hb
    show Float.Model.pack (Float.Model.UnpackedFloat.div binary64 _ _) = _
    rw [unpack_of_ext_eq_top htop, hu]
    rfl
  · exact h hfinite hle

/-- The dividend of a finite quotient is finite. -/
theorem AtLeast.finite_of_div (ha : AtLeast a x) (hb : 0 < real b) (h : (a / b).isFinite = true) :
    a.isFinite = true :=
  finite_of_result h fun _ => ha.div_of_finite hb

theorem AtLeast.sqrt_of_finite {z : ℝ} (ha : AtLeast a x)
    (h : a.isFinite = true → x ≤ real a → AtLeast a.sqrt z) : AtLeast a.sqrt z := by
  rcases ha.cases with htop | ⟨hfinite, hle⟩
  · refine atLeast_of_infinity ?_ _
    show Float.Model.pack (Float.Model.UnpackedFloat.sqrt binary64 _) = _
    rw [unpack_of_ext_eq_top htop]
    rfl
  · exact h hfinite hle

theorem AtLeast.mul (ha : AtLeast a x) (hx : 0 ≤ x) (hb : b.isFinite = true) (hy : 0 < y)
    (hyb : y ≤ real b) (hne : a.isFinite = true → ext (a * b) ≠ 0) :
    AtLeast (a * b) (2 / 3 * (x * y)) := by
  refine ha.mul_of_finite (hy.trans_le hyb) fun hfinite hle => ?_
  refine ((computes_mul hfinite hb).atLeast (mul_nonneg (hx.trans hle) (hy.le.trans hyb))
    (hne hfinite)).mono ?_
  have := mul_le_mul hle hyb hy.le (hx.trans hle)
  linarith

theorem AtLeast.div (ha : AtLeast a x) (hx : 0 ≤ x) (hb : b.isFinite = true) (hb' : 0 < real b)
    (hne : a.isFinite = true → ext (a / b) ≠ 0) : AtLeast (a / b) (2 / 3 * (x / real b)) := by
  refine ha.div_of_finite hb' fun hfinite hle => ?_
  refine ((computes_div hfinite hb hb'.ne').atLeast (div_nonneg (hx.trans hle) hb'.le)
    (hne hfinite)).mono ?_
  have := div_le_div_of_nonneg_right hle hb'.le
  linarith

/-- A sum reaches every number that the exact bounds reach. -/
theorem AtLeast.add {c : Float} (ha : a.isFinite = true) (hb : AtLeast b y)
    (hc : c.isFinite = true) (h : real c ≤ real a + y) : AtLeast (a + b) (real c) := by
  rcases hb.cases with htop | ⟨hfinite, hle⟩
  · refine atLeast_of_infinity ?_ _
    show Float.Model.pack (Float.Model.UnpackedFloat.add binary64 _ _) = _
    rw [unpack_of_ext_eq_top htop]
    have ha' : a.toModel.unpack.isFinite = true := ha
    cases hu : a.toModel.unpack with
    | infinity s =>
      rw [hu] at ha'
      cases ha'
    | notANumber =>
      rw [hu] at ha'
      cases ha'
    | zero s => rfl
    | finite s m e hm => rfl
  · have hself := computes_self hc
    have hsum := computes_add ha hfinite
    refine ⟨hsum.1, ?_⟩
    rw [hsum.2, ← ext_of_finite hc, hself.2]
    exact result_mono (by linarith)

/-- A result is finite if its exact value is between zero and a finite number. -/
theorem Computes.finite_of_le {c : Float} (h : Computes a x) (hc : c.isFinite = true) (hx : 0 ≤ x)
    (hxc : x ≤ real c) : a.isFinite = true :=
  finite_of_between ((computes_self rfl).le h (real_zero.trans_le hx)) (h.le (computes_self hc) hxc)
    rfl hc

/-- A result whose exact value is the value of a number has that value. -/
theorem Computes.eq_real (h : Computes a (real b)) (hb : b.isFinite = true) :
    a.isFinite = true ∧ real a = real b := by
  have hge := (computes_self hb).le h le_rfl
  have hle := h.le (computes_self hb) le_rfl
  have hfinite := finite_of_between hge hle hb hb
  exact ⟨hfinite, le_antisymm (real_le_of_le hle hfinite hb) (real_le_of_le hge hb hfinite)⟩

/-- A result is not negative if the exact value is not. -/
theorem AtLeast.of_computes (h : Computes a x) (hx : 0 ≤ x) : AtLeast a 0 := by
  have hle := (computes_self (show (0.0 : Float).isFinite = true from rfl)).le h hx
  have hext := ext_le_of_le hle
  rw [ext_of_finite (show (0.0 : Float).isFinite = true from rfl), real_zero] at hext
  exact ⟨h.1, hext⟩

/-- The value of a finite result. -/
theorem Computes.real_eq (h : Computes a x) (ha : a.isFinite = true) :
    real a = nearest binary64 x := by
  have hext := h.2
  rw [ext_of_finite ha, result] at hext
  split_ifs at hext
  · exact absurd hext (EReal.coe_ne_top _)
  · exact absurd hext (EReal.coe_ne_bot _)
  · exact EReal.coe_injective hext

/-- A result is not rounded to zero if the exact value is at least some positive number. -/
theorem Computes.ne_zero {c : Float} (h : Computes a x) (hc : c.isFinite = true)
    (hc' : 0 < real c) (hx : real c ≤ x) : ext a ≠ 0 := by
  have hle : ext c ≤ ext a := by
    rw [(computes_self hc).2, h.2]
    exact result_mono hx
  rw [ext_of_finite hc] at hle
  intro hzero
  rw [hzero] at hle
  exact absurd (EReal.coe_le_coe_iff.mp hle) (not_le.mpr hc')

/-- Only numbers that have not been rounded to zero have a product that has not. -/
theorem ext_ne_zero_of_mul (ha : Numeric a) (hb : b.isFinite = true) (h : ext (a * b) ≠ 0) :
    ext a ≠ 0 := by
  intro hzero
  obtain ⟨hfinite, hreal⟩ := finite_of_ext ha (x := 0) hzero
  apply h
  rw [(computes_mul hfinite hb).2, hreal, zero_mul, result_of_lt (by
    rw [nearest_zero, abs_zero]
    exact limit_pos binary64), nearest_zero]
  rfl

/-- Away from the smallest numbers rounding hardly changes a number. -/
theorem abs_nearest_sub_le_of_large (hx : (2 : ℝ) ^ (-1030 : ℤ) ≤ x) :
    |nearest binary64 x - x| ≤ 1 / 10000 * x := by
  have hpos : 0 < x := (two_zpow_pos _).trans_le hx
  have hclose := abs_nearest_sub_le_mul (F := binary64) (x := x) (1 / 10000) hpos.ne' ?_ ?_
  · rwa [abs_of_pos hpos] at hclose
  · rw [show (1 - (binary64.mantissaBits : ℤ)) = -52 by decide]
    norm_num
  · rw [show binary64.minExponent = -1030 + -44 by decide, zpow_add₀ (by norm_num), abs_of_pos hpos,
      mul_comm]
    exact mul_le_mul (by norm_num) hx (two_zpow_pos _).le (by norm_num)

/-- A root is not rounded to zero: it is at least its operand or at least 1. -/
theorem sqrt_ne_zero (ha : a.isFinite = true) (hpos : 0 < real a) : ext a.sqrt ≠ 0 := by
  have hcomputes := computes_sqrt ha hpos.le
  rcases le_total (real a) 1 with hle | hge
  · refine hcomputes.ne_zero ha hpos ?_
    rw [Real.le_sqrt' hpos, pow_two]
    exact mul_le_of_le_one_left hpos.le hle
  · refine hcomputes.ne_zero (c := 1.0) rfl (by rw [real_one]; norm_num) ?_
    rw [real_one, Real.le_sqrt' one_pos, one_pow]
    exact hge

theorem AtLeast.sqrt (ha : AtLeast a x) (hx : 0 < x) :
    AtLeast a.sqrt (2 / 3 * √x) := by
  refine ha.sqrt_of_finite fun hfinite hle => ?_
  have hpos : 0 < real a := hx.trans_le hle
  refine ((computes_sqrt hfinite hpos.le).atLeast (Real.sqrt_nonneg _)
    (sqrt_ne_zero hfinite hpos)).mono ?_
  have := Real.sqrt_le_sqrt hle
  linarith

/-! ## Results of at least 1 -/

theorem epsilon_pos : 0 < epsilon := two_zpow_pos _

theorem epsilon_le : epsilon ≤ 1 / 1000000 := by
  unfold epsilon
  norm_num

theorem half_le_share : 1 / 2 ≤ 1 - epsilon := by
  linarith [epsilon_le]

theorem share_pos : 0 < 1 - epsilon := by
  linarith [half_le_share]

theorem one_le_share_pow_mul (n : ℕ) (hx : 2 ^ n ≤ x) : 1 ≤ (1 - epsilon) ^ n * x := by
  have hshare := pow_le_pow_left₀ (by norm_num) half_le_share n
  have htwo : (0 : ℝ) < 2 ^ n := by positivity
  calc (1 : ℝ) = (1 / 2) ^ n * 2 ^ n := by rw [← mul_pow]; norm_num
    _ ≤ (1 - epsilon) ^ n * x := mul_le_mul hshare hx htwo.le (pow_nonneg share_pos.le n)

theorem one_le_share_mul (hx : 2 ≤ x) : 1 ≤ (1 - epsilon) * x := by
  have h := one_le_share_pow_mul 1 (x := x) (by linarith)
  rwa [pow_one] at h

theorem abs_nearest_sub_le_of_one_le (hx : 1 ≤ x) :
    |nearest binary64 x - x| ≤ epsilon * x := by
  have hpos : 0 < x := zero_lt_one.trans_le hx
  have hclose := abs_nearest_sub_le_mul (F := binary64) (x := x) epsilon hpos.ne' ?_ ?_
  · rwa [abs_of_pos hpos] at hclose
  · rw [show (1 - (binary64.mantissaBits : ℤ)) = -53 + 1 by decide, zpow_add₀ (by norm_num), epsilon]
    linarith
  · rw [show binary64.minExponent = -53 + -1021 by decide, zpow_add₀ (by norm_num),
      abs_of_pos hpos, epsilon]
    have hsmall : (2 : ℝ) ^ (-1021 : ℤ) ≤ 1 := zpow_le_one_of_nonpos₀ one_le_two (by norm_num)
    have hprod := mul_le_mul_of_nonneg_left (hsmall.trans hx) (two_zpow_pos (-53)).le
    linarith [mul_pos (two_zpow_pos (-53)) hpos]

theorem Computes.atLeast_of_one_le (h : Computes a x) (hx : 1 ≤ x) :
    AtLeast a ((1 - epsilon) * x) := by
  refine ⟨h.1, ?_⟩
  rw [h.2, result]
  split_ifs with htop hbot
  · exact le_top
  · have hnonneg := nearest_nonneg (F := binary64) (zero_le_one.trans hx)
    have hlimit := limit_pos binary64
    linarith
  · refine EReal.coe_le_coe_iff.mpr ?_
    linarith [(abs_le.mp (abs_nearest_sub_le_of_one_le hx)).1]

theorem Computes.real_le_of_one_le (h : Computes a x) (ha : a.isFinite = true) (hx : 1 ≤ x) :
    real a ≤ (1 + epsilon) * x := by
  rw [h.real_eq ha]
  linarith [(abs_le.mp (abs_nearest_sub_le_of_one_le hx)).2]

end

end SignalPath.Binary64
