import SignalPath.Proofs.Number.Packing

/-!
# Floating-point numbers in terms of their values

The operations and comparisons of `Float` on numbers, as statements about real values: an operation
on finite numbers gives the rounded result, and comparison is that of values. What follows for the
order of `Float` itself needs no values any more: the operations are monotone.
-/

namespace SignalPath.Binary64

open Float.Model (Format)
open Float.Model.Format (binary64)
open Rounding

/-- The value of a finite number. -/
noncomputable def real (a : Float) : ℝ := value a.toModel.unpack

/-- The value of a number that may be infinite. -/
noncomputable def ext (a : Float) : EReal := extValue a.toModel.unpack

/-- Whether a value is a number at all, which may be infinite. -/
def Numeric (a : Float) : Prop := a.toModel.unpack ≠ .notANumber

section

variable {a b c d : Float}

theorem canonical_toModel (a : Float) : Canonical binary64 a.toModel.unpack :=
  canonical_unpack (F := binary64) a.toModel.toBits.toBitVec

theorem numeric_of_finite (h : a.isFinite = true) : Numeric a := by
  intro hnan
  have h' : a.toModel.unpack.isFinite = true := h
  rw [hnan] at h'
  cases h'

theorem ext_of_finite (h : a.isFinite = true) : ext a = (real a : ℝ) := extValue_of_finite h

/-- A number whose extended value is real is finite and has that value. -/
theorem finite_of_ext {x : ℝ} (h : Numeric a) (hx : ext a = (x : ℝ)) :
    a.isFinite = true ∧ real a = x :=
  finite_of_extValue h hx

/-! ## Comparison -/

theorem lt_iff_compare : a < b ↔ a.toModel.unpack.compare b.toModel.unpack = some .lt := by
  show decide (a.toModel < b.toModel) = true ↔ _
  rw [decide_eq_true_iff]
  show (a.toModel.unpack.compare b.toModel.unpack == some .lt) = true ↔ _
  rw [beq_iff_eq]

theorem le_iff_compare :
    a ≤ b ↔ (a.toModel.unpack.compare b.toModel.unpack).any (·.isLE) = true := by
  show decide (a.toModel ≤ b.toModel) = true ↔ _
  rw [decide_eq_true_iff]
  rfl

theorem lt_iff (ha : Numeric a) (hb : Numeric b) : a < b ↔ ext a < ext b := by
  obtain ⟨o, ho, hcompares⟩ := compare_compares (canonical_toModel a) (canonical_toModel b) ha hb
  rw [lt_iff_compare, ho, Option.some.injEq, hcompares.eq_lt]
  rfl

theorem le_iff (ha : Numeric a) (hb : Numeric b) : a ≤ b ↔ ext a ≤ ext b := by
  obtain ⟨o, ho, hcompares⟩ := compare_compares (canonical_toModel a) (canonical_toModel b) ha hb
  rw [le_iff_compare, ho, Option.any_some, Ordering.isLE_iff_ne_gt]
  exact hcompares.ne_gt

theorem compare_eq_none (h : ¬ Numeric a ∨ ¬ Numeric b) :
    a.toModel.unpack.compare b.toModel.unpack = none := by
  unfold Numeric at h
  rcases h with h | h
  · rw [not_not.mp h]
    rfl
  · rw [not_not.mp h]
    cases a.toModel.unpack with
    | infinity s => cases s <;> rfl
    | notANumber => rfl
    | zero s => rfl
    | finite s m e hm => cases s <;> rfl

/-- Only numbers compare. -/
theorem numeric_of_le (h : a ≤ b) : Numeric a ∧ Numeric b := by
  by_contra hnot
  rw [not_and_or] at hnot
  rw [le_iff_compare, compare_eq_none hnot] at h
  cases h

theorem numeric_of_lt (h : a < b) : Numeric a ∧ Numeric b := by
  by_contra hnot
  rw [not_and_or] at hnot
  rw [lt_iff_compare, compare_eq_none hnot] at h
  cases h

theorem ext_le_of_le (h : a ≤ b) : ext a ≤ ext b :=
  (le_iff (numeric_of_le h).1 (numeric_of_le h).2).mp h

theorem ext_lt_of_lt (h : a < b) : ext a < ext b :=
  (lt_iff (numeric_of_lt h).1 (numeric_of_lt h).2).mp h

theorem float_le_trans (h : a ≤ b) (h' : b ≤ c) : a ≤ c :=
  (le_iff (numeric_of_le h).1 (numeric_of_le h').2).mpr ((ext_le_of_le h).trans (ext_le_of_le h'))

theorem float_lt_of_lt_of_le (h : a < b) (h' : b ≤ c) : a < c :=
  (lt_iff (numeric_of_lt h).1 (numeric_of_le h').2).mpr ((ext_lt_of_lt h).trans_le (ext_le_of_le h'))

theorem float_lt_of_le_of_lt (h : a ≤ b) (h' : b < c) : a < c :=
  (lt_iff (numeric_of_le h).1 (numeric_of_lt h').2).mpr ((ext_le_of_le h).trans_lt (ext_lt_of_lt h'))

theorem float_le_of_lt (h : a < b) : a ≤ b :=
  (le_iff (numeric_of_lt h).1 (numeric_of_lt h).2).mpr (ext_lt_of_lt h).le

theorem float_not_lt (h : a ≤ b) : ¬ b < a :=
  fun h' => (ext_lt_of_lt h').not_ge (ext_le_of_le h)

theorem float_not_lt_iff (ha : Numeric a) (hb : Numeric b) : ¬ a < b ↔ b ≤ a := by
  rw [le_iff hb ha, lt_iff ha hb]
  exact not_lt

/-- What lies between finite numbers is finite. -/
theorem finite_of_between (h : a ≤ c) (h' : c ≤ b) (ha : a.isFinite = true)
    (hb : b.isFinite = true) : c.isFinite = true := by
  have hlo := ext_le_of_le h
  have hhi := ext_le_of_le h'
  rw [ext_of_finite ha] at hlo
  rw [ext_of_finite hb] at hhi
  lift ext c to ℝ using ⟨ne_top_of_le_ne_top (EReal.coe_ne_top _) hhi,
    ne_bot_of_le_ne_bot (EReal.coe_ne_bot _) hlo⟩ with x hx
  exact (finite_of_ext (numeric_of_le h).2 hx.symm).1

theorem real_le_of_le (h : a ≤ b) (ha : a.isFinite = true) (hb : b.isFinite = true) :
    real a ≤ real b := by
  have h' := ext_le_of_le h
  rwa [ext_of_finite ha, ext_of_finite hb, EReal.coe_le_coe_iff] at h'

theorem real_lt_of_lt (h : a < b) (ha : a.isFinite = true) (hb : b.isFinite = true) :
    real a < real b := by
  have h' := ext_lt_of_lt h
  rwa [ext_of_finite ha, ext_of_finite hb, EReal.coe_lt_coe_iff] at h'

theorem lt_of_real_lt (ha : a.isFinite = true) (hb : b.isFinite = true) (h : real a < real b) :
    a < b := by
  rw [lt_iff (numeric_of_finite ha) (numeric_of_finite hb), ext_of_finite ha, ext_of_finite hb]
  exact EReal.coe_lt_coe_iff.mpr h

/-! ## Operations -/

/-- A result is a number, and its extended value is the exact value after rounding. -/
def Computes (a : Float) (x : ℝ) : Prop := Numeric a ∧ ext a = result binary64 x

theorem computes_add (ha : a.isFinite = true) (hb : b.isFinite = true) :
    Computes (a + b) (real a + real b) :=
  (add_rounds (canonical_toModel a) (canonical_toModel b) ha hb).unpack_pack (by decide)

theorem computes_sub (ha : a.isFinite = true) (hb : b.isFinite = true) :
    Computes (a - b) (real a - real b) :=
  (sub_rounds (canonical_toModel a) (canonical_toModel b) ha hb).unpack_pack (by decide)

theorem computes_mul (ha : a.isFinite = true) (hb : b.isFinite = true) :
    Computes (a * b) (real a * real b) :=
  (mul_rounds (canonical_toModel a) (canonical_toModel b) ha hb).unpack_pack (by decide)

theorem computes_div (ha : a.isFinite = true) (hb : b.isFinite = true) (hne : real b ≠ 0) :
    Computes (a / b) (real a / real b) :=
  (div_rounds (F := binary64) ha hb hne).unpack_pack (by decide)

theorem computes_sqrt (ha : a.isFinite = true) (hnonneg : 0 ≤ real a) :
    Computes a.sqrt √(real a) :=
  (sqrt_rounds (F := binary64) ha hnonneg).unpack_pack (by decide)

/-- A finite number is its own result. -/
theorem computes_self (ha : a.isFinite = true) : Computes a (real a) := by
  have h := ((canonical_toModel a).rounds ha).unpack_pack (by decide)
  have hpack : Float.Model.UnpackedFloat.pack binary64 a.toModel.unpack = a.toModel.toBits.toBitVec :=
    Float.Model.UnpackedFloat.pack_unpack_of_valid a.toModel.valid
  rw [hpack] at h
  exact h

/-- Larger exact results give larger results. -/
theorem Computes.le {x y : ℝ} (ha : Computes a x) (hb : Computes b y) (hxy : x ≤ y) : a ≤ b := by
  rw [le_iff ha.1 hb.1, ha.2, hb.2]
  exact result_mono hxy

/-! ## The operations are monotone -/

@[simp]
theorem real_zero : real 0.0 = 0 := rfl

theorem real_nonneg (h : 0.0 ≤ a) (ha : a.isFinite = true) : 0 ≤ real a := by
  rw [← real_zero]
  exact real_le_of_le h rfl ha

theorem real_pos (h : 0.0 < a) (ha : a.isFinite = true) : 0 < real a := by
  rw [← real_zero]
  exact real_lt_of_lt h rfl ha

theorem pos_of_real_pos (ha : a.isFinite = true) (h : 0 < real a) : 0.0 < a :=
  lt_of_real_lt rfl ha (real_zero.trans_lt h)

theorem add_mono (hab : a ≤ b) (hcd : c ≤ d) (ha : a.isFinite = true) (hb : b.isFinite = true)
    (hc : c.isFinite = true) (hd : d.isFinite = true) : a + c ≤ b + d :=
  (computes_add ha hc).le (computes_add hb hd)
    (add_le_add (real_le_of_le hab ha hb) (real_le_of_le hcd hc hd))

theorem sub_mono (hab : a ≤ b) (hcd : c ≤ d) (ha : a.isFinite = true) (hb : b.isFinite = true)
    (hc : c.isFinite = true) (hd : d.isFinite = true) : a - d ≤ b - c :=
  (computes_sub ha hd).le (computes_sub hb hc)
    (sub_le_sub (real_le_of_le hab ha hb) (real_le_of_le hcd hc hd))

theorem mul_mono_left (hab : a ≤ b) (hc : 0.0 ≤ c) (ha : a.isFinite = true)
    (hb : b.isFinite = true) (hc' : c.isFinite = true) : c * a ≤ c * b :=
  (computes_mul hc' ha).le (computes_mul hc' hb)
    (mul_le_mul_of_nonneg_left (real_le_of_le hab ha hb) (real_nonneg hc hc'))

theorem mul_mono_right (hab : a ≤ b) (hc : 0.0 ≤ c) (ha : a.isFinite = true)
    (hb : b.isFinite = true) (hc' : c.isFinite = true) : a * c ≤ b * c :=
  (computes_mul ha hc').le (computes_mul hb hc')
    (mul_le_mul_of_nonneg_right (real_le_of_le hab ha hb) (real_nonneg hc hc'))

theorem float_le_refl (ha : Numeric a) : a ≤ a := (le_iff ha ha).mpr le_rfl

/-- Adding something that is not negative does not make a number smaller. -/
theorem le_add_of_nonneg (hb : 0.0 ≤ b) (ha : a.isFinite = true) (hb' : b.isFinite = true) :
    a ≤ a + b := by
  exact (computes_self ha).le (computes_add ha hb')
    (le_add_of_nonneg_right (real_nonneg hb hb'))

/-- The conversion to a word saturates. -/
theorem toUInt16_toNat (ha : a.isFinite = true) : a.toUInt16.toNat = min ⌊real a⌋₊ 65535 := by
  show (UInt16.ofNatClamp (a.toModel.unpack.toInt 0 (UInt16.size - 1)).toNat).toNat = _
  rw [toInt_toNat (a := a.toModel.unpack) _ _ ha, ← real]
  by_cases h : ⌊real a⌋₊ < UInt16.size
  · have h' : ⌊real a⌋₊ < 65536 := h
    rw [UInt16.ofNatClamp_eq_ofNat _ h, UInt16.toNat_ofNat']
    omega
  · have h' : ¬ ⌊real a⌋₊ < 65536 := h
    rw [UInt16.ofNatClamp, dif_neg h]
    show 65535 = _
    omega

theorem toUInt64_toNat (ha : a.isFinite = true) :
    a.toUInt64.toNat = min ⌊real a⌋₊ 18446744073709551615 :=
  Rounding.toUInt64_toNat (a := a.toModel.unpack) ha

theorem toUInt16_mono (h : a ≤ b) (ha : a.isFinite = true) (hb : b.isFinite = true) :
    a.toUInt16.toNat ≤ b.toUInt16.toNat := by
  rw [toUInt16_toNat ha, toUInt16_toNat hb]
  exact min_le_min_right _ (Nat.floor_le_floor (real_le_of_le h ha hb))

theorem toUInt64_mono (h : a ≤ b) (ha : a.isFinite = true) (hb : b.isFinite = true) :
    a.toUInt64.toNat ≤ b.toUInt64.toNat := by
  rw [toUInt64_toNat ha, toUInt64_toNat hb]
  exact min_le_min_right _ (Nat.floor_le_floor (real_le_of_le h ha hb))

/-! ## Intervals -/

/-- A number lies between two finite ones. -/
structure Inside (lo hi x : Float) : Prop where
  ge : lo ≤ x
  le : x ≤ hi
  lo_finite : lo.isFinite = true
  hi_finite : hi.isFinite = true

section

variable {lo hi x : Float}

theorem Inside.finite (h : Inside lo hi x) : x.isFinite = true :=
  finite_of_between h.ge h.le h.lo_finite h.hi_finite

theorem Inside.const_mul (h : Inside lo hi x) (hc : 0.0 ≤ c) (hc' : c.isFinite = true)
    (hlo : (c * lo).isFinite = true) (hhi : (c * hi).isFinite = true) :
    Inside (c * lo) (c * hi) (c * x) :=
  ⟨mul_mono_left h.ge hc h.lo_finite h.finite hc', mul_mono_left h.le hc h.finite h.hi_finite hc',
    hlo, hhi⟩

theorem Inside.mul_const (h : Inside lo hi x) (hc : 0.0 ≤ c) (hc' : c.isFinite = true)
    (hlo : (lo * c).isFinite = true) (hhi : (hi * c).isFinite = true) :
    Inside (lo * c) (hi * c) (x * c) :=
  ⟨mul_mono_right h.ge hc h.lo_finite h.finite hc', mul_mono_right h.le hc h.finite h.hi_finite hc',
    hlo, hhi⟩

theorem Inside.const_div (h : Inside lo hi x) (hc : 0.0 ≤ c) (hc' : c.isFinite = true)
    (hpos : 0.0 < lo) (hlo : (c / hi).isFinite = true) (hhi : (c / lo).isFinite = true) :
    Inside (c / hi) (c / lo) (c / x) := by
  have hpos' := real_pos hpos h.lo_finite
  have hge := real_le_of_le h.ge h.lo_finite h.finite
  have hle := real_le_of_le h.le h.finite h.hi_finite
  have hx := computes_div hc' h.finite (by linarith)
  exact ⟨(computes_div hc' h.hi_finite (by linarith)).le hx
      (div_le_div_of_nonneg_left (real_nonneg hc hc') (by linarith) hle),
    hx.le (computes_div hc' h.lo_finite hpos'.ne')
      (div_le_div_of_nonneg_left (real_nonneg hc hc') hpos' hge), hlo, hhi⟩

theorem Inside.add_const (h : Inside lo hi x) (hc : c.isFinite = true)
    (hlo : (lo + c).isFinite = true) (hhi : (hi + c).isFinite = true) :
    Inside (lo + c) (hi + c) (x + c) :=
  ⟨add_mono h.ge (float_le_refl (numeric_of_finite hc)) h.lo_finite h.finite hc hc,
    add_mono h.le (float_le_refl (numeric_of_finite hc)) h.finite h.hi_finite hc hc, hlo, hhi⟩

theorem Inside.sub_const (h : Inside lo hi x) (hc : c.isFinite = true)
    (hlo : (lo - c).isFinite = true) (hhi : (hi - c).isFinite = true) :
    Inside (lo - c) (hi - c) (x - c) :=
  ⟨sub_mono h.ge (float_le_refl (numeric_of_finite hc)) h.lo_finite h.finite hc hc,
    sub_mono h.le (float_le_refl (numeric_of_finite hc)) h.finite h.hi_finite hc hc, hlo, hhi⟩

theorem Inside.const_sub (h : Inside lo hi x) (hc : c.isFinite = true)
    (hlo : (c - hi).isFinite = true) (hhi : (c - lo).isFinite = true) :
    Inside (c - hi) (c - lo) (c - x) :=
  ⟨sub_mono (float_le_refl (numeric_of_finite hc)) h.le hc hc h.finite h.hi_finite,
    sub_mono (float_le_refl (numeric_of_finite hc)) h.ge hc hc h.lo_finite h.finite, hlo, hhi⟩

theorem Inside.toUInt16 (h : Inside lo hi x) :
    lo.toUInt16.toNat ≤ x.toUInt16.toNat ∧ x.toUInt16.toNat ≤ hi.toUInt16.toNat :=
  ⟨toUInt16_mono h.ge h.lo_finite h.finite, toUInt16_mono h.le h.finite h.hi_finite⟩

end

end

end SignalPath.Binary64
