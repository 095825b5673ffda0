import SignalPath.Number.Whole
import SignalPath.Proofs.Number.Packing

/-!
# Single-precision numbers and how far they are off

The values of single-precision numbers are fractions. An operation on finite numbers gives the
nearest such number to the exact result, and below a power of two that is off by at most half the
spacing there. So a bound on the error of the operands and on the size of the result gives one on
the error of the result: `Near` carries it through a formula, one operation at a time, with side
conditions that are inequalities between numbers.
-/

namespace SignalPath.Binary32

open Float.Model (UnpackedFloat)
open Float.Model.Format (binary32)
open Rounding

/-! ## Values -/

/-- The value of an unpacked number as a fraction, 0 for what is not a finite number. -/
def fraction : UnpackedFloat → ℚ
  | .finite s m e _ => mkRat (s.apply m * 2 ^ e.toNat) (2 ^ (-e).toNat)
  | _ => 0

/-- The value of a finite number. -/
def rational (a : Float32) : ℚ := fraction a.toModel.unpack

theorem fraction_finite {s : UnpackedFloat.Sign} {m : ℕ} {e : ℤ} {hm : 0 < m} :
    fraction (.finite s m e hm) = s.apply m * 2 ^ e := by
  have hpow : (2 : ℚ) ^ e = 2 ^ e.toNat / 2 ^ (-e).toNat := by
    rw [← zpow_natCast, ← zpow_natCast, ← zpow_sub₀ two_ne_zero]
    congr 1
    omega
  rw [fraction, Rat.mkRat_eq_div, hpow]
  push_cast
  rw [mul_div_assoc]

theorem value_eq_fraction (a : UnpackedFloat) : value a = fraction a := by
  cases a with
  | finite s m e hm =>
    rw [fraction_finite]
    cases s with
    | negative => simp [value, signed, UnpackedFloat.Sign.apply]
    | positive => simp [value, signed, UnpackedFloat.Sign.apply]
  | infinity s => simp [value, fraction]
  | notANumber => simp [value, fraction]
  | zero s => simp [value, fraction]

section

variable {a b c : Float32} {u : UnpackedFloat} {x y : ℚ}

theorem canonical_toModel (a : Float32) : Canonical binary32 a.toModel.unpack :=
  canonical_unpack (F := binary32) a.toModel.toBits.toBitVec

@[simp]
theorem rational_zero : rational 0.0 = 0 := rfl

/-- Finite numbers compare like their values. -/
theorem compare_rational (ha : a.isFinite = true) (hb : b.isFinite = true) :
    ∃ o, a.toModel.unpack.compare b.toModel.unpack = some o ∧
      o.Compares (rational a) (rational b) := by
  have ha' : a.toModel.unpack.isFinite = true := ha
  have hb' : b.toModel.unpack.isFinite = true := hb
  obtain ⟨o, ho, hcompares⟩ := compare_compares (canonical_toModel a) (canonical_toModel b)
    (fun h => by rw [h] at ha'; cases ha') (fun h => by rw [h] at hb'; cases hb')
  refine ⟨o, ho, ?_⟩
  rw [extValue_of_finite ha', extValue_of_finite hb', value_eq_fraction, value_eq_fraction]
    at hcompares
  cases o with
  | lt => exact Rat.cast_lt.mp (EReal.coe_lt_coe_iff.mp hcompares)
  | eq => exact Rat.cast_injective (EReal.coe_injective hcompares)
  | gt => exact Rat.cast_lt.mp (EReal.coe_lt_coe_iff.mp hcompares)

theorem lt_iff (ha : a.isFinite = true) (hb : b.isFinite = true) :
    a < b ↔ rational a < rational b := by
  obtain ⟨o, ho, hcompares⟩ := compare_rational ha hb
  have hmodel : a < b ↔ a.toModel.unpack.compare b.toModel.unpack = some .lt := by
    show decide (a.toModel < b.toModel) = true ↔ _
    rw [decide_eq_true_iff]
    show (a.toModel.unpack.compare b.toModel.unpack == some .lt) = true ↔ _
    rw [beq_iff_eq]
  rw [hmodel, ho, Option.some.injEq, hcompares.eq_lt]

theorem le_iff (ha : a.isFinite = true) (hb : b.isFinite = true) :
    a ≤ b ↔ rational a ≤ rational b := by
  obtain ⟨o, ho, hcompares⟩ := compare_rational ha hb
  have hmodel : a ≤ b ↔ (a.toModel.unpack.compare b.toModel.unpack).any (·.isLE) = true := by
    show decide (a.toModel ≤ b.toModel) = true ↔ _
    rw [decide_eq_true_iff]
    rfl
  rw [hmodel, ho, Option.any_some, Ordering.isLE_iff_ne_gt]
  exact hcompares.ne_gt

/-! ## Rounded results -/

/-- A result below the limit of the format is finite, and its value is the exact one rounded. -/
theorem rational_of_rounds (h : Rounds binary32 u x) (hlt : |nearest binary32 x| < limit binary32) :
    (Float32.ofModel (.pack u)).isFinite = true ∧
      (rational (Float32.ofModel (.pack u)) : ℝ) = nearest binary32 x := by
  obtain ⟨hnumber, hvalue⟩ := h.unpack_pack (by decide)
  rw [result_of_lt hlt] at hvalue
  obtain ⟨hfinite, hreal⟩ := finite_of_extValue hnumber hvalue
  exact ⟨hfinite, (value_eq_fraction _).symm.trans hreal⟩

/-- The values of finite numbers are below the limit of the format, and they are not rounded. -/
theorem nearest_rational (ha : a.isFinite = true) :
    nearest binary32 (rational a) = rational a ∧ |(rational a : ℝ)| < limit binary32 := by
  have hcanonical := canonical_toModel a
  have ha' : a.toModel.unpack.isFinite = true := ha
  have hnearest := hcanonical.nearest_value
  have hvalue := ((hcanonical.rounds ha').unpack_pack (by decide)).2
  have hpack : UnpackedFloat.pack binary32 a.toModel.unpack = a.toModel.toBits.toBitVec :=
    UnpackedFloat.pack_unpack_of_valid a.toModel.valid
  have hunpack : UnpackedFloat.unpack binary32 a.toModel.toBits.toBitVec = a.toModel.unpack := rfl
  rw [hpack, hunpack, extValue_of_finite ha', result, hnearest] at hvalue
  rw [value_eq_fraction] at hnearest hvalue
  refine ⟨hnearest, abs_lt.mpr ?_⟩
  split_ifs at hvalue with htop hbot
  · exact absurd hvalue (EReal.coe_ne_top _)
  · exact absurd hvalue (EReal.coe_ne_bot _)
  · exact ⟨not_le.mp hbot, not_le.mp htop⟩

theorem abs_rational_lt (ha : a.isFinite = true) : |rational a| < 2 ^ (128 : ℤ) := by
  have h := (nearest_rational ha).2
  rw [limit, show ((2 ^ (binary32.exponentBits - 1) : ℕ) : ℤ) = 128 by decide] at h
  exact_mod_cast h

/-- A canonical number below the limit of the format survives packing. -/
theorem rational_of_canonical (hu : Canonical binary32 u) (hfinite : u.isFinite = true)
    (hlt : |value u| < limit binary32) :
    (Float32.ofModel (.pack u)).isFinite = true ∧
      rational (Float32.ofModel (.pack u)) = fraction u := by
  have hrounds := hu.rounds hfinite
  have hnearest := hu.nearest_value
  rw [value_eq_fraction] at hrounds hnearest hlt
  obtain ⟨hfinite', hrational⟩ := rational_of_rounds hrounds (by rwa [hnearest])
  rw [hnearest] at hrational
  exact ⟨hfinite', by exact_mod_cast hrational⟩

theorem rational_neg (ha : a.isFinite = true) :
    (-a).isFinite = true ∧ rational (-a) = -rational a := by
  have ha' : a.toModel.unpack.isFinite = true := ha
  have hfinite : a.toModel.unpack.neg.isFinite = true := by
    cases hu : a.toModel.unpack with
    | finite s m e hm => rfl
    | infinity s => rw [hu] at ha'; cases ha'
    | notANumber => rw [hu] at ha'; cases ha'
    | zero s => rfl
  have hvalue : value a.toModel.unpack.neg = -(rational a : ℝ) := by
    rw [value_neg, value_eq_fraction, rational]
  obtain ⟨hfinite', hrational⟩ := rational_of_canonical (canonical_toModel a).neg hfinite (by
    rw [hvalue, abs_neg]
    exact (nearest_rational ha).2)
  rw [value_eq_fraction] at hvalue
  refine ⟨hfinite', hrational.trans ?_⟩
  exact_mod_cast hvalue

theorem rational_abs (ha : a.isFinite = true) :
    a.abs.isFinite = true ∧ rational a.abs = |rational a| := by
  have ha' : a.toModel.unpack.isFinite = true := ha
  have hcanonical := canonical_toModel a
  have hlimit := (nearest_rational ha).2
  rw [rational, ← value_eq_fraction] at hlimit
  have hmagnitude : Canonical binary32 a.toModel.unpack.abs ∧
      a.toModel.unpack.abs.isFinite = true ∧
      value a.toModel.unpack.abs = |value a.toModel.unpack| := by
    cases hu : a.toModel.unpack with
    | finite s m e hm =>
      rw [hu] at hcanonical
      have hpos := magnitude_pos m e hm
      refine ⟨hcanonical, rfl, ?_⟩
      cases s with
      | negative => exact ((abs_neg _).trans (abs_of_pos hpos)).symm
      | positive => exact (abs_of_pos hpos).symm
    | infinity s => rw [hu] at ha'; cases ha'
    | notANumber => rw [hu] at ha'; cases ha'
    | zero s => exact ⟨trivial, rfl, abs_zero.symm⟩
  obtain ⟨hcanonical', hfinite, hvalue⟩ := hmagnitude
  obtain ⟨hfinite', hrational⟩ :=
    rational_of_canonical hcanonical' hfinite (by rwa [hvalue, abs_abs])
  rw [value_eq_fraction, value_eq_fraction] at hvalue
  refine ⟨hfinite', hrational.trans ?_⟩
  exact_mod_cast hvalue

/-- A number, and how far it may be off from an exact value. -/
structure Near (a : Float32) (x ε : ℚ) : Prop where
  finite : a.isFinite = true
  close : |rational a - x| ≤ ε

/-- A number is not off from its own value. -/
theorem near_const (ha : a.isFinite = true) (h : rational a = x) : Near a x 0 :=
  ⟨ha, by rw [h, sub_self, abs_zero]⟩

theorem Near.mono {ε δ : ℚ} (h : Near a x ε) (hεδ : ε ≤ δ := by norm_num) : Near a x δ :=
  ⟨h.finite, h.close.trans hεδ⟩

theorem Near.nonneg {ε : ℚ} (h : Near a x ε) : 0 ≤ ε := (abs_nonneg _).trans h.close

/-- A result that is close to the exact value for its operands, which is close to another value. -/
theorem Near.trans {ε δ : ℚ} (h : Near a x ε) (hxy : |x - y| ≤ δ) : Near a y (δ + ε) := by
  refine ⟨h.finite, ?_⟩
  calc |rational a - y| ≤ |rational a - x| + |x - y| := abs_sub_le _ _ _
    _ ≤ δ + ε := by linarith [h.close]

/-- The value of a near number is not larger than that of the other one by more than the error. -/
theorem Near.size_le {ε X : ℚ} (h : Near a x ε) (hx : |x| ≤ X) : |rational a| ≤ X + ε := by
  have hsplit : rational a = x + (rational a - x) := by ring
  rw [hsplit]
  exact (abs_add_le _ _).trans (add_le_add hx h.close)

theorem near_of_rounds (h : Rounds binary32 u x) (k : ℤ) (hk : -125 ≤ k ∧ k ≤ 127)
    (hx : |x| < 2 ^ k) : Near (.ofModel (.pack u)) x (2 ^ (k - 25)) := by
  have hbits : ((binary32.mantissaBits : ℕ) : ℤ) = 24 := by decide
  have hmin : binary32.minExponent ≤ k - binary32.mantissaBits := by
    rw [hbits, show binary32.minExponent = -149 by decide]
    omega
  have hpow (n : ℤ) : ((2 ^ n : ℚ) : ℝ) = 2 ^ n := by
    push_cast
    rfl
  have hx' : |(x : ℝ)| < 2 ^ k := by
    rw [← hpow, ← Rat.cast_abs, Rat.cast_lt]
    exact hx
  have hlimit : (2 : ℝ) ^ k < limit binary32 := by
    rw [limit]
    exact zpow_lt_zpow_right₀ one_lt_two (by
      rw [show ((2 ^ (binary32.exponentBits - 1) : ℕ) : ℤ) = 128 by decide]
      omega)
  have hhalf : (2 : ℝ) ^ (k - 24) / 2 = 2 ^ (k - 25) := by
    rw [show k - 24 = k - 25 + 1 by ring, zpow_add_one₀ two_ne_zero,
      mul_div_cancel_right₀ _ two_ne_zero]
  obtain ⟨hfinite, hvalue⟩ :=
    rational_of_rounds h ((abs_nearest_le_of_lt hmin hx').trans_lt hlimit)
  have herror := abs_nearest_sub_le_of_lt hmin hx'
  rw [← hvalue, hbits, hhalf, ← hpow, ← Rat.cast_sub, ← Rat.cast_abs, Rat.cast_le] at herror
  exact ⟨hfinite, herror⟩

/-- The value of a finite result is the exact one rounded. -/
theorem rational_eq_nearest (h : Rounds binary32 u x)
    (hfinite : (Float32.ofModel (.pack u)).isFinite = true) :
    (rational (Float32.ofModel (.pack u)) : ℝ) = nearest binary32 x := by
  have hvalue : extValue (Float32.ofModel (.pack u)).toModel.unpack = result binary32 x :=
    (h.unpack_pack (by decide)).2
  rw [extValue_of_finite hfinite, value_eq_fraction, result] at hvalue
  split_ifs at hvalue with htop hbot
  · exact absurd hvalue (EReal.coe_ne_top _)
  · exact absurd hvalue (EReal.coe_ne_bot _)
  · exact EReal.coe_injective hvalue

/-- A result is finite if the exact one is between zero and a finite number. -/
theorem finite_of_rounds_le (h : Rounds binary32 u x) (hc : c.isFinite = true) (hx : 0 ≤ x)
    (hxc : x ≤ rational c) : (Float32.ofModel (.pack u)).isFinite = true := by
  obtain ⟨hnearest, hlimit⟩ := nearest_rational hc
  have hx' : (0 : ℝ) ≤ x := by exact_mod_cast hx
  have hle := nearest_mono (F := binary32) (show (x : ℝ) ≤ rational c by exact_mod_cast hxc)
  rw [hnearest] at hle
  refine (rational_of_rounds h ?_).1
  rw [abs_of_nonneg (nearest_nonneg hx')]
  exact hle.trans_lt ((le_abs_self _).trans_lt hlimit)

/-- Larger exact results do not give smaller finite results. -/
theorem rational_le_of_rounds {v : UnpackedFloat} (hu : Rounds binary32 u x)
    (hv : Rounds binary32 v y) (hfinite : (Float32.ofModel (.pack u)).isFinite = true)
    (hfinite' : (Float32.ofModel (.pack v)).isFinite = true) (hxy : x ≤ y) :
    rational (.ofModel (.pack u)) ≤ rational (.ofModel (.pack v)) := by
  have hle : (rational (.ofModel (.pack u)) : ℝ) ≤ rational (.ofModel (.pack v)) := by
    rw [rational_eq_nearest hu hfinite, rational_eq_nearest hv hfinite']
    exact nearest_mono (by exact_mod_cast hxy)
  exact_mod_cast hle

/-! ## Operations -/

theorem add_rounds (ha : a.isFinite = true) (hb : b.isFinite = true) :
    Rounds binary32 (.add binary32 a.toModel.unpack b.toModel.unpack)
      ((rational a + rational b : ℚ) : ℝ) := by
  have h := Rounding.add_rounds (canonical_toModel a) (canonical_toModel b) ha hb
  rw [value_eq_fraction, value_eq_fraction] at h
  exact_mod_cast h

theorem sub_rounds (ha : a.isFinite = true) (hb : b.isFinite = true) :
    Rounds binary32 (.sub binary32 a.toModel.unpack b.toModel.unpack)
      ((rational a - rational b : ℚ) : ℝ) := by
  have h := Rounding.sub_rounds (canonical_toModel a) (canonical_toModel b) ha hb
  rw [value_eq_fraction, value_eq_fraction] at h
  exact_mod_cast h

theorem mul_rounds (ha : a.isFinite = true) (hb : b.isFinite = true) :
    Rounds binary32 (.mul binary32 a.toModel.unpack b.toModel.unpack)
      ((rational a * rational b : ℚ) : ℝ) := by
  have h := Rounding.mul_rounds (canonical_toModel a) (canonical_toModel b) ha hb
  rw [value_eq_fraction, value_eq_fraction] at h
  exact_mod_cast h

theorem div_rounds (ha : a.isFinite = true) (hb : b.isFinite = true) (hne : rational b ≠ 0) :
    Rounds binary32 (.div binary32 a.toModel.unpack b.toModel.unpack)
      ((rational a / rational b : ℚ) : ℝ) := by
  have hne' : value b.toModel.unpack ≠ 0 := by
    rw [value_eq_fraction]
    exact_mod_cast hne
  have h := Rounding.div_rounds (F := binary32) (a := a.toModel.unpack) ha hb hne'
  rw [value_eq_fraction, value_eq_fraction] at h
  exact_mod_cast h

/-- A quotient by a number that is not small. -/
theorem finite_div {k n : ℤ} (ha : a.isFinite = true) (hb : b.isFinite = true)
    (hn : 2 ^ n ≤ rational b) (h : |rational a| < 2 ^ (k + n))
    (hk : -125 ≤ k ∧ k ≤ 127 := by decide) :
    (a / b).isFinite = true ∧ |rational (a / b)| < 2 ^ (k + 1) := by
  have hpos : 0 < rational b := (zpow_pos two_pos n).trans_le hn
  have hquotient : |rational a / rational b| < 2 ^ k := by
    rw [abs_div, abs_of_pos hpos, div_lt_iff₀ hpos]
    calc |rational a| < 2 ^ (k + n) := h
      _ = 2 ^ k * 2 ^ n := zpow_add₀ two_ne_zero k n
      _ ≤ 2 ^ k * rational b := mul_le_mul_of_nonneg_left hn (zpow_nonneg zero_le_two k)
  have hnear := near_of_rounds (div_rounds ha hb hpos.ne') k hk hquotient
  refine ⟨hnear.finite, ?_⟩
  calc |rational (a / b)| ≤ |rational a / rational b| + 2 ^ (k - 25) := hnear.size_le le_rfl
    _ < 2 ^ k + 2 ^ k :=
      add_lt_add hquotient (zpow_lt_zpow_right₀ one_lt_two (sub_lt_self k (by decide)))
    _ = 2 ^ (k + 1) := by rw [zpow_add_one₀ two_ne_zero, mul_two]

section

variable {ε δ X Y : ℚ} (ha : Near a x ε) (hb : Near b y δ) (k : ℤ)

include ha hb

theorem Near.add (h : |x + y| ≤ X) (hk : -125 ≤ k ∧ k ≤ 127 := by decide)
    (hsize : X + (ε + δ) < 2 ^ k := by norm_num) :
    Near (a + b) (x + y) (ε + δ + 2 ^ (k - 25)) := by
  have hclose : |rational a + rational b - (x + y)| ≤ ε + δ := by
    rw [add_sub_add_comm]
    exact (abs_add_le _ _).trans (add_le_add ha.close hb.close)
  have hbound : |rational a + rational b| < 2 ^ k := by
    have := abs_sub_abs_le_abs_sub (rational a + rational b) (x + y)
    linarith
  exact (near_of_rounds (add_rounds ha.finite hb.finite) k hk hbound).trans hclose

theorem Near.sub (h : |x - y| ≤ X) (hk : -125 ≤ k ∧ k ≤ 127 := by decide)
    (hsize : X + (ε + δ) < 2 ^ k := by norm_num) :
    Near (a - b) (x - y) (ε + δ + 2 ^ (k - 25)) := by
  have hclose : |rational a - rational b - (x - y)| ≤ ε + δ := by
    rw [sub_sub_sub_comm]
    exact (abs_sub _ _).trans (add_le_add ha.close hb.close)
  have hbound : |rational a - rational b| < 2 ^ k := by
    have := abs_sub_abs_le_abs_sub (rational a - rational b) (x - y)
    linarith
  exact (near_of_rounds (sub_rounds ha.finite hb.finite) k hk hbound).trans hclose

theorem Near.mul (hx : |x| ≤ X) (hy : |y| ≤ Y) (hk : -125 ≤ k ∧ k ≤ 127 := by decide)
    (hsize : (X + ε) * (Y + δ) < 2 ^ k := by norm_num) :
    Near (a * b) (x * y) ((X + ε) * δ + Y * ε + 2 ^ (k - 25)) := by
  have ha' := ha.size_le hx
  have hclose : |rational a * rational b - x * y| ≤ (X + ε) * δ + Y * ε := by
    have hsplit : rational a * rational b - x * y =
        rational a * (rational b - y) + y * (rational a - x) := by ring
    rw [hsplit]
    refine (abs_add_le _ _).trans (add_le_add ?_ ?_)
    · rw [abs_mul]
      exact mul_le_mul ha' hb.close (abs_nonneg _) ((abs_nonneg _).trans ha')
    · rw [abs_mul]
      exact mul_le_mul hy ha.close (abs_nonneg _) ((abs_nonneg _).trans hy)
  have hbound : |rational a * rational b| < 2 ^ k := by
    rw [abs_mul]
    exact (mul_le_mul ha' (hb.size_le hy) (abs_nonneg _) ((abs_nonneg _).trans ha')).trans_lt hsize
  exact (near_of_rounds (mul_rounds ha.finite hb.finite) k hk hbound).trans hclose

theorem Near.div (h : |x / y| ≤ X) (hy : Y ≤ y) (hpos : δ < Y := by norm_num)
    (hk : -125 ≤ k ∧ k ≤ 127 := by decide)
    (hsize : X + (ε + X * δ) / (Y - δ) < 2 ^ k := by norm_num) :
    Near (a / b) (x / y) ((ε + X * δ) / (Y - δ) + 2 ^ (k - 25)) := by
  have hb' : Y - δ ≤ rational b := by linarith [(abs_le.mp hb.close).1]
  have hδ := hb.nonneg
  have hpos' : 0 < Y - δ := sub_pos.mpr hpos
  have hy' : y ≠ 0 := by linarith
  have hne : rational b ≠ 0 := by linarith
  have hclose : |rational a / rational b - x / y| ≤ (ε + X * δ) / (Y - δ) := by
    have hsplit : rational a / rational b - x / y =
        (rational a - x + x / y * (y - rational b)) / rational b := by
      field_simp
      ring
    have hnumerator : |rational a - x + x / y * (y - rational b)| ≤ ε + X * δ := by
      refine (abs_add_le _ _).trans (add_le_add ha.close ?_)
      rw [abs_mul, abs_sub_comm y]
      exact mul_le_mul h hb.close (abs_nonneg _) ((abs_nonneg _).trans h)
    rw [hsplit, abs_div, abs_of_pos (hpos'.trans_le hb')]
    exact div_le_div₀ ((abs_nonneg _).trans hnumerator) hnumerator hpos' hb'
  have hbound : |rational a / rational b| < 2 ^ k := by
    have := abs_sub_abs_le_abs_sub (rational a / rational b) (x / y)
    linarith
  exact (near_of_rounds (div_rounds ha.finite hb.finite hne) k hk hbound).trans hclose

end

/-! ## Whole parts -/

theorem whole_eq_floor (ha : a.isFinite = true) (hnonneg : 0 ≤ rational a)
    (hle : rational a ≤ 65536) : ((whole a : ℕ) : ℤ) = ⌊rational a⌋ := by
  have hword : whole a = min ⌊value a.toModel.unpack⌋₊ 18446744073709551615 := toUInt64_toNat ha
  have hnonneg' : (0 : ℝ) ≤ rational a := by exact_mod_cast hnonneg
  have hfloor : ((⌊value a.toModel.unpack⌋₊ : ℕ) : ℤ) = ⌊rational a⌋ := by
    rw [value_eq_fraction, ← rational, ← Rat.floor_cast (α := ℝ)]
    exact Int.natCast_floor_eq_floor hnonneg'
  have hbound : ⌊rational a⌋ ≤ 65536 := by
    exact_mod_cast (Int.floor_le (rational a)).trans hle
  omega

theorem truncate_of_nonneg {lo hi : ℤ} (ha : a.isFinite = true) (hnonneg : 0 ≤ rational a)
    (hle : rational a ≤ 65536) : truncate lo hi a = min hi ⌊rational a⌋ := by
  have hsign : ¬ a < 0.0 := by
    rw [lt_iff ha rfl, rational_zero]
    exact not_lt.mpr hnonneg
  rw [truncate, if_neg hsign, whole_eq_floor ha hnonneg hle]

/-- The fraction of a negative number is dropped like that of its magnitude. -/
theorem truncate_neg_of_nonneg {lo hi : ℤ} (hlo : lo ≤ 0) (hhi : 0 ≤ hi) (ha : a.isFinite = true)
    (hnonneg : 0 ≤ rational a) (hle : rational a ≤ 65536) :
    truncate lo hi (-a) = max lo (-⌊rational a⌋) := by
  obtain ⟨hfinite, hneg⟩ := rational_neg ha
  rcases hnonneg.eq_or_lt with hzero | hpos
  · rw [← hzero, neg_zero] at hneg
    rw [truncate_of_nonneg hfinite hneg.ge (by rw [hneg]; norm_num), hneg, ← hzero, Int.floor_zero]
    omega
  · have hsign : -a < 0.0 := by
      rw [lt_iff hfinite rfl, hneg, rational_zero]
      exact neg_neg_of_pos hpos
    obtain ⟨hfinite', hneg'⟩ := rational_neg hfinite
    rw [hneg, neg_neg] at hneg'
    rw [truncate, if_pos hsign, whole_eq_floor hfinite' (by rwa [hneg']) (by rwa [hneg']), hneg']

/-! ## The grid -/

/-- From a power of two on the numbers are multiples of the spacing above it. -/
theorem exists_mul_two_zpow {k : ℤ} (h : 2 ^ (k + 23) ≤ rational a) :
    ∃ n : ℤ, rational a = n * 2 ^ k := by
  have hpow : (0 : ℚ) < 2 ^ (k + 23) := zpow_pos two_pos _
  have hcanonical := canonical_toModel a
  rw [rational] at h ⊢
  cases hu : a.toModel.unpack with
  | finite s m e hm =>
    rw [hu] at h hcanonical
    rw [fraction_finite] at h ⊢
    have hdigits : (s.apply m : ℚ) < 2 ^ (24 : ℤ) := by
      have hm' : (m : ℤ) < 2 ^ 24 := by
        exact_mod_cast (Nat.log2_lt hm.ne').mp hcanonical.log.2.1
      have happly : s.apply m ≤ m := by
        cases s with
        | negative => exact (neg_nonpos.mpr m.cast_nonneg).trans m.cast_nonneg
        | positive => exact le_rfl
      exact_mod_cast happly.trans_lt hm'
    have hexponent : k ≤ e := by
      by_contra! hlt
      have hsmall : (2 : ℚ) ^ e ≤ 2 ^ (k - 1) := zpow_le_zpow_right₀ one_le_two (by omega)
      have hproduct : (s.apply m : ℚ) * 2 ^ e < 2 ^ (24 : ℤ) * 2 ^ (k - 1) :=
        mul_lt_mul hdigits hsmall (zpow_pos two_pos e) (by positivity)
      rw [← zpow_add₀ two_ne_zero, show 24 + (k - 1) = k + 23 by ring] at hproduct
      exact absurd (h.trans_lt hproduct) (lt_irrefl _)
    obtain ⟨d, rfl⟩ := Int.le.dest hexponent
    refine ⟨s.apply m * 2 ^ d, ?_⟩
    rw [zpow_add₀ two_ne_zero, zpow_natCast]
    push_cast
    ring
  | infinity s => rw [hu] at h; exact absurd h (not_le.mpr hpow)
  | notANumber => rw [hu] at h; exact absurd h (not_le.mpr hpow)
  | zero s => rw [hu] at h; exact absurd h (not_le.mpr hpow)

end

end SignalPath.Binary32
