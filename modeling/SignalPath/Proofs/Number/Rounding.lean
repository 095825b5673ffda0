import Mathlib

/-!
# Rounding to a floating-point format

Floating-point numbers of a format lie on grids: between two powers of two their spacing is fixed,
and it does not fall below that of the smallest numbers. Rounding takes a real number to the nearest
point of the grid around it, and to the even one of two that are equally near. It is monotone, keeps
what already lies on the grid, and is off by at most half a spacing.
-/

namespace SignalPath.Rounding

open Float.Model (Format)
open Float.Model.UnpackedFloat (Sign)

/-! ## Values -/

/-- A real number with a sign applied to it. -/
def signed : Sign → ℝ → ℝ
  | .negative, x => -x
  | .positive, x => x

/-- The value of an unpacked number, 0 for what is not a finite number. -/
noncomputable def value : Float.Model.UnpackedFloat → ℝ
  | .finite s m e _ => signed s (m * 2 ^ e)
  | _ => 0

/-! ## The nearest integer -/

/-- The point between two integers. -/
noncomputable def halfway (m : ℕ) : ℝ := m + 1 / 2

/-- The nearest integer, and the even one of two. -/
noncomputable def toEven (x : ℝ) : ℤ :=
  if Int.fract x < 1 / 2 then ⌊x⌋ else if 1 / 2 < Int.fract x then ⌊x⌋ + 1 else ⌊x⌋ + ⌊x⌋ % 2

theorem floor_le_toEven (x : ℝ) : ⌊x⌋ ≤ toEven x := by
  unfold toEven
  split_ifs <;> omega

theorem toEven_le_floor_add_one (x : ℝ) : toEven x ≤ ⌊x⌋ + 1 := by
  unfold toEven
  split_ifs <;> omega

theorem toEven_mono : Monotone toEven := by
  intro x y hxy
  have hfloor := Int.floor_le_floor hxy
  rcases lt_or_eq_of_le hfloor with hlt | heq
  · exact (toEven_le_floor_add_one x).trans ((Int.add_one_le_of_lt hlt).trans (floor_le_toEven y))
  · have hfract : Int.fract x ≤ Int.fract y := by
      unfold Int.fract
      rw [heq]
      linarith
    unfold toEven
    rw [heq]
    split_ifs <;> first | omega | (exfalso; linarith)

@[simp]
theorem toEven_intCast (n : ℤ) : toEven n = n := by
  unfold toEven
  rw [Int.fract_intCast, Int.floor_intCast, if_pos (by norm_num)]

@[simp]
theorem toEven_neg (x : ℝ) : toEven (-x) = -toEven x := by
  by_cases hx : Int.fract x = 0
  · obtain ⟨n, rfl⟩ : ∃ n : ℤ, (n : ℝ) = x := ⟨⌊x⌋, by linarith [Int.self_sub_floor x]⟩
    rw [← Int.cast_neg, toEven_intCast, toEven_intCast]
  · have hfract := Int.fract_neg hx
    have hfloor : ⌊-x⌋ = -⌊x⌋ - 1 := by
      have h := Int.self_sub_floor (-x)
      have h' := Int.self_sub_floor x
      have : ((⌊-x⌋ : ℤ) : ℝ) = ((-⌊x⌋ - 1 : ℤ) : ℝ) := by
        push_cast
        linarith
      exact_mod_cast this
    unfold toEven
    rw [hfract, hfloor]
    split_ifs <;> first | omega | (exfalso; linarith)

theorem abs_toEven_sub_le (x : ℝ) : |(toEven x : ℝ) - x| ≤ 1 / 2 := by
  have hfract := Int.self_sub_floor x
  have hnonneg := Int.fract_nonneg x
  have hlt := Int.fract_lt_one x
  unfold toEven
  split_ifs with hlow hhigh
  · rw [abs_le]
    constructor <;> linarith
  · rw [abs_le]
    push_cast
    constructor <;> linarith
  · have hhalf : Int.fract x = 1 / 2 := by linarith
    rw [abs_le]
    rcases Int.emod_two_eq_zero_or_one ⌊x⌋ with h | h
    all_goals
      rw [h]
      push_cast
      constructor <;> linarith

/-! ## The grid of a format -/

section

variable {F : Format} {x y : ℝ}

/-- The exponent of the spacing of the format's numbers around `x`. -/
noncomputable def gridExponent (F : Format) (x : ℝ) : ℤ :=
  F.targetExponent (Int.log 2 |x| + 1)

/-- The number of the format nearest to `x`, as if the format had no largest number. -/
noncomputable def nearest (F : Format) (x : ℝ) : ℝ :=
  toEven (x / 2 ^ gridExponent F x) * 2 ^ gridExponent F x

/-- The numbers of a format lie below this limit. -/
noncomputable def limit (F : Format) : ℝ := 2 ^ ((2 ^ (F.exponentBits - 1) : ℕ) : ℤ)

/-- The share by which rounding may change a number with 53 digits. -/
noncomputable def epsilon : ℝ := 2 ^ (-53 : ℤ)

theorem two_zpow_pos (n : ℤ) : (0 : ℝ) < 2 ^ n := zpow_pos (by norm_num) n

theorem two_zpow_mono {m n : ℤ} (h : m ≤ n) : (2 : ℝ) ^ m ≤ 2 ^ n :=
  zpow_le_zpow_right₀ (by norm_num) h

theorem two_zpow_log_le {x : ℝ} (hx : 0 < x) : 2 ^ Int.log 2 x ≤ x := by
  exact_mod_cast Int.zpow_log_le_self (b := 2) (by norm_num) hx

theorem lt_two_zpow_log {x : ℝ} : x < 2 ^ (Int.log 2 x + 1) := by
  exact_mod_cast Int.lt_zpow_succ_log_self (b := 2) (by norm_num) x

/-- A power of two lies on every finer grid. -/
theorem exists_two_zpow_eq {k e : ℤ} (h : e ≤ k) : ∃ n : ℤ, (2 : ℝ) ^ k = n * 2 ^ e := by
  refine ⟨2 ^ (k - e).toNat, ?_⟩
  push_cast
  rw [← zpow_natCast, ← zpow_add₀ (by norm_num)]
  congr 1
  omega

theorem minExponent_le_gridExponent : F.minExponent ≤ gridExponent F x :=
  le_max_right _ _

theorem log_lt_gridExponent_add : Int.log 2 |x| < gridExponent F x + F.mantissaBits := by
  have h : Int.log 2 |x| + 1 - F.mantissaBits ≤ gridExponent F x := le_max_left _ _
  omega

/-- Below a bound on the size of a number its grid is at least as fine as that of the bound. -/
theorem gridExponent_le {e : ℤ} (hmin : F.minExponent ≤ e)
    (hlog : Int.log 2 |x| < e + F.mantissaBits) : gridExponent F x ≤ e :=
  max_le (by omega) hmin

theorem gridExponent_mono (hx : x ≠ 0) (hxy : |x| ≤ |y|) : gridExponent F x ≤ gridExponent F y := by
  have hlog := Int.log_mono_right (b := 2) (abs_pos.mpr hx) hxy
  exact max_le_max (by omega) le_rfl

@[simp]
theorem gridExponent_neg : gridExponent F (-x) = gridExponent F x := by
  rw [gridExponent, abs_neg, gridExponent]

@[simp]
theorem nearest_neg : nearest F (-x) = -nearest F x := by
  rw [nearest, gridExponent_neg, neg_div, toEven_neg, nearest]
  push_cast
  ring

@[simp]
theorem nearest_zero : nearest F 0 = 0 := by
  rw [nearest, zero_div, ← Int.cast_zero, toEven_intCast, Int.cast_zero, zero_mul]

/-- Rounding does not pass a point of the grid upwards. -/
theorem nearest_le_of_grid {n : ℤ} (h : x ≤ n * 2 ^ gridExponent F x) :
    nearest F x ≤ n * 2 ^ gridExponent F x := by
  have hpos := two_zpow_pos (gridExponent F x)
  have hle : toEven (x / 2 ^ gridExponent F x) ≤ n := by
    rw [← toEven_intCast n]
    exact toEven_mono ((div_le_iff₀ hpos).mpr h)
  exact mul_le_mul_of_nonneg_right (by exact_mod_cast hle) hpos.le

/-- Rounding does not pass a point of the grid downwards. -/
theorem le_nearest_of_grid {n : ℤ} (h : n * 2 ^ gridExponent F x ≤ x) :
    n * 2 ^ gridExponent F x ≤ nearest F x := by
  have hpos := two_zpow_pos (gridExponent F x)
  have hle : n ≤ toEven (x / 2 ^ gridExponent F x) := by
    rw [← toEven_intCast n]
    exact toEven_mono ((le_div_iff₀ hpos).mpr h)
  exact mul_le_mul_of_nonneg_right (by exact_mod_cast hle) hpos.le

/-- A point of its own grid is kept. -/
theorem nearest_of_grid {n : ℤ} (h : x = n * 2 ^ gridExponent F x) : nearest F x = x := by
  refine le_antisymm ?_ ?_
  · conv_rhs => rw [h]
    exact nearest_le_of_grid h.le
  · conv_lhs => rw [h]
    exact le_nearest_of_grid h.ge

theorem nearest_le_two_zpow {k : ℤ} (hk : gridExponent F x ≤ k) (h : x ≤ 2 ^ k) :
    nearest F x ≤ 2 ^ k := by
  obtain ⟨n, hn⟩ := exists_two_zpow_eq hk
  rw [hn] at h ⊢
  exact nearest_le_of_grid h

theorem two_zpow_le_nearest {k : ℤ} (hk : gridExponent F x ≤ k) (h : 2 ^ k ≤ x) :
    2 ^ k ≤ nearest F x := by
  obtain ⟨n, hn⟩ := exists_two_zpow_eq hk
  rw [hn] at h ⊢
  exact le_nearest_of_grid h

theorem nearest_nonneg (hx : 0 ≤ x) : 0 ≤ nearest F x := by
  have h := le_nearest_of_grid (F := F) (x := x) (n := 0) (by simpa using hx)
  simpa using h

/-- Rounding positive numbers is monotone. If the grids differ, a power of two lies between the
numbers and on both grids. -/
theorem nearest_mono_of_pos (hx : 0 < x) (hxy : x ≤ y) : nearest F x ≤ nearest F y := by
  have hy : 0 < y := hx.trans_le hxy
  have hgrid : gridExponent F x ≤ gridExponent F y :=
    gridExponent_mono hx.ne' (by rwa [abs_of_pos hx, abs_of_pos hy])
  rcases lt_or_eq_of_le hgrid with hlt | heq
  · have hx' : gridExponent F x < Int.log 2 y + 1 - F.mantissaBits ∧
        gridExponent F y = Int.log 2 y + 1 - F.mantissaBits := by
      have hmin := minExponent_le_gridExponent (F := F) (x := x)
      rw [gridExponent.eq_1 F y, Format.targetExponent, abs_of_pos hy] at hlt ⊢
      omega
    have hlog := log_lt_gridExponent_add (F := F) (x := x)
    rw [abs_of_pos hx] at hlog
    have hbits : 0 < F.mantissaBits := by
      unfold Format.mantissaBits
      omega
    have hbelow : x ≤ 2 ^ Int.log 2 y := lt_two_zpow_log.le.trans (two_zpow_mono (by omega))
    exact (nearest_le_two_zpow (by omega) hbelow).trans
      (two_zpow_le_nearest (by omega) (two_zpow_log_le hy))
  · have hpos := two_zpow_pos (gridExponent F y)
    have hle := toEven_mono ((div_le_div_iff_of_pos_right hpos).mpr hxy)
    unfold nearest
    rw [heq]
    exact mul_le_mul_of_nonneg_right (by exact_mod_cast hle) hpos.le

/-- Rounding is monotone. -/
theorem nearest_mono : Monotone (nearest F) := by
  intro x y hxy
  rcases lt_trichotomy x 0 with hx | rfl | hx
  · rcases le_or_gt 0 y with hy | hy
    · refine le_trans ?_ (nearest_nonneg hy)
      have h := nearest_nonneg (F := F) (x := -x) (by linarith)
      rw [nearest_neg] at h
      linarith
    · have h := nearest_mono_of_pos (F := F) (x := -y) (y := -x) (by linarith) (by linarith)
      rw [nearest_neg, nearest_neg] at h
      linarith
  · rw [nearest_zero]
    exact nearest_nonneg hxy
  · exact nearest_mono_of_pos hx hxy

/-- A number with few enough binary digits is kept. -/
theorem nearest_of_digits {n e : ℤ} (hmin : F.minExponent ≤ e) (hn : |n| < 2 ^ F.mantissaBits) :
    nearest F (n * 2 ^ e) = n * 2 ^ e := by
  rcases eq_or_ne n 0 with rfl | hne
  · simp
  · have hsize : |(n : ℝ) * 2 ^ e| < 2 ^ (e + F.mantissaBits) := by
      have hn' : |(n : ℝ)| < 2 ^ F.mantissaBits := by exact_mod_cast hn
      rw [abs_mul, abs_of_pos (two_zpow_pos e), add_comm, zpow_add₀ (by norm_num), zpow_natCast]
      exact mul_lt_mul_of_pos_right hn' (two_zpow_pos e)
    have hpos : 0 < |(n : ℝ) * 2 ^ e| := by
      rw [abs_pos]
      exact mul_ne_zero (by exact_mod_cast hne) (two_zpow_pos e).ne'
    have hlog : Int.log 2 |(n : ℝ) * 2 ^ e| < e + F.mantissaBits := by
      rw [← Int.lt_zpow_iff_log_lt (by norm_num) hpos]
      exact_mod_cast hsize
    obtain ⟨k, hk⟩ := exists_two_zpow_eq (gridExponent_le hmin hlog)
    refine nearest_of_grid (n := n * k) ?_
    push_cast
    rw [mul_assoc, ← hk]

/-- Rounding is off by at most half a spacing. -/
theorem abs_nearest_sub_le : |nearest F x - x| ≤ 2 ^ gridExponent F x / 2 := by
  have hpos := two_zpow_pos (gridExponent F x)
  have hround := abs_toEven_sub_le (x / 2 ^ gridExponent F x)
  have hscale : nearest F x - x =
      ((toEven (x / 2 ^ gridExponent F x) : ℝ) - x / 2 ^ gridExponent F x) *
        2 ^ gridExponent F x := by
    rw [nearest, sub_mul, div_mul_cancel₀ _ hpos.ne']
  rw [hscale, abs_mul, abs_of_pos hpos]
  linarith [mul_le_mul_of_nonneg_right hround hpos.le]

/-- Below a power of two that is not among the smallest numbers the spacing is known. -/
theorem gridExponent_le_of_lt {k : ℤ} (hmin : F.minExponent ≤ k - F.mantissaBits) (hx : x ≠ 0)
    (h : |x| < 2 ^ k) : gridExponent F x ≤ k - F.mantissaBits := by
  refine gridExponent_le hmin ?_
  rw [sub_add_cancel, ← Int.lt_zpow_iff_log_lt (by norm_num) (abs_pos.mpr hx)]
  exact_mod_cast h

/-- Below a power of two rounding is off by at most half the spacing below that power. -/
theorem abs_nearest_sub_le_of_lt {k : ℤ} (hmin : F.minExponent ≤ k - F.mantissaBits)
    (h : |x| < 2 ^ k) : |nearest F x - x| ≤ 2 ^ (k - F.mantissaBits) / 2 := by
  rcases eq_or_ne x 0 with rfl | hx
  · rw [nearest_zero, sub_zero, abs_zero]
    exact (half_pos (two_zpow_pos _)).le
  · have hspacing := two_zpow_mono (gridExponent_le_of_lt hmin hx h)
    linarith [abs_nearest_sub_le (F := F) (x := x)]

/-- Rounding does not pass a power of two. -/
theorem abs_nearest_le_of_lt {k : ℤ} (hmin : F.minExponent ≤ k - F.mantissaBits)
    (h : |x| < 2 ^ k) : |nearest F x| ≤ 2 ^ k := by
  rcases eq_or_ne x 0 with rfl | hx
  · rw [nearest_zero, abs_zero]
    exact (two_zpow_pos k).le
  · have hgrid : gridExponent F x ≤ k := (gridExponent_le_of_lt hmin hx h).trans (by omega)
    obtain ⟨hlo, hhi⟩ := abs_lt.mp h
    refine abs_le.mpr ⟨?_, nearest_le_two_zpow hgrid hhi.le⟩
    have hneg := nearest_le_two_zpow (F := F) (x := -x) (by rwa [gridExponent_neg])
      (neg_le.mp hlo.le)
    rw [nearest_neg] at hneg
    exact neg_le.mp hneg

/-- The spacing is small against the number, unless it is the smallest one. -/
theorem two_zpow_gridExponent_le (hx : x ≠ 0) :
    (2 : ℝ) ^ gridExponent F x ≤ max (|x| * 2 ^ (1 - (F.mantissaBits : ℤ))) (2 ^ F.minExponent) := by
  rw [gridExponent, Format.targetExponent]
  rcases max_choice (Int.log 2 |x| + 1 - (F.mantissaBits : ℤ)) F.minExponent with h | h
  · rw [h, add_sub_assoc, zpow_add₀ (by norm_num)]
    exact le_max_of_le_left (mul_le_mul_of_nonneg_right (two_zpow_log_le (abs_pos.mpr hx))
      (two_zpow_pos _).le)
  · rw [h]
    exact le_max_right _ _

/-- Rounding to something at all keeps two thirds of a number, however small it is. -/
theorem two_thirds_le_nearest (hx : 0 ≤ x) (hne : nearest F x ≠ 0) : 2 / 3 * x ≤ nearest F x := by
  have hpos := two_zpow_pos (gridExponent F x)
  have hnonneg := nearest_nonneg (F := F) hx
  have hone : (1 : ℝ) ≤ toEven (x / 2 ^ gridExponent F x) := by
    have hint : 0 < toEven (x / 2 ^ gridExponent F x) := by
      have hlt : 0 < nearest F x := lt_of_le_of_ne hnonneg hne.symm
      rw [nearest] at hlt
      exact_mod_cast pos_of_mul_pos_left hlt hpos.le
    exact_mod_cast hint
  have hround := (abs_le.mp (abs_toEven_sub_le (x / 2 ^ gridExponent F x))).1
  have hscaled : 2 / 3 * (x / 2 ^ gridExponent F x) ≤ toEven (x / 2 ^ gridExponent F x) := by
    rcases le_total (x / 2 ^ gridExponent F x) (3 / 2) with h | h <;> linarith
  have hmul := mul_le_mul_of_nonneg_right hscaled hpos.le
  rwa [mul_assoc, div_mul_cancel₀ _ hpos.ne'] at hmul

/-- Far enough above the smallest numbers rounding is accurate in relation to the number. -/
theorem abs_nearest_sub_le_mul (ε : ℝ) (hx : x ≠ 0)
    (hbits : (2 : ℝ) ^ (1 - (F.mantissaBits : ℤ)) ≤ 2 * ε) (hmin : 2 ^ F.minExponent ≤ 2 * ε * |x|) :
    |nearest F x - x| ≤ ε * |x| := by
  have hspacing := two_zpow_gridExponent_le (F := F) hx
  have hsmall : max (|x| * 2 ^ (1 - (F.mantissaBits : ℤ))) (2 ^ F.minExponent) ≤ 2 * ε * |x| := by
    refine max_le ?_ hmin
    rw [mul_comm]
    exact mul_le_mul_of_nonneg_right hbits (abs_nonneg x)
  linarith [abs_nearest_sub_le (F := F) (x := x)]

end

end SignalPath.Rounding
