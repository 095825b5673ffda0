import Mathlib.Data.Rat.Floor
import Mathlib.Tactic.FieldSimp
import Mathlib.Tactic.Linarith
import Mathlib.Tactic.Positivity
import Mathlib.Tactic.Ring
import SignalPath.Rate.Limiter

/-!
# The limiter at exact numbers

Above the threshold the limiter takes the distance to the end of the range as its unit: there a
magnitude is the threshold plus the bent excess. The approximation of the hyperbolic tangent rises
up to where it is cut off, and stays below both its argument and 1. So a level never leaves the
range before it is cut to a whole number, and the order of samples is kept over all the pieces.
-/

namespace SignalPath

section

variable {lo hi : Int} {x : Rat}

theorem whole_of_nonneg (h : 0 ≤ x) : (whole x : Int) = ⌊x⌋ :=
  Int.toNat_of_nonneg (Int.floor_nonneg.mpr h)

/-- A value inside the range is cut down to its floor. -/
theorem truncate_eq_floor (h : 0 ≤ x) (hx : x ≤ hi) : truncate lo hi x = ⌊x⌋ := by
  have hzero : (0.0 : Rat) = 0 := by norm_num
  have hfloor : ⌊x⌋ ≤ hi := by exact_mod_cast (Int.floor_le x).trans hx
  rw [truncate, hzero, if_neg (not_lt.mpr h), whole_of_nonneg h, min_eq_right hfloor]

/-- The fraction of a negative value is dropped like that of its magnitude. -/
theorem truncate_neg_eq_neg_floor (hhi : 0 ≤ hi) (h : 0 ≤ x) (hx : x ≤ -lo) :
    truncate lo hi (-x) = -⌊x⌋ := by
  have hzero : (0.0 : Rat) = 0 := by norm_num
  rcases h.eq_or_lt with rfl | hpos
  · rw [neg_zero, truncate_eq_floor le_rfl (by exact_mod_cast hhi), Int.floor_zero, Int.neg_zero]
  · have hfloor : ⌊x⌋ ≤ -lo := by exact_mod_cast (Int.floor_le x).trans hx
    rw [truncate, hzero, if_pos (neg_lt_zero.mpr hpos), neg_neg, whole_of_nonneg h]
    omega

end

namespace Limiter

section

variable {x y limit : Rat}

/-! ## The approximation of the hyperbolic tangent -/

def numerator (x : Rat) : Rat := 945 * x + 105 * x ^ 3 + x ^ 5

def denominator (x : Rat) : Rat := 945 + 420 * x ^ 2 + 15 * x ^ 4

theorem denominator_pos (x : Rat) : 0 < denominator x := by
  unfold denominator
  positivity

theorem tanh_of_lt (h : x < 3) : tanh x = numerator x / denominator x := by
  have hcut : ¬ (3.0 : Rat) ≤ x := by norm_num [h]
  simp only [tanh, if_neg hcut, numerator, denominator]
  norm_num
  congr 1 <;> ring

theorem tanh_of_ge (h : 3 ≤ x) : tanh x = 1 := by
  have hcut : (3.0 : Rat) ≤ x := by norm_num [h]
  simp only [tanh, if_pos hcut]
  norm_num

/-- The difference of two quotients, by the product of their arguments and the distance between
them. -/
theorem numerator_mul_denominator_sub (x y : Rat) :
    numerator y * denominator x - numerator x * denominator y =
      (y - x) * (99225 * (9 - x * y) + 15 * (x * y) ^ 2 * (420 - 21 * (x * y) + (x * y) ^ 2) +
        (y - x) ^ 2 * (99225 - 9450 * (x * y) + 420 * (x * y) ^ 2) + 945 * (y - x) ^ 4) := by
  unfold numerator denominator
  ring

theorem numerator_mul_denominator_le (hx : 0 ≤ x) (hxy : x ≤ y) (hy : y ≤ 3) :
    numerator x * denominator y ≤ numerator y * denominator x := by
  have hproduct : 0 ≤ x * y := mul_nonneg hx (hx.trans hxy)
  have hnine : x * y ≤ 9 := by nlinarith
  -- Both quadratics of the product have no root.
  have hfirst : 0 ≤ 420 - 21 * (x * y) + (x * y) ^ 2 := by nlinarith [sq_nonneg (2 * (x * y) - 21)]
  have hsecond : 0 ≤ 99225 - 9450 * (x * y) + 420 * (x * y) ^ 2 := by
    nlinarith [sq_nonneg (4 * (x * y) - 45)]
  have hdistance : 0 ≤ y - x := sub_nonneg.mpr hxy
  have hnine' : 0 ≤ 9 - x * y := sub_nonneg.mpr hnine
  rw [← sub_nonneg, numerator_mul_denominator_sub]
  positivity

theorem numerator_le_denominator (hx : 0 ≤ x) (hx' : x ≤ 3) : numerator x ≤ denominator x := by
  have hle := numerator_mul_denominator_le hx hx' le_rfl
  have hpos := denominator_pos x
  have hnumerator : numerator 3 = 5913 := by norm_num [numerator]
  have hdenominator : denominator 3 = 5940 := by norm_num [denominator]
  rw [hnumerator, hdenominator] at hle
  linarith

theorem numerator_le_mul_denominator (hx : 0 ≤ x) : numerator x ≤ x * denominator x := by
  have hrest : x * denominator x - numerator x = x ^ 3 * (315 + 14 * x ^ 2) := by
    unfold numerator denominator
    ring
  rw [← sub_nonneg, hrest]
  positivity

theorem tanh_nonneg (hx : 0 ≤ x) : 0 ≤ tanh x := by
  rcases lt_or_ge x 3 with h | h
  · rw [tanh_of_lt h, numerator]
    have hpos := denominator_pos x
    positivity
  · rw [tanh_of_ge h]
    norm_num

theorem tanh_le_one (hx : 0 ≤ x) : tanh x ≤ 1 := by
  rcases lt_or_ge x 3 with h | h
  · rw [tanh_of_lt h, div_le_one₀ (denominator_pos x)]
    exact numerator_le_denominator hx h.le
  · rw [tanh_of_ge h]

theorem tanh_le_self (hx : 0 ≤ x) : tanh x ≤ x := by
  rcases lt_or_ge x 3 with h | h
  · rw [tanh_of_lt h, div_le_iff₀ (denominator_pos x)]
    exact numerator_le_mul_denominator hx
  · rw [tanh_of_ge h]
    linarith

/-- Where the approximation is cut off it jumps, but upwards. -/
theorem tanh_mono (hx : 0 ≤ x) (hxy : x ≤ y) : tanh x ≤ tanh y := by
  rcases lt_or_ge y 3 with h | h
  · rw [tanh_of_lt h, tanh_of_lt (hxy.trans_lt h),
      div_le_div_iff₀ (denominator_pos x) (denominator_pos y)]
    exact numerator_mul_denominator_le hx hxy h.le
  · rw [tanh_of_ge h]
    exact tanh_le_one hx

/-! ## Magnitudes -/

theorem bend_of_lt (h : x < 28000) : bend x limit = x := by
  have hthreshold : x < threshold := by norm_num [threshold, h]
  rw [bend, if_pos hthreshold]

theorem bend_of_ge (hlimit : 28000 < limit) (h : 28000 ≤ x) :
    bend x limit = 28000 + (limit - 28000) * tanh ((x - 28000) / (limit - 28000)) := by
  have hthreshold : (threshold : Rat) = 28000 := by norm_num [threshold]
  have hone : (1.0 : Rat) = 1 := by norm_num
  have hlimit' : limit ≠ 0 := by linarith
  have hheadroom : 1 - 28000 / limit = (limit - 28000) / limit := by
    field_simp
  simp only [bend, hthreshold, hone, if_neg (not_lt.mpr h), hheadroom,
    div_div_div_cancel_right₀ hlimit']
  field_simp

section

variable (hlimit : 28000 < limit)

include hlimit

theorem excess_nonneg (h : 28000 ≤ x) : 0 ≤ (x - 28000) / (limit - 28000) :=
  div_nonneg (sub_nonneg.mpr h) (sub_nonneg.mpr hlimit.le)

theorem le_bend (h : 28000 ≤ x) : 28000 ≤ bend x limit := by
  have hbent := mul_nonneg (sub_nonneg.mpr hlimit.le) (tanh_nonneg (excess_nonneg hlimit h))
  rw [bend_of_ge hlimit h]
  linarith

theorem bend_nonneg (h : 0 ≤ x) : 0 ≤ bend x limit := by
  rcases lt_or_ge x 28000 with hx | hx
  · rwa [bend_of_lt hx]
  · linarith [le_bend hlimit hx]

theorem bend_le_limit (x : Rat) : bend x limit ≤ limit := by
  rcases lt_or_ge x 28000 with hx | hx
  · rw [bend_of_lt hx]
    linarith
  · have hbent := mul_le_mul_of_nonneg_left (tanh_le_one (excess_nonneg hlimit hx))
      (sub_nonneg.mpr hlimit.le)
    rw [bend_of_ge hlimit hx]
    linarith

theorem bend_le_self (x : Rat) : bend x limit ≤ x := by
  rcases lt_or_ge x 28000 with hx | hx
  · rw [bend_of_lt hx]
  · have hbent := mul_le_mul_of_nonneg_left (tanh_le_self (excess_nonneg hlimit hx))
      (sub_nonneg.mpr hlimit.le)
    rw [mul_div_cancel₀ _ (sub_pos.mpr hlimit).ne'] at hbent
    rw [bend_of_ge hlimit hx]
    linarith

theorem bend_mono (hxy : x ≤ y) : bend x limit ≤ bend y limit := by
  rcases lt_or_ge x 28000 with hx | hx
  · rw [bend_of_lt hx]
    rcases lt_or_ge y 28000 with hy | hy
    · rwa [bend_of_lt hy]
    · exact hx.le.trans (le_bend hlimit hy)
  · have hexcess : (x - 28000) / (limit - 28000) ≤ (y - 28000) / (limit - 28000) :=
      div_le_div_of_nonneg_right (by linarith) (by linarith)
    have hbent := mul_le_mul_of_nonneg_left (tanh_mono (excess_nonneg hlimit hx) hexcess)
      (sub_nonneg.mpr hlimit.le)
    rw [bend_of_ge hlimit hx, bend_of_ge hlimit (hx.trans hxy)]
    linarith

end

/-! ## Levels -/

theorem level_of_nonneg (h : 0 ≤ x) : level x = ⌊bend x 32767⌋ := by
  have hzero : (0.0 : Rat) = 0 := by norm_num
  have hlimit : (32767.0 : Rat) = 32767 := by norm_num
  rw [level, hzero, hlimit, if_neg (not_lt.mpr h)]
  exact truncate_eq_floor (bend_nonneg (by norm_num) h)
    (by exact_mod_cast bend_le_limit (by norm_num) x)

theorem level_of_neg (h : x < 0) : level x = ⌈-bend (-x) 32768⌉ := by
  have hzero : (0.0 : Rat) = 0 := by norm_num
  have hlimit : (32768.0 : Rat) = 32768 := by norm_num
  rw [level, hzero, hlimit, if_pos h, Int.ceil_neg]
  exact truncate_neg_eq_neg_floor (by decide) (bend_nonneg (by norm_num) (by linarith))
    (by exact_mod_cast bend_le_limit (by norm_num) (-x))

theorem level_nonneg (h : 0 ≤ x) : 0 ≤ level x := by
  rw [level_of_nonneg h]
  exact Int.floor_nonneg.mpr (bend_nonneg (by norm_num) h)

theorem level_nonpos (h : x ≤ 0) : level x ≤ 0 := by
  rcases h.eq_or_lt with rfl | hneg
  · rw [level_of_nonneg le_rfl, bend_of_lt (by norm_num), Int.floor_zero]
  · rw [level_of_neg hneg, Int.ceil_neg, Left.neg_nonpos_iff]
    exact Int.floor_nonneg.mpr (bend_nonneg (by norm_num) (by linarith))

theorem level_mono (hxy : x ≤ y) : level x ≤ level y := by
  rcases lt_or_ge x 0 with hx | hx
  · rcases lt_or_ge y 0 with hy | hy
    · rw [level_of_neg hx, level_of_neg hy]
      exact Int.ceil_mono (neg_le_neg (bend_mono (by norm_num) (neg_le_neg hxy)))
    · exact (level_nonpos hx.le).trans (level_nonneg hy)
  · rw [level_of_nonneg hx, level_of_nonneg (hx.trans hxy)]
    exact Int.floor_mono (bend_mono (by norm_num) hxy)

/-- The limit that the sign of a sample selects. -/
def limitFor (x : Rat) : Rat := if x < 0 then 32768 else 32767

theorem threshold_lt_limitFor (x : Rat) : 28000 < limitFor x := by
  unfold limitFor
  split <;> norm_num

theorem abs_level (x : Rat) : |level x| = ⌊bend |x| (limitFor x)⌋ := by
  unfold limitFor
  split_ifs with h
  · rw [abs_of_nonpos (level_nonpos h.le), level_of_neg h, abs_of_neg h, Int.ceil_neg, neg_neg]
  · rw [not_lt] at h
    rw [abs_of_nonneg (level_nonneg h), level_of_nonneg h, abs_of_nonneg h]

theorem abs_level_le (x : Rat) : ((|level x| : Int) : Rat) ≤ |x| := by
  rw [abs_level]
  exact (Int.floor_le _).trans (bend_le_self (threshold_lt_limitFor x) _)

theorem le_abs_level (h : 28000 ≤ |x|) : 28000 ≤ |level x| := by
  rw [abs_level, Int.le_floor]
  exact_mod_cast le_bend (threshold_lt_limitFor x) h

end

/-- The limiter keeps the order of samples. A level is never larger than its sample and never of the
other sign, and it keeps the part below the threshold. The bent sample is inside the range before
its fraction is dropped, so that nothing is cut off at the ends. -/
theorem level_contracts :
    (∀ x y : Rat, x ≤ y → level x ≤ level y) ∧
    ∀ x : Rat,
      ((|level x| : Int) : Rat) ≤ |x| ∧ (0 ≤ x → 0 ≤ level x) ∧ (x ≤ 0 → level x ≤ 0) ∧
      (28000 ≤ |x| → 28000 ≤ |level x|) ∧
      (0 ≤ x → bend x 32767 ≤ 32767 ∧ level x = ⌊bend x 32767⌋) ∧
      (x < 0 → bend (-x) 32768 ≤ 32768 ∧ level x = ⌈-bend (-x) 32768⌉) := by
  refine ⟨fun _ _ => level_mono, fun x => ?_⟩
  refine ⟨abs_level_le x, level_nonneg, level_nonpos, le_abs_level, ?_, ?_⟩
  · intro h
    exact ⟨bend_le_limit (by norm_num) x, level_of_nonneg h⟩
  · intro h
    exact ⟨bend_le_limit (by norm_num) (-x), level_of_neg h⟩

/-- A negative sample just before the end of the range, and a positive one beyond its end. -/
theorem level_contracts_loud :
    (-32000 : Rat) ≤ 100000 ∧ level (-32000 : Rat) ≤ level (100000 : Rat) ∧
    level (-32000 : Rat) ≤ 0 ∧ 28000 ≤ |level (-32000 : Rat)| ∧
    bend (32000 : Rat) 32768 ≤ 32768 ∧ 28000 ≤ |level (100000 : Rat)| ∧
    level (100000 : Rat) = ⌊bend (100000 : Rat) 32767⌋ := by
  obtain ⟨hmono, hlevel⟩ := level_contracts
  obtain ⟨-, -, hsign, hloud, -, hbent⟩ := hlevel (-32000)
  obtain ⟨-, -, -, hloud', hbent', -⟩ := hlevel 100000
  have hle : (-32000 : Rat) ≤ 100000 := by norm_num
  have hrange := (hbent (by norm_num)).1
  rw [neg_neg] at hrange
  exact ⟨hle, hmono _ _ hle, hsign (by norm_num), hloud (by norm_num), hrange,
    hloud' (by norm_num), (hbent' (by norm_num)).2⟩

end Limiter

end SignalPath
