import Mathlib.Tactic.Linarith
import Mathlib.Tactic.Ring
import SignalPath.Curve.Spline

/-!
# How steeply a spline rises

The slope of a cubic is a quadratic. Over a range it lies between the smallest and the largest of
its three Bernstein coefficients: the slopes at both ends, and the polar form of the slope there.
So three comparisons for each piece bound the slope of a spline everywhere, and with it how much the
spline rises between any two points. `Spline.risesWithin` makes these comparisons, and compares the
pieces where they meet.
-/

namespace SignalPath

namespace Cubic

variable (p : Cubic Rat) {lo hi l u x y : Rat}

/-- The slope with its two factors of the argument told apart. -/
def polarSlope (x y : Rat) : Rat :=
  3 * p.a * (x - p.origin) * (y - p.origin) + p.b * (x - p.origin + (y - p.origin)) + p.c

/-- The Bernstein coefficients of the slope over a range lie between two bounds. -/
def slopeWithin (lo hi l u : Rat) : Bool :=
  (lo ≤ p.polarSlope l l && p.polarSlope l l ≤ hi) &&
  (lo ≤ p.polarSlope l u && p.polarSlope l u ≤ hi) &&
  (lo ≤ p.polarSlope u u && p.polarSlope u u ≤ hi)

theorem slopeWithin_iff : p.slopeWithin lo hi l u = true ↔
    (lo ≤ p.polarSlope l l ∧ p.polarSlope l l ≤ hi) ∧
    (lo ≤ p.polarSlope l u ∧ p.polarSlope l u ≤ hi) ∧
    (lo ≤ p.polarSlope u u ∧ p.polarSlope u u ≤ hi) := by
  simp only [slopeWithin, Bool.and_eq_true, decide_eq_true_iff, and_assoc]

theorem slope_eq_polarSlope (x : Rat) : p.slope x = p.polarSlope x x := by
  have htwo : (2.0 : Rat) = 2 := by norm_num
  have hthree : (3.0 : Rat) = 3 := by norm_num
  rw [slope, polarSlope, htwo, hthree]
  ring

/-- The slope as a mean of its Bernstein coefficients. -/
theorem sq_mul_slope (l u x : Rat) :
    (u - l) ^ 2 * p.slope x =
      (u - x) ^ 2 * p.polarSlope l l + 2 * (u - x) * (x - l) * p.polarSlope l u +
        (x - l) ^ 2 * p.polarSlope u u := by
  rw [slope_eq_polarSlope]
  simp only [polarSlope]
  ring

theorem slope_mem (h : p.slopeWithin lo hi l u = true) (hlu : l < u) (hl : l ≤ x) (hu : x ≤ u) :
    lo ≤ p.slope x ∧ p.slope x ≤ hi := by
  obtain ⟨⟨h0, h0'⟩, ⟨h1, h1'⟩, h2, h2'⟩ := p.slopeWithin_iff.mp h
  have hsq : 0 < (u - l) ^ 2 := pow_pos (by linarith) 2
  have hu2 : 0 ≤ (u - x) ^ 2 := sq_nonneg _
  have hmid : 0 ≤ 2 * (u - x) * (x - l) :=
    mul_nonneg (mul_nonneg (by norm_num) (by linarith)) (by linarith)
  have hl2 : 0 ≤ (x - l) ^ 2 := sq_nonneg _
  have hslope := p.sq_mul_slope l u x
  -- The weights of the mean.
  have hweights : (u - l) ^ 2 = (u - x) ^ 2 + 2 * (u - x) * (x - l) + (x - l) ^ 2 := by ring
  constructor
  · refine le_of_mul_le_mul_left ?_ hsq
    rw [hslope, hweights]
    linarith [mul_le_mul_of_nonneg_left h0 hu2, mul_le_mul_of_nonneg_left h1 hmid,
      mul_le_mul_of_nonneg_left h2 hl2]
  · refine le_of_mul_le_mul_left ?_ hsq
    rw [hslope, hweights]
    linarith [mul_le_mul_of_nonneg_left h0' hu2, mul_le_mul_of_nonneg_left h1' hmid,
      mul_le_mul_of_nonneg_left h2' hl2]

/-- The rise of a cubic is its slope at both ends and in the middle, weighed as in Simpson's
rule. -/
theorem value_sub_value (x y : Rat) :
    p.value y - p.value x =
      (y - x) * ((p.slope x + 4 * p.slope ((x + y) / 2) + p.slope y) / 6) := by
  simp only [value, slope_eq_polarSlope, polarSlope]
  ring

/-- A cubic whose slope lies between two bounds rises between them. -/
theorem rise_mem (h : p.slopeWithin lo hi l u = true) (hl : l ≤ x) (hxy : x ≤ y) (hu : y ≤ u) :
    lo * (y - x) ≤ p.value y - p.value x ∧ p.value y - p.value x ≤ hi * (y - x) := by
  rcases hxy.eq_or_lt with rfl | hlt
  · simp
  · have hx := p.slope_mem h (by linarith) hl (by linarith)
    have hy := p.slope_mem h (by linarith) (show l ≤ y by linarith) hu
    have hmid := p.slope_mem h (by linarith) (show l ≤ (x + y) / 2 by linarith) (by linarith)
    rw [value_sub_value, mul_comm lo, mul_comm hi]
    constructor
    · exact mul_le_mul_of_nonneg_left (by linarith) (by linarith)
    · exact mul_le_mul_of_nonneg_left (by linarith) (by linarith)

end Cubic

namespace Spline

/-- Over a range every piece has a slope between two bounds, and the pieces meet. -/
def risesWithin (lo hi l u : Rat) : List (Piece Rat) → Cubic Rat → Bool
  | [], last => last.slopeWithin lo hi l u
  | p :: inner, last =>
    if p.upper < l then risesWithin lo hi l u inner last
    else if u ≤ p.upper then p.cubic.slopeWithin lo hi l u
    else p.cubic.slopeWithin lo hi l p.upper &&
      p.cubic.value p.upper == (⟨inner, last⟩ : Spline Rat).value p.upper &&
      risesWithin lo hi p.upper u inner last

section

variable {p : Piece Rat} {inner : List (Piece Rat)} {last : Cubic Rat} {lo hi l u x y : Rat}

theorem value_cons_of_le (h : x ≤ p.upper) :
    (⟨p :: inner, last⟩ : Spline Rat).value x = p.cubic.value x := by
  simp [value, cubicAt, not_lt.mpr h]

theorem value_cons_of_lt (h : p.upper < x) :
    (⟨p :: inner, last⟩ : Spline Rat).value x = (⟨inner, last⟩ : Spline Rat).value x := by
  simp [value, cubicAt, h]

/-- A spline whose pieces have slopes between two bounds rises between them. -/
theorem rise_mem (h : risesWithin lo hi l u inner last = true) (hl : l ≤ x) (hxy : x ≤ y)
    (hu : y ≤ u) :
    lo * (y - x) ≤ (⟨inner, last⟩ : Spline Rat).value y - (⟨inner, last⟩ : Spline Rat).value x ∧
      (⟨inner, last⟩ : Spline Rat).value y - (⟨inner, last⟩ : Spline Rat).value x ≤
        hi * (y - x) := by
  induction inner generalizing l x with
  | nil => exact last.rise_mem h hl hxy hu
  | cons p inner ih =>
    unfold risesWithin at h
    split_ifs at h with hbelow habove
    · rw [value_cons_of_lt (show p.upper < x by linarith), value_cons_of_lt (by linarith)]
      exact ih h hl hxy
    · rw [value_cons_of_le (show x ≤ p.upper by linarith), value_cons_of_le (by linarith)]
      exact p.cubic.rise_mem h hl hxy hu
    · simp only [Bool.and_eq_true, beq_iff_eq] at h
      obtain ⟨⟨hpiece, hmeets⟩, hrest⟩ := h
      rcases le_or_gt y p.upper with hy | hy
      · rw [value_cons_of_le hy, value_cons_of_le (hxy.trans hy)]
        exact p.cubic.rise_mem hpiece hl hxy hy
      · rw [value_cons_of_lt hy]
        rcases le_or_gt x p.upper with hx | hx
        · -- The rise up to where the pieces meet, and the rise from there on.
          obtain ⟨hlo, hhi⟩ := p.cubic.rise_mem hpiece hl hx le_rfl
          obtain ⟨hlo', hhi'⟩ := ih hrest le_rfl hy.le
          rw [value_cons_of_le hx]
          rw [hmeets] at hlo hhi
          constructor
          · linarith
          · linarith
        · rw [value_cons_of_lt hx]
          exact ih hrest hx.le hxy

end

end Spline

end SignalPath
