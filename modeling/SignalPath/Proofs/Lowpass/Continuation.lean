import Mathlib
import SignalPath.Lowpass.Bank

/-!
# The rows of a bank continue each other

The rows of a bank are samples of one filter, so the row that would follow the last one is the first
row moved by one input sample. What makes this hold for rows of finite length are the edges: the
window is zero at its ends, so that the coefficients that enter and leave a row as it moves are zero
too. Nothing here depends on the sine, the root or the Bessel function, and the numbers may be those
of any ordered field.
-/

namespace SignalPath

namespace Bank

variable {K : Type} [Field K]

namespace Prototype

variable [Whole K]

theorem offset_eq (hcast : ∀ i : Int, (ofInt i : K) = i) {p : Prototype K} {phase phases : Nat}
    {j : Int} : p.offset phase phases j = j - (phase / phases + p.half) := by
  simp only [offset, hcast, Int.cast_natCast]

theorem half_ofSpec [Transcendental K] (hcast : ∀ i : Int, (ofInt i : K) = i) (spec : Spec K) :
    (ofSpec spec).half = (spec.length / 2 : Nat) := by
  have hhalf : (ofSpec spec).half = ofInt (spec.length / 2) := rfl
  rw [hhalf, hcast]
  exact_mod_cast rfl

end Prototype

variable [LinearOrder K]

theorem get_design [Whole K] [Transcendental K] {τ : Type} (spec : Spec K) (store : K → τ)
    (phase : Fin spec.phases) (j : Fin spec.length) :
    ((design spec store).rows.get phase).get j =
      store ((Prototype.ofSpec spec).coefficient phase spec.phases (j.val : Int)) := by
  have hrow : (design spec store).rows.get phase = Vector.ofFn _ :=
    Vector.getElem_ofFn phase.isLt
  rw [hrow]
  exact Vector.getElem_ofFn j.isLt

variable [IsStrictOrderedRing K]

theorem magnitude_eq_abs (x : K) : magnitude x = |x| := by
  have hzero : (0.0 : K) = 0 := by norm_num
  rw [magnitude, hzero]
  split_ifs with h
  · exact (abs_of_neg h).symm
  · exact (abs_of_nonneg (not_lt.mp h)).symm

namespace Prototype

variable [Whole K] [Transcendental K] {p : Prototype K} {x : K} {phase phases : Nat} {j : Int}

/-- The filter ends where the window does, and is zero there already. -/
theorem value_of_half_le (hhalf : 0 < p.half) (hx : p.half ≤ |x|) : p.value x = 0 := by
  have hzero : (0.0 : K) = 0 := by norm_num
  have hone : (1.0 : K) = 1 := by norm_num
  have hedge : ¬ magnitude (x / p.half) < 1 := by
    rw [magnitude_eq_abs, abs_div, abs_of_pos hhalf, not_lt, one_le_div₀ hhalf]
    exact hx
  simp only [value, window, hone, if_neg hedge, hzero, mul_zero]

section

variable (hcast : ∀ i : Int, (ofInt i : K) = i)

include hcast

/-- One whole turn of the phases moves the filter by one position. -/
theorem coefficient_add_phases (hphases : 0 < phases) :
    p.coefficient (phase + phases) phases (j + 1) = p.coefficient phase phases j := by
  have hne : (phases : K) ≠ 0 := Nat.cast_ne_zero.mpr hphases.ne'
  have hoffset : p.offset (phase + phases) phases (j + 1) = p.offset phase phases j := by
    rw [offset_eq hcast, offset_eq hcast]
    push_cast
    field_simp
    ring
  rw [coefficient, coefficient, hoffset]

/-- The first position of a row lies on the edge of the window or before it. -/
theorem coefficient_of_nonpos (hhalf : 0 < p.half) (hj : j ≤ 0) :
    p.coefficient phase phases j = 0 := by
  have hshare : (0 : K) ≤ phase / phases := by positivity
  have hposition : (j : K) ≤ 0 := by exact_mod_cast hj
  refine value_of_half_le hhalf (le_abs.mpr (.inr ?_))
  rw [offset_eq hcast]
  linarith

theorem coefficient_of_length_le {length : Nat} (hhalf : 0 < p.half)
    (hlength : (length : K) = 2 * p.half + 1) (hphase : phase < phases) (hj : length ≤ j) :
    p.coefficient phase phases j = 0 := by
  have hshare : (phase : K) / phases < 1 := by
    rw [div_lt_one (by exact_mod_cast Nat.zero_lt_of_lt hphase)]
    exact_mod_cast hphase
  have hposition : (length : K) ≤ j := by exact_mod_cast hj
  refine value_of_half_le hhalf (le_abs.mpr (.inl ?_))
  rw [offset_eq hcast]
  linarith

/-- The last coefficient of the first row lies on the edge of the window. -/
theorem coefficient_last {last : Nat} (hhalf : 0 < p.half) (hlast : (last : K) = 2 * p.half) :
    p.coefficient 0 phases last = 0 := by
  refine value_of_half_le hhalf (le_abs.mpr (.inl ?_))
  rw [offset_eq hcast, Int.cast_natCast, hlast, Nat.cast_zero, zero_div]
  linarith

/-- The row after the last one on some samples is the first one on samples that are one newer. -/
theorem sum_row_after_last {last : Nat} (hphases : 0 < phases) (hhalf : 0 < p.half)
    (hlast : (last : K) = 2 * p.half) (w : Nat → K) :
    ∑ j ∈ Finset.range (last + 1), p.coefficient phases phases j * w j =
      ∑ j ∈ Finset.range (last + 1), p.coefficient 0 phases j * w (j + 1) := by
  have hmoved : ∀ j : Int, p.coefficient phases phases (j + 1) = p.coefficient 0 phases j := by
    intro j
    have hturn : p.coefficient (0 + phases) phases (j + 1) = p.coefficient 0 phases j :=
      coefficient_add_phases hcast hphases
    rwa [Nat.zero_add] at hturn
  have hfirst : p.coefficient phases phases 0 = 0 := coefficient_of_nonpos hcast hhalf le_rfl
  rw [Finset.sum_range_succ', Finset.sum_range_succ, Nat.cast_zero, hfirst,
    coefficient_last hcast hhalf hlast, zero_mul, zero_mul]
  congr 1
  refine Finset.sum_congr rfl fun j _ => ?_
  rw [Nat.cast_succ, hmoved]

end

end Prototype

/-- The row that would follow the last one, on any samples, is the first row on samples that are one
newer. The rows are not cut off either: before and behind a row its phase of the filter is zero. -/
theorem rows_continue [Whole K] [Transcendental K] (hcast : ∀ i : Int, (ofInt i : K) = i)
    (spec : Spec K) (hlength : 3 ≤ spec.length) :
    let tap := fun phase (j : Int) => (Prototype.ofSpec spec).coefficient phase spec.phases j
    (∀ w : Nat → K, ∑ j ∈ Finset.range spec.length, tap spec.phases j * w j =
      ∑ j ∈ Finset.range spec.length, tap 0 j * w (j + 1)) ∧
    (∀ phase < spec.phases, ∀ j : Int, j < 0 ∨ spec.length ≤ j → tap phase j = 0) ∧
    ∀ {τ : Type} (store : K → τ) (phase : Fin spec.phases) (j : Fin spec.length),
      ((design spec store).rows.get phase).get j = store (tap phase j) := by
  intro tap
  have hodd := spec.length_odd
  obtain ⟨h, hlast⟩ : ∃ h, spec.length = 2 * h + 1 := ⟨spec.length / 2, by omega⟩
  have hhalf : (Prototype.ofSpec spec).half = (h : K) := by
    rw [Prototype.half_ofSpec hcast, show spec.length / 2 = h by omega]
  have hpos : 0 < (Prototype.ofSpec spec).half := by
    rw [hhalf]
    exact_mod_cast show 0 < h by omega
  refine ⟨fun w => ?_, fun phase hphase j hj => ?_, fun store => get_design spec store⟩
  · rw [hlast]
    exact Prototype.sum_row_after_last hcast spec.phases_pos hpos (by push_cast [hhalf]; rfl) w
  · rcases hj with hj | hj
    · exact Prototype.coefficient_of_nonpos hcast hpos hj.le
    · exact Prototype.coefficient_of_length_le hcast hpos (by push_cast [hhalf, hlast]; rfl)
        hphase hj

/-! ## Real numbers -/

noncomputable instance : Whole ℝ where
  ofInt := Int.cast
  whole x := ⌊x⌋₊

noncomputable instance : Transcendental ℝ where
  sqrt := Real.sqrt
  sin := Real.sin
  besselI0 := Bessel.i0

/-- A filter of five coefficients in two phases, for five input samples to an output sample. -/
noncomputable def shortSpec : Spec ℝ where
  length := 5
  phases := 2
  ratio := ⟨(5 : Nat), 0⟩
  shape := (9 : Nat)
  length_odd := by decide
  phases_pos := by decide

theorem rows_continue_shortSpec :
    (∀ i : Int, (ofInt i : ℝ) = i) ∧ 3 ≤ shortSpec.length ∧
    ∑ j ∈ Finset.range 5, (Prototype.ofSpec shortSpec).coefficient 2 2 j * (j : ℝ) ^ 2 =
      ∑ j ∈ Finset.range 5, (Prototype.ofSpec shortSpec).coefficient 0 2 j * ((j : ℝ) + 1) ^ 2 ∧
    (Prototype.ofSpec shortSpec).coefficient 1 2 5 = 0 := by
  have hcast : ∀ i : Int, (ofInt i : ℝ) = i := fun _ => rfl
  have hlength : 3 ≤ shortSpec.length := by decide
  obtain ⟨hwrap, hcut, -⟩ := rows_continue hcast shortSpec hlength
  have hsum := hwrap fun j => (j : ℝ) ^ 2
  push_cast at hsum
  exact ⟨hcast, hlength, hsum, hcut 1 (by decide) 5 (.inr (by decide))⟩

end Bank

end SignalPath
