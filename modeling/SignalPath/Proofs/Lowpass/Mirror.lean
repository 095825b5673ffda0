import Mathlib
import SignalPath.Proofs.Lowpass.Continuation

/-!
# The rows of a bank mirror each other

The filter of a bank is even: the window depends on the square of the distance from the centre, and
so does the quotient of an odd sine and its argument. The centre of the first row is a coefficient,
around which the row is symmetric. The centre of any other row lies between two of them, and the row
as far from the end of the phases as it is from their start is its reflection. Only the coefficient
on the left edge has no partner, and it is zero.
-/

namespace SignalPath.Bank

variable {K : Type} [Field K] [LinearOrder K] [IsStrictOrderedRing K]

section

variable [Transcendental K]

theorem sinc_neg (hsin : ∀ x : K, Transcendental.sin (-x) = -Transcendental.sin x) (x : K) :
    sinc (-x) = sinc x := by
  simp only [sinc, magnitude_eq_abs, abs_neg, hsin, neg_div_neg_eq]

namespace Prototype

variable {p : Prototype K}

theorem window_neg (x : K) : p.window (-x) = p.window x := by
  simp only [window, magnitude_eq_abs, abs_neg, neg_mul_neg]

variable [Whole K]

/-- The filter is even. -/
theorem value_neg (hsin : ∀ x : K, Transcendental.sin (-x) = -Transcendental.sin x) (x : K) :
    p.value (-x) = p.value x := by
  simp only [value, mul_neg, neg_div, sinc_neg hsin, window_neg]

/-- Two coefficients on opposite sides of the centre agree: together their positions are as far
along as their phases and both halves of the filter. -/
theorem coefficient_mirror (hcast : ∀ i : Int, (ofInt i : K) = i)
    (hsin : ∀ x : K, Transcendental.sin (-x) = -Transcendental.sin x)
    {i i' phases : Nat} {j j' : Int}
    (h : (j : K) + j' = (i + i' : Nat) / phases + 2 * p.half) :
    p.coefficient i phases j = p.coefficient i' phases j' := by
  have hoffset : p.offset i phases j = -p.offset i' phases j' := by
    rw [Nat.cast_add, add_div] at h
    rw [offset_eq hcast, offset_eq hcast]
    linarith
  rw [coefficient, coefficient, hoffset, value_neg hsin]

end Prototype

end

/-- The first row is symmetric around its middle coefficient. Any other row, without its first
coefficient, is the reverse of the row that is as many phases away from the last one. The first
coefficient of every row is zero. -/
theorem rows_mirror [Whole K] [Transcendental K] (hcast : ∀ i : Int, (ofInt i : K) = i)
    (hsin : ∀ x : K, Transcendental.sin (-x) = -Transcendental.sin x)
    (spec : Spec K) (hlength : 3 ≤ spec.length) {τ : Type} (store : K → τ) :
    let rows := (design spec store).rows
    (∀ (i : Fin spec.phases) (j : Fin spec.length), i.val = 0 →
      (rows.get i).get j = (rows.get i).get j.rev) ∧
    (∀ (i i' : Fin spec.phases) (j j' : Fin spec.length), i.val + i'.val = spec.phases →
      j.val + j'.val = spec.length → (rows.get i).get j = (rows.get i').get j') ∧
    ∀ (i : Fin spec.phases) (j : Fin spec.length), j.val = 0 → (rows.get i).get j = store 0 := by
  intro rows
  have hodd := spec.length_odd
  obtain ⟨h, hlast⟩ : ∃ h, spec.length = 2 * h + 1 := ⟨spec.length / 2, by omega⟩
  have hhalf : (Prototype.ofSpec spec).half = (h : K) := by
    rw [Prototype.half_ofSpec hcast, show spec.length / 2 = h by omega]
  refine ⟨fun i j hi => ?_, fun i i' j j' hi hj => ?_, fun i j hj => ?_⟩
  · have hposition : j.val + j.rev.val = 2 * h := by
      rw [Fin.val_rev]
      omega
    rw [get_design, get_design]
    refine congrArg store (Prototype.coefficient_mirror hcast hsin ?_)
    rw [hhalf, hi, Nat.add_zero, Nat.cast_zero, zero_div, zero_add]
    exact_mod_cast hposition
  · have hphases : (spec.phases : K) ≠ 0 := Nat.cast_ne_zero.mpr spec.phases_pos.ne'
    rw [get_design, get_design]
    refine congrArg store (Prototype.coefficient_mirror hcast hsin ?_)
    rw [hhalf, hi, div_self hphases]
    exact_mod_cast show j.val + j'.val = 1 + 2 * h by omega
  · have hpos : 0 < (Prototype.ofSpec spec).half := by
      rw [hhalf]
      exact_mod_cast show 0 < h by omega
    rw [get_design, Prototype.coefficient_of_nonpos hcast hpos (by omega)]

/-- In the filter of five coefficients in two phases the second row is its own reflection. -/
theorem rows_mirror_shortSpec :
    (∀ i : Int, (ofInt i : ℝ) = i) ∧
    (∀ x : ℝ, Transcendental.sin (-x) = -Transcendental.sin x) ∧ 3 ≤ shortSpec.length ∧
    ((design shortSpec id).rows.get (0 : Fin 2)).get (1 : Fin 5) =
      ((design shortSpec id).rows.get (0 : Fin 2)).get (3 : Fin 5) ∧
    ((design shortSpec id).rows.get (1 : Fin 2)).get (2 : Fin 5) =
      ((design shortSpec id).rows.get (1 : Fin 2)).get (3 : Fin 5) ∧
    ((design shortSpec id).rows.get (1 : Fin 2)).get (0 : Fin 5) = 0 := by
  have hcast : ∀ i : Int, (ofInt i : ℝ) = i := fun _ => rfl
  have hsin : ∀ x : ℝ, Transcendental.sin (-x) = -Transcendental.sin x := Real.sin_neg
  have hlength : 3 ≤ shortSpec.length := by decide
  obtain ⟨hmiddle, hreverse, hedge⟩ := rows_mirror hcast hsin shortSpec hlength id
  exact ⟨hcast, hsin, hlength, hmiddle (0 : Fin 2) (1 : Fin 5) rfl,
    hreverse (1 : Fin 2) (1 : Fin 2) (2 : Fin 5) (3 : Fin 5) rfl rfl,
    hedge (1 : Fin 2) (0 : Fin 5) rfl⟩

end SignalPath.Bank
