import Mathlib.Algebra.Order.BigOperators.Ring.Finset
import SignalPath.Proofs.Lowpass.Series

/-!
# The Bessel function grows

Each argument has its own number of terms, so it is not enough that every partial sum grows. But the
larger of two positive arguments needs at least as many terms: the later a term, the faster it grows
with the argument, so a term that is too large to end the sum for the smaller argument is too large
for the larger one. The larger argument has the larger terms and no fewer of them.
-/

namespace SignalPath.Bessel

section

variable {x y : Rat}

@[simp]
theorem seriesTerm_neg (x : Rat) (k : Nat) : seriesTerm (-x) k = seriesTerm x k := by
  rw [seriesTerm, seriesTerm, neg_div, (even_two_mul k).neg_pow]

@[simp]
theorem partialSum_neg (x : Rat) (n : Nat) : partialSum (-x) n = partialSum x n := by
  simp only [partialSum, seriesTerm_neg]

@[simp]
theorem ends_neg {k : Nat} : Ends (-x) k ↔ Ends x k := by
  rw [Ends, Ends, seriesTerm_neg, partialSum_neg]

@[simp]
theorem i0_neg (x : Rat) : i0 (-x) = i0 x := by
  obtain ⟨last, hlast⟩ := exists_isLeast_ends x
  have hlast' : IsLeast {k | Ends (-x) k} last := by simpa only [ends_neg] using hlast
  rw [i0_eq_partialSum hlast', i0_eq_partialSum hlast, partialSum_neg]

theorem seriesTerm_le (hx : 0 ≤ x) (hxy : x ≤ y) (k : Nat) : seriesTerm x k ≤ seriesTerm y k := by
  unfold seriesTerm
  gcongr

/-- From the second term on the sums of a larger argument are larger. -/
theorem partialSum_lt (hx : 0 ≤ x) (hxy : x < y) {n : Nat} (hn : 1 < n) :
    partialSum x n < partialSum y n := by
  refine Finset.sum_lt_sum (fun k _ => seriesTerm_le hx hxy.le k) ⟨1, Finset.mem_range.mpr hn, ?_⟩
  have hsquare : x ^ 2 < y ^ 2 := pow_lt_pow_left₀ hxy hx two_ne_zero
  rw [seriesTerm, seriesTerm, Nat.factorial_one]
  norm_num [div_pow]
  linarith

/-- A term grows faster with the argument than every term before it. -/
theorem seriesTerm_mul_le (hx : 0 ≤ x) (hxy : x ≤ y) {j k : Nat} (hjk : j ≤ k) :
    seriesTerm x k * seriesTerm y j ≤ seriesTerm y k * seriesTerm x j := by
  obtain ⟨d, rfl⟩ := Nat.exists_eq_add_of_le hjk
  have hhalf : (0 : Rat) ≤ x / 2 := by linarith
  have hpowers : (x / 2) ^ (2 * (j + d)) * (y / 2) ^ (2 * j) ≤
      (y / 2) ^ (2 * (j + d)) * (x / 2) ^ (2 * j) := by
    calc (x / 2) ^ (2 * (j + d)) * (y / 2) ^ (2 * j)
        = (x / 2) ^ (2 * j) * (y / 2) ^ (2 * j) * (x / 2) ^ (2 * d) := by ring
      _ ≤ (x / 2) ^ (2 * j) * (y / 2) ^ (2 * j) * (y / 2) ^ (2 * d) := by
          have : (0 : Rat) ≤ y / 2 := by linarith
          gcongr
      _ = (y / 2) ^ (2 * (j + d)) * (x / 2) ^ (2 * j) := by ring
  rw [seriesTerm, seriesTerm, seriesTerm, seriesTerm, div_mul_div_comm, div_mul_div_comm]
  exact div_le_div_of_nonneg_right hpowers (by positivity)

theorem seriesTerm_mul_partialSum_le (hx : 0 ≤ x) (hxy : x ≤ y) (k : Nat) :
    seriesTerm x k * partialSum y (k + 1) ≤ seriesTerm y k * partialSum x (k + 1) := by
  rw [partialSum, partialSum, Finset.mul_sum, Finset.mul_sum]
  refine Finset.sum_le_sum fun j hj => seriesTerm_mul_le hx hxy ?_
  exact Nat.le_of_lt_succ (Finset.mem_range.mp hj)

/-- A term that ends the sum for an argument ends it for the smaller ones too. -/
theorem Ends.of_le (hx : 0 ≤ x) (hxy : x ≤ y) {k : Nat} (h : Ends y k) : Ends x k := by
  have hcross := seriesTerm_mul_partialSum_le hx hxy k
  have hpos : 0 < partialSum x (k + 1) := zero_lt_one.trans_le (one_le_partialSum x k)
  have hpos' : 0 < partialSum y (k + 1) := zero_lt_one.trans_le (one_le_partialSum y k)
  refine lt_of_mul_lt_mul_right ?_ hpos'.le
  calc seriesTerm x k * partialSum y (k + 1)
      ≤ seriesTerm y k * partialSum x (k + 1) := hcross
    _ < tolerance * partialSum y (k + 1) * partialSum x (k + 1) := mul_lt_mul_of_pos_right h hpos
    _ = tolerance * partialSum x (k + 1) * partialSum y (k + 1) := mul_right_comm _ _ _

/-- A larger argument has no fewer terms. -/
theorem last_le_last (hx : 0 ≤ x) (hxy : x ≤ y) {last last' : Nat}
    (hlast : IsLeast {k | Ends x k} last) (hlast' : IsLeast {k | Ends y k} last') :
    last ≤ last' :=
  hlast.2 (hlast'.1.of_le hx hxy)

theorem i0_lt (hx : 0 ≤ x) (hxy : x < y) : i0 x < i0 y := by
  obtain ⟨last, hlast⟩ := exists_isLeast_ends x
  obtain ⟨last', hlast'⟩ := exists_isLeast_ends y
  have hle := last_le_last hx hxy.le hlast hlast'
  have hpos : 0 < last' := Nat.pos_of_ne_zero fun h => not_ends_zero y (h ▸ hlast'.1)
  calc i0 x = partialSum x (last + 1) := i0_eq_partialSum hlast
    _ ≤ partialSum x (last' + 1) := partialSum_mono x (Nat.add_le_add_right hle 1)
    _ < partialSum y (last' + 1) := partialSum_lt hx hxy (by omega)
    _ = i0 y := (i0_eq_partialSum hlast').symm

end

/-- The computed Bessel function is even, and on the numbers that are not negative it is strictly
increasing, although the larger of two arguments may take more terms. -/
theorem i0_even_and_increasing :
    (∀ x : Rat, i0 (-x) = i0 x) ∧ ∀ x y : Rat, 0 ≤ x → x < y → i0 x < i0 y :=
  ⟨i0_neg, fun _ _ hx hxy => i0_lt hx hxy⟩

/-- At 0 the sum ends with its first term after the constant one, and at 20 it does not. -/
theorem i0_increasing_to_twenty :
    (0 : Rat) ≤ 0 ∧ (0 : Rat) < 20 ∧ Ends 0 1 ∧ ¬ Ends 20 1 ∧ i0 (-20 : Rat) = i0 20 ∧
    i0 (0 : Rat) < i0 20 := by
  obtain ⟨heven, hincreasing⟩ := i0_even_and_increasing
  have hpos : (0 : Rat) < 20 := by norm_num
  refine ⟨le_rfl, hpos, ?_, ?_, heven 20, hincreasing 0 20 le_rfl hpos⟩
  · rw [ends_iff]
    norm_num [seriesTerm, partialSum, Finset.sum_range_succ]
  · rw [ends_iff]
    norm_num [seriesTerm, partialSum, Finset.sum_range_succ]

end SignalPath.Bessel
