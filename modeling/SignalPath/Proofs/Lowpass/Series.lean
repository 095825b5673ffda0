import Mathlib.Algebra.BigOperators.Intervals
import Mathlib.Algebra.Order.BigOperators.Group.Finset
import Mathlib.Data.Nat.Factorial.Basic
import Mathlib.Data.Rat.Floor
import Mathlib.Order.Bounds.Basic
import Mathlib.Tactic.FieldSimp
import Mathlib.Tactic.Linarith
import Mathlib.Tactic.Positivity
import Mathlib.Tactic.Ring
import SignalPath.Lowpass.Bessel

/-!
# Where the Bessel series ends

Over exact numbers the value of the Bessel function is a partial sum of its series, up to the first
term that is below the tolerated part of the sum. There is such a term, and it comes before the limit
on the number of terms: behind `⌈|x|⌉` every term is less than a quarter of the one before it.

A term that is more than half of the one before it is too large to end the sum, as long as there are
few of them. So for arguments of up to 20 the sum goes on until its terms fall by half each time, and
then all terms that are left out amount to no more than the last one.
-/

namespace SignalPath.Bessel

/-- The term with number `k` of the power series. -/
def seriesTerm (x : Rat) (k : Nat) : Rat := (x / 2) ^ (2 * k) / (k.factorial : Rat) ^ 2

/-- The sum of the first `n` terms. -/
def partialSum (x : Rat) (n : Nat) : Rat := ∑ k ∈ Finset.range n, seriesTerm x k

/-- Term `k` is below the tolerated part of the sum that it completes. -/
def Ends (x : Rat) (k : Nat) : Prop := seriesTerm x k < tolerance * partialSum x (k + 1)

instance (x : Rat) : DecidablePred (Ends x) :=
  fun k => inferInstanceAs (Decidable (seriesTerm x k < tolerance * partialSum x (k + 1)))

section

variable {x : Rat}

/-! ## Terms and sums -/

@[simp]
theorem seriesTerm_zero (x : Rat) : seriesTerm x 0 = 1 := by
  simp [seriesTerm]

theorem seriesTerm_succ (x : Rat) (k : Nat) :
    seriesTerm x (k + 1) = seriesTerm x k * (x / 2 / (k + 1)) ^ 2 := by
  rw [seriesTerm, seriesTerm, Nat.factorial_succ, Nat.cast_mul, mul_add, mul_one, pow_add]
  push_cast
  field_simp

theorem seriesTerm_nonneg (x : Rat) (k : Nat) : 0 ≤ seriesTerm x k :=
  div_nonneg ((even_two_mul k).pow_nonneg _) (sq_nonneg _)

theorem partialSum_succ (x : Rat) (n : Nat) :
    partialSum x (n + 1) = partialSum x n + seriesTerm x n :=
  Finset.sum_range_succ _ n

@[simp]
theorem partialSum_one (x : Rat) : partialSum x 1 = 1 := by
  rw [partialSum, Finset.sum_range_one, seriesTerm_zero]

theorem partialSum_mono (x : Rat) : Monotone (partialSum x) :=
  monotone_nat_of_le_succ fun n => by
    rw [partialSum_succ]
    exact le_add_of_nonneg_right (seriesTerm_nonneg x n)

theorem one_le_partialSum (x : Rat) (k : Nat) : 1 ≤ partialSum x (k + 1) :=
  (partialSum_one x).ge.trans (partialSum_mono x (Nat.le_add_left 1 k))

theorem seriesTerm_le_partialSum (x : Rat) (k : Nat) : seriesTerm x k ≤ partialSum x (k + 1) :=
  Finset.single_le_sum (fun j _ => seriesTerm_nonneg x j) (Finset.self_mem_range_succ k)

/-- From where the number of a term is large enough the terms fall by a factor. -/
theorem mul_seriesTerm_succ_le {k : Nat} {q : Rat} (h : q * (x / 2) ^ 2 ≤ (k + 1) ^ 2) :
    q * seriesTerm x (k + 1) ≤ seriesTerm x k := by
  have hshare : q * (x / 2 / (k + 1)) ^ 2 ≤ 1 := by
    rw [div_pow, ← mul_div_assoc, div_le_one₀ (by positivity)]
    exact h
  rw [seriesTerm_succ, mul_left_comm]
  exact mul_le_of_le_one_right (seriesTerm_nonneg x k) hshare

/-- Up to where the number of a term is small enough no term is less than half of the one before. -/
theorem seriesTerm_le_two_mul {k : Nat} (h : (k + 1) ^ 2 ≤ 2 * (x / 2) ^ 2) :
    seriesTerm x k ≤ 2 * seriesTerm x (k + 1) := by
  have hshare : 1 ≤ 2 * (x / 2 / (k + 1)) ^ 2 := by
    rw [div_pow, ← mul_div_assoc, one_le_div₀ (by positivity)]
    exact h
  rw [seriesTerm_succ, mul_left_comm]
  exact le_mul_of_one_le_right (seriesTerm_nonneg x k) hshare

/-! ## The loop -/

theorem tolerance_eq : (tolerance : Rat) = 1 / 1000000 := by
  norm_num [tolerance]

theorem ends_iff {k : Nat} : Ends x k ↔ 1000000 * seriesTerm x k < partialSum x (k + 1) := by
  rw [Ends, tolerance_eq]
  constructor <;> intro h <;> linarith

theorem not_ends_zero (x : Rat) : ¬ Ends x 0 := by
  rw [ends_iff, seriesTerm_zero, partialSum_one]
  norm_num

/-- One round of the loop. It has term `k` and the sum up to there, and adds the next term. -/
theorem sumFrom_succ (x : Rat) (limit k : Nat) :
    sumFrom (x / 2) (limit + 1) (k + 1) (seriesTerm x k) (partialSum x (k + 1)) =
      if Ends x (k + 1) then partialSum x (k + 2)
      else sumFrom (x / 2) limit ((k + 1 : Nat) + 1) (seriesTerm x (k + 1))
        (partialSum x (k + 2)) := by
  have hone : (1.0 : Rat) = 1 := by norm_num
  have hterm : seriesTerm x k * (x / 2 / (k + 1) * (x / 2 / (k + 1))) = seriesTerm x (k + 1) := by
    rw [seriesTerm_succ, pow_two]
  simp only [sumFrom, hterm, hone, ← partialSum_succ, Nat.cast_succ]
  rfl

/-- However many terms are allowed, the loop ends with the first one that ends it. -/
theorem sumFrom_of_isLeast {last : Nat} (hlast : IsLeast {k | Ends x k} last) (limit k : Nat)
    (hk : k < last) (hlimit : last ≤ k + limit) :
    sumFrom (x / 2) limit (k + 1) (seriesTerm x k) (partialSum x (k + 1)) =
      partialSum x (last + 1) := by
  induction limit generalizing k with
  | zero => omega
  | succ limit ih =>
    by_cases hends : Ends x (k + 1)
    · have heq : last = k + 1 := le_antisymm (hlast.2 hends) hk
      rw [sumFrom_succ, if_pos hends, heq]
    · have hne : k + 1 ≠ last := fun h => hends (h ▸ hlast.1)
      rw [sumFrom_succ, if_neg hends]
      exact ih (k + 1) (by omega) (by omega)

theorem sumFrom_start {last : Nat} (hlast : IsLeast {k | Ends x k} last) {limit : Nat}
    (hlimit : last ≤ limit) : sumFrom (x / 2) limit 1 1 1 = partialSum x (last + 1) := by
  have hpos : 0 < last := Nat.pos_of_ne_zero fun h => not_ends_zero x (h ▸ hlast.1)
  have hloop := sumFrom_of_isLeast hlast limit 0 hpos (by omega)
  rwa [Nat.cast_zero, zero_add, seriesTerm_zero, partialSum_one] at hloop

/-! ## The loop ends -/

theorem pow_mul_seriesTerm_le {m : Nat} {q : Rat} (hq : 0 ≤ q) (h : q * (x / 2) ^ 2 ≤ m ^ 2)
    (d : Nat) : q ^ d * seriesTerm x (m + d) ≤ seriesTerm x m := by
  induction d with
  | zero => simp
  | succ d ih =>
    have hfar : (m : Rat) ^ 2 ≤ ((m + d : Nat) + 1) ^ 2 := by
      push_cast
      gcongr
      linarith [Nat.cast_nonneg (α := Rat) d]
    calc q ^ (d + 1) * seriesTerm x (m + (d + 1))
        = q ^ d * (q * seriesTerm x (m + d + 1)) := by rw [pow_succ, mul_assoc, Nat.add_assoc]
      _ ≤ q ^ d * seriesTerm x (m + d) :=
          mul_le_mul_of_nonneg_left (mul_seriesTerm_succ_le (h.trans hfar)) (pow_nonneg hq d)
      _ ≤ seriesTerm x m := ih

/-- Ten terms behind the argument the tolerance is reached: each is at most a quarter of the one
before it. -/
theorem ends_of_abs_le {m : Nat} (h : |x| ≤ m) : Ends x (m + 10) := by
  have hquarter : 4 * (x / 2) ^ 2 ≤ (m : Rat) ^ 2 := by
    rw [div_pow, ← sq_abs x]
    have := pow_le_pow_left₀ (abs_nonneg x) h 2
    linarith
  have hfall := pow_mul_seriesTerm_le (by norm_num) hquarter 10
  have hbefore : seriesTerm x m ≤ partialSum x (m + 10 + 1) :=
    (seriesTerm_le_partialSum x m).trans (partialSum_mono x (by omega))
  have hone := one_le_partialSum x (m + 10)
  rw [ends_iff]
  norm_num at hfall
  linarith

theorem abs_le_whole (x : Rat) : |x| ≤ (whole |x| + 1 : Nat) := by
  have hfloor : ((whole |x| : Nat) : Int) = ⌊|x|⌋ :=
    Int.toNat_of_nonneg (Int.floor_nonneg.mpr (abs_nonneg x))
  have hlt := Int.lt_floor_add_one |x|
  rw [← hfloor] at hlt
  exact_mod_cast hlt.le

theorem exists_isLeast_ends (x : Rat) : ∃ last, IsLeast {k | Ends x k} last := by
  have hexists : ∃ k, Ends x k := ⟨_, ends_of_abs_le (abs_le_whole x)⟩
  exact ⟨Nat.find hexists, Nat.find_spec hexists, fun k hk => Nat.find_min' hexists hk⟩

theorem termLimit_eq (x : Rat) : termLimit x = whole |x| + 13 := by
  have hzero : (0.0 : Rat) = 0 := by norm_num
  rw [termLimit, hzero]
  split_ifs with h
  · rw [abs_of_neg h]
  · rw [abs_of_nonneg (not_lt.mp h)]

/-- The limit on the number of terms never ends the sum. -/
theorem isLeast_ends_le_termLimit {last : Nat} (hlast : IsLeast {k | Ends x k} last) :
    last ≤ termLimit x := by
  have hle : last ≤ whole |x| + 1 + 10 := hlast.2 (ends_of_abs_le (abs_le_whole x))
  rw [termLimit_eq]
  omega

/-- The value is the partial sum up to the first term that ends it. -/
theorem i0_eq_partialSum {last : Nat} (hlast : IsLeast {k | Ends x k} last) :
    i0 x = partialSum x (last + 1) := by
  have hone : (1.0 : Rat) = 1 := by norm_num
  have htwo : (2.0 : Rat) = 2 := by norm_num
  rw [i0, hone, htwo]
  exact sumFrom_start hlast (isLeast_ends_le_termLimit hlast)

/-! ## What is left out -/

/-- While no term is less than half of the one before it, the last one is not small against the
sum. -/
theorem partialSum_le_two_pow_mul {k : Nat} (h : (k : Rat) ^ 2 ≤ 2 * (x / 2) ^ 2) :
    partialSum x (k + 1) ≤ (2 ^ (k + 1) - 1) * seriesTerm x k := by
  induction k with
  | zero => norm_num [partialSum_one, seriesTerm_zero]
  | succ k ih =>
    have hk : (k : Rat) ^ 2 ≤ 2 * (x / 2) ^ 2 := by
      refine le_trans ?_ h
      push_cast
      gcongr
      linarith
    have hhalf : seriesTerm x k ≤ 2 * seriesTerm x (k + 1) :=
      seriesTerm_le_two_mul (by exact_mod_cast h)
    have hpow : (0 : Rat) ≤ 2 ^ (k + 1) - 1 := sub_nonneg.mpr (one_le_pow₀ one_le_two)
    rw [partialSum_succ, pow_succ]
    linarith [ih hk, mul_le_mul_of_nonneg_left hhalf hpow]

/-- For moderate arguments the loop only ends where the terms fall by half. -/
theorem two_mul_sq_le_of_ends {k : Nat} (hx : |x| ≤ 20) (h : Ends x k) :
    2 * (x / 2) ^ 2 ≤ (k + 1) ^ 2 := by
  by_contra! hlt
  have hsquare : 2 * (x / 2) ^ 2 ≤ 200 := by
    have := pow_le_pow_left₀ (abs_nonneg x) hx 2
    rw [sq_abs] at this
    linarith
  have hk : k + 1 < 15 := by
    have hbound : ((k + 1 : Nat) : Rat) ^ 2 < 15 ^ 2 := by
      push_cast
      linarith
    exact_mod_cast lt_of_pow_lt_pow_left₀ 2 (by norm_num) hbound
  have hsum : partialSum x (k + 1) ≤ (2 ^ (k + 1) - 1) * seriesTerm x k := by
    refine partialSum_le_two_pow_mul (le_trans ?_ hlt.le)
    gcongr
    linarith
  have hpow : (2 : Rat) ^ (k + 1) ≤ 2 ^ 15 := pow_le_pow_right₀ one_le_two hk.le
  have hterm := mul_le_mul_of_nonneg_right hpow (seriesTerm_nonneg x k)
  have hnonneg := seriesTerm_nonneg x k
  rw [ends_iff] at h
  norm_num at hterm
  linarith

/-- Where the terms fall by half, everything behind a term is no more than that term. -/
theorem partialSum_add_le {k : Nat} (h : 2 * (x / 2) ^ 2 ≤ (k + 1) ^ 2) (n : Nat) :
    partialSum x (k + 1 + n) + seriesTerm x (k + n) ≤ partialSum x (k + 1) + seriesTerm x k := by
  induction n with
  | zero => exact le_rfl
  | succ n ih =>
    have hfar : 2 * (x / 2) ^ 2 ≤ ((k + n : Nat) + 1) ^ 2 := by
      refine h.trans ?_
      push_cast
      gcongr
      linarith [Nat.cast_nonneg (α := Rat) n]
    have hhalf : 2 * seriesTerm x (k + n + 1) ≤ seriesTerm x (k + n) :=
      mul_seriesTerm_succ_le hfar
    have hnext : partialSum x (k + 1 + (n + 1)) =
        partialSum x (k + 1 + n) + seriesTerm x (k + n + 1) := by
      rw [← Nat.add_assoc, partialSum_succ, Nat.add_right_comm k 1 n]
    rw [hnext, ← Nat.add_assoc]
    linarith

theorem partialSum_le_of_isLeast {last : Nat} (hx : |x| ≤ 20)
    (hlast : IsLeast {k | Ends x k} last) (n : Nat) :
    partialSum x n ≤ partialSum x (last + 1) + seriesTerm x last := by
  have htail := partialSum_add_le (two_mul_sq_le_of_ends hx hlast.1) n
  have hnonneg := seriesTerm_nonneg x (last + n)
  have hmono : partialSum x n ≤ partialSum x (last + 1 + n) := partialSum_mono x (by omega)
  linarith

end

/-- The loop for the Bessel function ends by itself, at the first term that is below a millionth of
the sum, and however many terms it may take, the value is the partial sum up to that term. For
arguments of up to 20 no partial sum exceeds the value by more than a millionth of it. -/
theorem i0_ends_in_time (x : Rat) :
    ∃ last, IsLeast {k | seriesTerm x k < 1e-6 * partialSum x (k + 1)} last ∧
      (∀ limit, last ≤ limit → sumFrom (x / 2) limit 1 1 1 = partialSum x (last + 1)) ∧
      i0 x = partialSum x (last + 1) ∧
      (|x| ≤ 20 → ∀ n, partialSum x n - i0 x ≤ 1e-6 * i0 x) := by
  obtain ⟨last, hlast⟩ := exists_isLeast_ends x
  refine ⟨last, hlast, fun limit hlimit => sumFrom_start hlast hlimit, i0_eq_partialSum hlast, ?_⟩
  intro hx n
  have hterm : seriesTerm x last < 1e-6 * partialSum x (last + 1) := hlast.1
  have hsum := partialSum_le_of_isLeast hx hlast n
  rw [i0_eq_partialSum hlast]
  linarith

/-- At the largest of these arguments. -/
theorem i0_ends_in_time_twenty :
    |(20 : Rat)| ≤ 20 ∧ ∃ last, i0 (20 : Rat) = partialSum 20 (last + 1) ∧
      ∀ n, partialSum 20 n - i0 20 ≤ 1e-6 * i0 20 := by
  have hx : |(20 : Rat)| ≤ 20 := by norm_num
  obtain ⟨last, -, -, hvalue, hrest⟩ := i0_ends_in_time 20
  exact ⟨hx, last, hvalue, hrest hx⟩

end SignalPath.Bessel
