import SignalPath.Rate.Phase
import Mathlib.Algebra.Order.Floor.Div
import Mathlib.Tactic.Ring

/-!
# The schedule of the outputs

A phase that starts at zero and advances by `step` for each output gives output number `k` on input
`k * step / 1024`, and its distance from there is `k * step % 1024`: the offset never drifts, since
after `m` inputs and `k` outputs it is `k * step - 1024 * m` exactly.
-/

namespace SignalPath.Phase

/-- How many outputs fall due before input `m`: the next output is the first one that is not before
it. -/
def dueBefore (step m : Nat) : Nat := (1024 * m + (step - 1)) / step

/-- The phase after `m` inputs. -/
def after (step m : Nat) : Phase := ⟨dueBefore step m * step - 1024 * m, step⟩

/-- What input `m` gives: the distance of the next output if that output is due. -/
def dueAt (step m : Nat) : Option Int :=
  if dueBefore step m * step / 1024 = m then some (dueBefore step m * step % 1024 : Nat) else none

@[simp]
theorem dueBefore_zero {step : Nat} (hstep : 0 < step) : dueBefore step 0 = 0 := by
  unfold dueBefore
  exact Nat.div_eq_of_lt (by omega)

theorem start_eq_after {step : Nat} (hstep : 0 < step) : start step = after step 0 := by
  simp [start, after, dueBefore_zero hstep]

/-- The next output lies at or after the input, and less than one step after it. -/
theorem dueBefore_bounds {step : Nat} (hstep : 0 < step) (m : Nat) :
    1024 * m ≤ dueBefore step m * step ∧ dueBefore step m * step < 1024 * m + step := by
  unfold dueBefore
  have h := Nat.div_add_mod (1024 * m + (step - 1)) step
  have hmod := Nat.mod_lt (1024 * m + (step - 1)) hstep
  rw [Nat.mul_comm] at h
  omega

/-- The bounds determine the number. -/
theorem eq_dueBefore {step : Nat} (hstep : 0 < step) {m k : Nat} (hlo : 1024 * m ≤ k * step)
    (hhi : k * step < 1024 * m + step) : k = dueBefore step m := by
  obtain ⟨hlo', hhi'⟩ := dueBefore_bounds hstep m
  have h1 : k < dueBefore step m + 1 := by
    apply Nat.lt_of_mul_lt_mul_right (a := step)
    rw [Nat.add_mul]
    omega
  have h2 : dueBefore step m < k + 1 := by
    apply Nat.lt_of_mul_lt_mul_right (a := step)
    rw [Nat.add_mul]
    omega
  omega

/-- Output number `k` is due on input `k * step / 1024` and on no other. -/
theorem eq_dueBefore_of_div_eq {step : Nat} (hstep : 1024 ≤ step) {m k : Nat}
    (h : k * step / 1024 = m) : k = dueBefore step m := by
  have := Nat.div_add_mod (k * step) 1024
  have := Nat.mod_lt (k * step) (show 0 < 1024 by decide)
  exact eq_dueBefore (by omega) (by omega) (by omega)

/-- An input that gives an output moves the count on by one, any other leaves it. -/
theorem dueBefore_succ {step : Nat} (hstep : 1024 ≤ step) (m : Nat) :
    dueBefore step (m + 1) =
      if dueBefore step m * step / 1024 = m then dueBefore step m + 1 else dueBefore step m := by
  obtain ⟨hlo, hhi⟩ := dueBefore_bounds (by omega : 0 < step) m
  have hdiv := Nat.div_add_mod (dueBefore step m * step) 1024
  have hmod := Nat.mod_lt (dueBefore step m * step) (show 0 < 1024 by decide)
  split
  · rename_i h
    refine (eq_dueBefore (by omega) ?_ ?_).symm <;> rw [Nat.add_mul] <;> omega
  · rename_i h
    refine (eq_dueBefore (by omega) ?_ ?_).symm <;> omega

/-- Input number `m` comes after output number `k` exactly if that output is due before it. -/
theorem lt_dueBefore_iff {step : Nat} (hstep : 0 < step) {m k : Nat} :
    k < dueBefore step m ↔ k * step / 1024 < m := by
  obtain ⟨hlo, hhi⟩ := dueBefore_bounds hstep m
  rw [Nat.div_lt_iff_lt_mul (by decide)]
  constructor
  · intro h
    have := Nat.mul_le_mul_right step (Nat.succ_le_of_lt h)
    rw [Nat.succ_eq_add_one, Nat.add_mul] at this
    omega
  · intro h
    apply Nat.lt_of_mul_lt_mul_right (a := step)
    omega

/-- Over the first inputs, the ones on which an output is due are the places of the first
outputs. -/
theorem filterMap_due {β : Type} {step : Nat} (hstep : 1024 ≤ step) (f : Nat → β) (n : Nat) :
    (List.range n).filterMap (fun m =>
        if dueBefore step m * step / 1024 = m then some (m, f (dueBefore step m)) else none) =
      (List.range (dueBefore step n)).map fun k => (k * step / 1024, f k) := by
  induction n with
  | zero => simp [dueBefore_zero (by omega : 0 < step)]
  | succ n ih =>
    rw [List.range_succ, List.filterMap_append, ih, dueBefore_succ hstep n]
    by_cases h : dueBefore step n * step / 1024 = n
    · rw [if_pos h, List.range_succ, List.map_append]
      simp [h]
    · rw [if_neg h]
      simp [h]

/-! ## Single steps of a phase -/

theorem fits_iff {x : Int} : fits x = true ↔ -2147483648 ≤ x ∧ x ≤ 2147483647 := by
  rw [fits, Bool.and_eq_true, decide_eq_true_iff, decide_eq_true_iff]
  rfl

/-- An output that is due is given, and the offset moves on to the next one. -/
theorem tick_of_due {p : Phase} (hdue : p.offset < 1024) (hraised : fits (p.offset + p.step) = true)
    (hlowered : fits (p.offset + p.step - 1024) = true) :
    p.tick = (⟨p.offset + p.step - 1024, p.step⟩, .ok (some p.offset)) := by
  have hdue' : p.offset < phaseUnit := hdue
  have hlowered' : fits (p.offset + p.step - phaseUnit) = true := hlowered
  simp only [tick, lower, if_pos hdue', hraised, hlowered', if_true]
  rfl

/-- While no output is due the offset comes down by one input sample. -/
theorem tick_of_not_due {p : Phase} (hdue : 1024 ≤ p.offset)
    (hlowered : fits (p.offset - 1024) = true) :
    p.tick = (⟨p.offset - 1024, p.step⟩, .ok none) := by
  have hdue' : ¬ p.offset < phaseUnit := Int.not_lt.mpr hdue
  have hlowered' : fits (p.offset - phaseUnit) = true := hlowered
  simp only [tick, lower, if_neg hdue', hlowered', if_true]
  rfl

/-- One input takes the phase to its place in the schedule, if the register has room for the step
that is added when an output is due. -/
theorem tick_after_of_fits {step : Nat} (hlo : 1024 ≤ step) (hhi : step ≤ 2147483647) (m : Nat)
    (hfits : dueBefore step m * step / 1024 = m →
      dueBefore step m * step % 1024 + step ≤ 2147483647) :
    (after step m).tick = (after step (m + 1), .ok (dueAt step m)) := by
  obtain ⟨hk, hk'⟩ := dueBefore_bounds (by omega : 0 < step) m
  have hsucc := dueBefore_succ hlo m
  have hdiv := Nat.div_add_mod (dueBefore step m * step) 1024
  have hmod := Nat.mod_lt (dueBefore step m * step) (show 0 < 1024 by decide)
  have hoffset : (after step m).offset = (dueBefore step m * step : Nat) - 1024 * m := by
    simp [after]
  by_cases h : dueBefore step m * step / 1024 = m
  · have hroom := hfits h
    have hnext : after step (m + 1) = ⟨(after step m).offset + step - 1024, step⟩ := by
      rw [hoffset, after, hsucc, if_pos h]
      congr 1
      push_cast
      ring
    have hdue : dueAt step m = some (after step m).offset := by
      rw [dueAt, if_pos h, hoffset]
      congr 1
      omega
    rw [hnext, hdue]
    have hstep : (after step m).step = step := rfl
    exact tick_of_due (by omega) (fits_iff.mpr (by omega)) (fits_iff.mpr (by omega))
  · have hnext : after step (m + 1) = ⟨(after step m).offset - 1024, step⟩ := by
      rw [hoffset, after, hsucc, if_neg h]
      congr 1
      push_cast
      ring
    rw [hnext, dueAt, if_neg h]
    exact tick_of_not_due (by omega) (fits_iff.mpr (by omega))

/-- One input takes the phase to its place in the schedule, and the register never overflows. -/
theorem tick_after {step : Nat} (hlo : 1024 ≤ step) (hhi : step ≤ 2147482624) (m : Nat) :
    (after step m).tick = (after step (m + 1), .ok (dueAt step m)) := by
  have hmod := Nat.mod_lt (dueBefore step m * step) (show 0 < 1024 by decide)
  exact tick_after_of_fits hlo (by omega) m fun _ => by omega

/-- The distance of an output is a part of an input sample. -/
theorem dueAt_bounds {step m : Nat} {s : Int} (h : dueAt step m = some s) : 0 ≤ s ∧ s < 1024 := by
  have hmod := Nat.mod_lt (dueBefore step m * step) (show 0 < 1024 by decide)
  unfold dueAt at h
  split at h
  · cases h
    omega
  · cases h

/-! ## Steps without room -/

theorem iterate_tick_of_ok {step n : Nat} (hstep : 0 < step)
    (htick : ∀ m < n, (after step m).tick = (after step (m + 1), .ok (dueAt step m))) :
    (fun p => p.tick.1)^[n] (start step) = after step n := by
  induction n with
  | zero => exact start_eq_after hstep
  | succ n ih =>
    rw [Function.iterate_succ_apply', ih fun m hm => htick m (by omega), htick n (by omega)]

/-- At a step of 2097151 input samples and `j` units, output number `k` comes `k * j` units into an
input sample, as long as that is less than one. Until then the register has room. -/
theorem iterate_of_large_step {j k : Nat} (hj : 2147482624 + j ≤ 2147483647) (hkj : k * j ≤ 1023) :
    (fun p => p.tick.1)^[k * (2147482624 + j) / 1024] (start (2147482624 + j : Nat)) =
      ⟨(k * j : Nat), (2147482624 + j : Nat)⟩ := by
  have hplace : ∀ i, i * (2147482624 + j) = 1024 * (i * 2097151) + i * j := by
    intro i
    ring
  have hlast := hplace k
  generalize hn : k * (2147482624 + j) / 1024 = n
  rw [iterate_tick_of_ok (by omega) fun m hm =>
    tick_after_of_fits (by omega) hj m fun hdue => ?_]
  · rw [after, ← eq_dueBefore_of_div_eq (by omega) hn, mk.injEq]
    omega
  · -- An output that is due before output number `k` leaves a step of room for the next one.
    generalize hcount : dueBefore (2147482624 + j) m = count at hdue ⊢
    have hcount := hplace count
    have hlt : count < k := by
      by_contra hge
      have := Nat.mul_le_mul_right (2147482624 + j) (Nat.not_lt.mp hge)
      omega
    have hle := Nat.mul_le_mul_right j (Nat.succ_le_of_lt hlt)
    rw [Nat.succ_mul] at hle
    omega

/-- A step that leaves less than an input sample of room in the register overflows it: its part
beyond a multiple of an input sample adds up from output to output, until it does not fit. -/
theorem fault_of_large_step {step : Nat} (hlo : 2147482624 < step) (hhi : step ≤ 2147483647) :
    ((fun p => p.tick.1)^[1023 / (step - 2147482624) * step / 1024] (start step)).tick.2 =
      .error .offsetTooLarge := by
  obtain ⟨j, rfl⟩ : ∃ j, step = 2147482624 + j := ⟨step - 2147482624, by omega⟩
  rw [Nat.add_sub_cancel_left]
  generalize hk : 1023 / j = k
  have hkj : k * j ≤ 1023 ∧ 1023 < k * j + j := by
    have hdiv := Nat.div_add_mod 1023 j
    have hmod := Nat.mod_lt 1023 (show 0 < j by omega)
    rw [hk, Nat.mul_comm] at hdiv
    omega
  have hdue : ((k * j : Nat) : Int) < phaseUnit := by
    rw [phaseUnit]
    omega
  have hraised : ¬ fits ((k * j : Nat) + (2147482624 + j : Nat)) = true := by
    rw [fits_iff]
    omega
  rw [iterate_of_large_step hhi hkj.1, tick]
  simp only [if_pos hdue, if_neg hraised]

/-- Without any step the offset falls until it does not fit the register. -/
theorem fault_of_zero_step :
    ((fun p => p.tick.1)^[2097152] (start 0)).tick.2 = .error .offsetTooSmall := by
  have hiterate : ∀ n ≤ 2097152, (fun p => p.tick.1)^[n] (start 0) = ⟨-1024 * n, 0⟩ := by
    intro n
    induction n with
    | zero => intro _; rfl
    | succ n ih =>
      intro hn
      rw [Function.iterate_succ_apply', ih (by omega),
        tick_of_due (by simp only; omega) (fits_iff.mpr (by simp only; omega))
          (fits_iff.mpr (by simp only; omega))]
      simp only [mk.injEq, and_true]
      omega
  rw [hiterate 2097152 le_rfl]
  rfl

/-! ## Whole runs -/

/-- The phase after some input samples, and the outputs that fell due on them: each with the number
of its input and how far it lies after the input before. A fault ends the run. -/
def run (p : Phase) : (inputs : Nat) → Except ConverterFault (Phase × List (Nat × Int))
  | 0 => .ok (p, [])
  | n + 1 =>
    match p.run n with
    | .error e => .error e
    | .ok (q, outputs) =>
      match q.tick with
      | (q', .ok (some s)) => .ok (q', outputs ++ [(n, s)])
      | (q', .ok none) => .ok (q', outputs)
      | (_, .error e) => .error e

theorem dueBefore_eq_ceilDiv {step : Nat} (hstep : 0 < step) (m : Nat) :
    dueBefore step m = 1024 * m ⌈/⌉ step := by
  rw [Nat.ceilDiv_eq_add_pred_div, dueBefore, Nat.add_sub_assoc hstep]

/-- Output number `k` is given on input `k * step / 1024`, with the exact remainder as its distance,
and no other input gives one. The offset that is left is the exact distance of the next output. -/
theorem run_start {step : Nat} (hlo : 1024 ≤ step) (hhi : step ≤ 2147482624) (n : Nat) :
    (start step).run n =
      .ok (⟨(1024 * n ⌈/⌉ step : Nat) * step - 1024 * n, step⟩,
        (List.range (1024 * n ⌈/⌉ step)).map fun k =>
          (k * step / 1024, ((k * step % 1024 : Nat) : Int))) := by
  rw [← dueBefore_eq_ceilDiv (by omega) n]
  induction n with
  | zero =>
    rw [run, dueBefore_zero (by omega)]
    simp [start]
  | succ n ih =>
    have htick := tick_after hlo hhi n
    rw [after] at htick
    rw [run, ih]
    simp only [htick]
    by_cases hdue : dueBefore step n * step / 1024 = n
    · rw [dueAt, if_pos hdue, dueBefore_succ hlo, if_pos hdue, List.range_succ, List.map_append,
        List.map_singleton, hdue, after, dueBefore_succ hlo, if_pos hdue]
    · rw [dueAt, if_neg hdue, dueBefore_succ hlo, if_neg hdue, after, dueBefore_succ hlo,
        if_neg hdue]

/-- At two and a half inputs for each output, 1000 inputs give 400 outputs. -/
theorem run_start_2560 :
    1024 ≤ 2560 ∧ 2560 ≤ 2147482624 ∧
    (start 2560).run 1000 =
      .ok (⟨0, 2560⟩, (List.range 400).map fun k =>
        (k * 2560 / 1024, ((k * 2560 % 1024 : Nat) : Int))) :=
  ⟨by decide, by decide, run_start (show 1024 ≤ 2560 by decide) (by decide) 1000⟩

end SignalPath.Phase
