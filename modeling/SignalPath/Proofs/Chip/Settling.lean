import Mathlib.Algebra.Order.Group.Abs
import SignalPath.Proofs.Chip.Envelope

/-!
# The feedback loop settles

At the default gate voltage a constant input is followed. The current points towards the input, and
one step covers the distance to it with at most two units more, so that the voltage never swings
past the input by more than two units. Outside a band of three units around the input every step
moves the charge, at least by one; since the charge has room for only so many such steps, the band
is reached, and it is never left again. Inside the band the current may vanish before the voltage
has arrived: the shift drops a difference of squares that is too small.
-/

namespace SignalPath.Integrator

/-- A current towards a higher voltage moves the position by at most a third of the distance to the
input, up to two units. -/
theorem rise_le {factor drive distance moved : Int} (hfactor : factor ≤ 1784) (hdrive : 0 ≤ drive)
    (hlinear : drive ≤ 100000 * distance)
    (hmoved : moved * 32768 ≤ factor * (drive / 32768) + 32767) : 3 * moved ≤ distance + 2 := by
  have hscaled : factor * (drive / 32768) ≤ 1784 * (drive / 32768) :=
    Int.mul_le_mul_of_nonneg_right hfactor (by omega)
  omega

/-- A state inside the envelope, at the default gate voltage and with some current. -/
structure Following (s : Integrator) : Prop extends Settled s where
  gate_eq : s.gate = 44436
  factor_pos : 1 ≤ s.factor.toNat

section

variable {s : Integrator} {vi : Int32}

theorem Following.toNat_gate (h : Following s) : s.gate.toNat = 44436 := by
  rw [h.gate_eq]
  rfl

/-- The charge after a step, in whole numbers. -/
theorem Settled.toInt_vc_step (h : Settled s) (hvi : 14640 ≤ vi.toInt)
    (hvi' : vi.toInt < s.gate.toNat) :
    (s.vc + s.current vi).toInt = s.vc.toInt + s.factor.toNat * (s.drive vi.toInt / 32768) := by
  obtain ⟨hfits, hfits'⟩ := h.drive_fits hvi hvi'
  exact toInt_vc_add_current h.factor_le h.lookup_eq hfits hfits'

/-! ## One step -/

/-- A step to an entry of the table inside the envelope. -/
theorem Following.perform_of_lookup (h : Following s) {vx : UInt16}
    (hlookup : lookup s.table (s.vc + s.current vi) = some vx) (hlo : 14638 ≤ vx.toNat)
    (hhi : vx.toNat < 44436) :
    s.perform (.step vi) = .ok { s with vx, vc := s.vc + s.current vi } ∧
      Following { s with vx, vc := s.vc + s.current vi } := by
  have hgate := h.toNat_gate
  have hstep := step_of_lookup (UInt16.lt_iff_toNat_lt.mpr h.vx_lt) hlookup
  refine ⟨perform_of_step_ok hstep, ?_, h.gate_eq, h.factor_pos⟩
  exact ⟨h.gentle, h.factor_le, h.gate_le, hlookup, hlo, hgate ▸ hhi⟩

/-- Towards an input that is not below it, the voltage rises up to two units above the input. -/
theorem Following.step_up (h : Following s) (hvi : 14640 ≤ vi.toInt) (hvi' : vi.toInt ≤ 36000)
    (hrises : (s.vx.toNat : Int) ≤ vi.toInt) :
    ∃ t, s.perform (.step vi) = .ok t ∧ Following t ∧
      (s.vx.toNat : Int) ≤ t.vx.toNat ∧ (t.vx.toNat : Int) ≤ vi.toInt + 2 ∧
      t.vc.toInt = s.vc.toInt + s.factor.toNat * (s.drive vi.toInt / 32768) := by
  have hgate := h.toNat_gate
  have hlo := h.le_vx
  have hfactor := h.factor_le
  have hcharge := h.toInt_vc_step hvi (by omega)
  have hmoved := h.position_step hvi (by omega)
  have hproduct : s.drive vi.toInt = _ := drive_eq_mul (by omega)
  have hdrive : 0 ≤ s.drive vi.toInt := by
    rw [hproduct]
    exact Int.mul_nonneg (by omega) (by omega)
  have hlinear : s.drive vi.toInt ≤ 100000 * (vi.toInt - s.vx.toNat) := by
    rw [hproduct, Int.mul_comm]
    exact Int.mul_le_mul_of_nonneg_right (by omega) (by omega)
  have hpushes : 0 ≤ (s.factor.toNat : Int) * (s.drive vi.toInt / 32768) :=
    Int.mul_nonneg (by omega) (by omega)
  have hbefore : position s.vc = s.vc.toInt / 32768 + 32768 := rfl
  have hclose : 3 * (position (s.vc + s.current vi) - position s.vc) ≤ vi.toInt - s.vx.toNat + 2 :=
    rise_le (show (s.factor.toNat : Int) ≤ 1784 by omega) hdrive hlinear (by omega)
  obtain ⟨vx, hlookup, hge, hle⟩ := h.gentle.lookup_up h.lookup_eq
    (show position s.vc ≤ position (s.vc + s.current vi) by omega) (by omega)
  obtain ⟨hperform, hnext⟩ := h.perform_of_lookup hlookup (by omega) (by omega)
  exact ⟨_, hperform, hnext, Int.ofNat_le.mpr hge, show (vx.toNat : Int) ≤ _ by omega, hcharge⟩

/-- Towards an input below it, the voltage falls down to two units below the input. -/
theorem Following.step_down (h : Following s) (hvi : 14640 ≤ vi.toInt) (hvi' : vi.toInt ≤ 36000)
    (hfalls : vi.toInt < s.vx.toNat) :
    ∃ t, s.perform (.step vi) = .ok t ∧ Following t ∧
      vi.toInt - 2 ≤ t.vx.toNat ∧ (t.vx.toNat : Int) ≤ s.vx.toNat ∧
      t.vc.toInt = s.vc.toInt + s.factor.toNat * (s.drive vi.toInt / 32768) := by
  have hgate := h.toNat_gate
  have hhi := h.vx_lt
  have hcharge := h.toInt_vc_step hvi (by omega)
  obtain ⟨hdown, hclose⟩ := position_of_falls h.factor_le hhi (by omega) hfalls
    (h.position_step hvi (by omega))
  obtain ⟨vx, hlookup, hle, hge⟩ := h.gentle.lookup_down h.lookup_eq hdown (by omega)
  obtain ⟨hperform, hnext⟩ := h.perform_of_lookup hlookup (by omega) (by omega)
  exact ⟨_, hperform, hnext, show _ ≤ (vx.toNat : Int) by omega, Int.ofNat_le.mpr hle, hcharge⟩

/-- More than three units below the input, a step charges the capacitor. -/
theorem Following.charges (h : Following s) (hvi' : vi.toInt ≤ 36000)
    (hbelow : (s.vx.toNat : Int) + 3 < vi.toInt) :
    1 ≤ (s.factor.toNat : Int) * (s.drive vi.toInt / 32768) := by
  have hgate := h.toNat_gate
  have hfactor := h.factor_pos
  have hdrive : 4 * 16872 ≤ s.drive vi.toInt := by
    rw [drive_eq_mul (by omega)]
    exact Int.mul_le_mul (by omega) (by omega) (by decide) (by omega)
  exact Int.mul_pos (by omega) (by omega)

/-- Above the input, a step discharges the capacitor. -/
theorem Following.discharges (h : Following s) (habove : vi.toInt < s.vx.toNat) :
    (s.factor.toNat : Int) * (s.drive vi.toInt / 32768) ≤ -1 := by
  have hfactor := h.factor_pos
  have hhi := h.vx_lt
  have hdrive : s.drive vi.toInt < 0 := by
    rw [drive_eq_mul (by omega)]
    exact Int.mul_neg_of_neg_of_pos (by omega) (by omega)
  have hpulls : (s.factor.toNat : Int) * (s.drive vi.toInt / 32768) < 0 :=
    Int.mul_neg_of_pos_of_neg (by omega) (by omega)
  omega

/-! ## Many steps -/

/-- The voltage is within three units of the input. -/
def Near (vi : Int32) (s : Integrator) : Prop := |(s.vx.toNat : Int) - vi.toInt| ≤ 3

/-- How many more units the charge can move in the direction of the input. -/
def room (vi : Int32) (s : Integrator) : Nat :=
  if (s.vx.toNat : Int) < vi.toInt then (1073741824 - s.vc.toInt).toNat
  else (s.vc.toInt + 1073741825).toNat

theorem Following.vc_bounds (h : Following s) :
    -1073741824 ≤ s.vc.toInt ∧ s.vc.toInt < 1073741824 := by
  obtain ⟨hpos, hpos', -⟩ := lookup_eq_some_iff.mp h.lookup_eq
  have hpos'' : (position s.vc).toNat < 65536 := hpos'
  exact position_mem_iff.mp ⟨hpos, by omega⟩

theorem Following.room_le (h : Following s) : room vi s ≤ 2 ^ 31 := by
  obtain ⟨hlo, hhi⟩ := h.vc_bounds
  unfold room
  split <;> omega

/-- A step never leaves the band. -/
theorem Following.step_near (h : Following s) (hvi : 14640 ≤ vi.toInt) (hvi' : vi.toInt ≤ 36000)
    (hnear : Near vi s) : ∃ t, s.perform (.step vi) = .ok t ∧ Following t ∧ Near vi t := by
  obtain ⟨hlo, hhi⟩ := abs_le.mp hnear
  rcases Int.lt_or_le vi.toInt s.vx.toNat with hfalls | hrises
  · obtain ⟨t, hperform, ht, hge, hle, -⟩ := h.step_down hvi hvi' hfalls
    exact ⟨t, hperform, ht, abs_le.mpr (by omega)⟩
  · obtain ⟨t, hperform, ht, hge, hle, -⟩ := h.step_up hvi hvi' hrises
    exact ⟨t, hperform, ht, abs_le.mpr (by omega)⟩

/-- A step from outside the band reaches it, or stays on its side and uses up some of the room. -/
theorem Following.step_outside (h : Following s) (hvi : 14640 ≤ vi.toInt) (hvi' : vi.toInt ≤ 36000)
    (hnear : ¬ Near vi s) :
    ∃ t, s.perform (.step vi) = .ok t ∧ Following t ∧ (Near vi t ∨ room vi t < room vi s) := by
  obtain ⟨hlo, hhi⟩ := h.vc_bounds
  rw [Near, abs_le] at hnear
  rcases Int.lt_or_le vi.toInt s.vx.toNat with hfalls | hrises
  · obtain ⟨t, hperform, ht, hge, hle, hcharge⟩ := h.step_down hvi hvi' hfalls
    have hdischarges := h.discharges hfalls
    refine ⟨t, hperform, ht, ?_⟩
    -- A voltage that has crossed over to the other side is inside the band.
    rw [Near, abs_le, room, room, if_neg (not_lt.mpr hfalls.le)]
    split <;> omega
  · obtain ⟨t, hperform, ht, hge, hle, hcharge⟩ := h.step_up hvi hvi' hrises
    have hcharges := h.charges hvi' (by omega)
    refine ⟨t, hperform, ht, ?_⟩
    rw [Near, abs_le, room, room, if_pos (show (s.vx.toNat : Int) < vi.toInt by omega)]
    split <;> omega

/-- One step after another, the band is reached before the room is used up. -/
theorem Following.exists_near (h : Following s) (hvi : 14640 ≤ vi.toInt)
    (hvi' : vi.toInt ≤ 36000) :
    ∃ n ≤ room vi s + 1, ∃ t, run s (List.replicate n (.step vi)) = .ok t ∧ Following t ∧
      Near vi t := by
  -- The room is what decreases: by any amount, hence the strong induction.
  induction hroom : room vi s using Nat.strong_induction_on generalizing s with
  | _ m ih =>
    by_cases hnear : Near vi s
    · exact ⟨0, Nat.zero_le _, s, rfl, h, hnear⟩
    · obtain ⟨t, hperform, ht, hcloser⟩ := h.step_outside hvi hvi' hnear
      have hrun := run_replicate_succ hperform
      rcases hcloser with hreached | hless
      · exact ⟨1, by omega, t, hrun 0, ht, hreached⟩
      · obtain ⟨n, hn, t', hrun', ht', hreached⟩ := ih (room vi t) (hroom ▸ hless) ht rfl
        exact ⟨n + 1, by omega, t', (hrun n).trans hrun', ht', hreached⟩

/-- Inside the envelope any number of steps is answered. -/
theorem Following.run_ok (h : Following s) (hvi : 14640 ≤ vi.toInt) (hvi' : vi.toInt ≤ 36000)
    (n : Nat) : ∃ t, run s (List.replicate n (.step vi)) = .ok t := by
  have hstep : ∀ s op, Following s → op = .step vi → ∃ t, s.perform op = .ok t ∧ Following t := by
    rintro s _ hs rfl
    rcases Int.lt_or_le vi.toInt s.vx.toNat with hfalls | hrises
    · obtain ⟨t, hperform, ht, -⟩ := hs.step_down hvi hvi' hfalls
      exact ⟨t, hperform, ht⟩
    · obtain ⟨t, hperform, ht, -⟩ := hs.step_up hvi hvi' hrises
      exact ⟨t, hperform, ht⟩
  obtain ⟨t, hrun, -⟩ := Integrator.run_ok hstep h fun op hop => List.eq_of_mem_replicate hop
  exact ⟨t, hrun⟩

/-- Inside the band any number of steps stays there. -/
theorem Following.run_near (h : Following s) (hvi : 14640 ≤ vi.toInt) (hvi' : vi.toInt ≤ 36000)
    (hnear : Near vi s) (n : Nat) :
    ∃ t, run s (List.replicate n (.step vi)) = .ok t ∧ Near vi t := by
  have hstep : ∀ s op, Following s ∧ Near vi s → op = .step vi →
      ∃ t, s.perform op = .ok t ∧ Following t ∧ Near vi t := by
    rintro s _ ⟨hs, hs'⟩ rfl
    exact hs.step_near hvi hvi' hs'
  obtain ⟨t, hrun, -, ht⟩ :=
    Integrator.run_ok hstep ⟨h, hnear⟩ fun op hop => List.eq_of_mem_replicate hop
  exact ⟨t, hrun, ht⟩

/-- The first step after a discharge ends in the middle of the table, from where the input is
followed. -/
theorem following_of_discharged (htable : Gentle s.table) (hgate : s.gate = 44436)
    (hfactor : 1 ≤ s.factor.toNat) (hfactor' : s.factor.toNat ≤ 1784) (vi : Int32) :
    ∃ t, s.reset.perform (.step vi) = .ok t ∧ Following t := by
  obtain ⟨vx, hlookup, hlo, hhi⟩ :
      ∃ vx, lookup s.reset.table (s.reset.vc + s.reset.current vi) = some vx ∧
        14640 ≤ vx.toNat ∧ vx.toNat ≤ 31931 :=
    lookup_of_discharged htable hfactor' rfl
  have hgate' : s.gate.toNat = 44436 := by
    rw [hgate]
    rfl
  have hopen : s.reset.vx < s.reset.gate := by
    show 0 < s.gate
    rw [hgate]
    decide
  refine ⟨{ s with vx, vc := s.reset.vc + s.reset.current vi }, ?_, ?_, hgate, hfactor⟩
  · exact perform_of_step_ok (step_of_lookup hopen hlookup)
  · exact ⟨htable, hfactor', hgate'.le.trans (by decide), hlookup,
      show 14638 ≤ vx.toNat by omega, show vx.toNat < s.gate.toNat by omega⟩

end

/-- From the discharged state an integrator at the default gate voltage, whatever its current, takes
any number of steps at a constant input. After finitely many of them the voltage is within three
units of the input and stays there. -/
theorem settles {s : Integrator} (htable : Gentle s.table) (hgate : s.gate = 44436)
    (hfactor : 1 ≤ s.factor.toNat) (hfactor' : s.factor.toNat ≤ 1784) {vi : Int32}
    (hvi : 14640 ≤ vi.toInt) (hvi' : vi.toInt ≤ 36000) :
    ∃ N ≤ 2 ^ 31 + 2, ∀ n, ∃ t, run s.reset (List.replicate n (.step vi)) = .ok t ∧
      (N ≤ n → |(t.vx.toNat : Int) - vi.toInt| ≤ 3) := by
  obtain ⟨first, hfirst, hfollowing⟩ := following_of_discharged htable hgate hfactor hfactor' vi
  obtain ⟨k, hk, near, hreached, hfollowing', hnear⟩ := hfollowing.exists_near hvi hvi'
  have hroom : room vi first ≤ 2 ^ 31 := hfollowing.room_le
  have hrun := run_replicate_succ hfirst
  refine ⟨k + 1, by omega, fun n => ?_⟩
  rcases Nat.lt_or_ge n (k + 1) with hbefore | hafter
  · cases n with
    | zero => exact ⟨s.reset, rfl, fun h => absurd h (by omega)⟩
    | succ n =>
      obtain ⟨t, ht⟩ := hfollowing.run_ok hvi hvi' n
      exact ⟨t, (hrun n).trans ht, fun h => absurd h (by omega)⟩
  · obtain ⟨j, rfl⟩ := Nat.exists_eq_add_of_le hafter
    obtain ⟨t, ht, hband⟩ := hfollowing'.run_near hvi hvi' hnear j
    refine ⟨t, ?_, fun _ => hband⟩
    rw [show k + 1 + j = k + j + 1 by omega, hrun, ← List.replicate_append_replicate,
      run_append hreached, ht]

/-- The largest current at an input of 20000, on a straight table. -/
theorem settles_straightTable :
    ∃ s : Integrator, Gentle s.table ∧ s.gate = 44436 ∧
      (1 ≤ s.factor.toNat ∧ s.factor.toNat ≤ 1784) ∧
      (14640 ≤ (20000 : Int32).toInt ∧ (20000 : Int32).toInt ≤ 36000) ∧
      ∃ N ≤ 2 ^ 31 + 2, ∀ n, ∃ t, run s.reset (List.replicate n (.step 20000)) = .ok t ∧
        (N ≤ n → |(t.vx.toNat : Int) - (20000 : Int32).toInt| ≤ 3) := by
  let s : Integrator := ⟨straightTable, FilterModel.mos8580.circuit, 0, 0, 44436, 1784⟩
  have hfactor : 1 ≤ (1784 : UInt16).toNat ∧ (1784 : UInt16).toNat ≤ 1784 := by decide
  have hinput : 14640 ≤ (20000 : Int32).toInt ∧ (20000 : Int32).toInt ≤ 36000 := by decide
  exact ⟨s, gentle_straightTable, rfl, hfactor, hinput,
    settles (s := s) gentle_straightTable rfl hfactor.1 hfactor.2 hinput.1 hinput.2⟩

end SignalPath.Integrator
