import SignalPath.Proofs.Chip.Current
import SignalPath.Proofs.Chip.Settings

/-!
# The direction of the charge

The current of the exact law always drives the voltage at the op-amp's input towards the voltage of
the stage's input. The difference of squares is taken in a word with sign, though, and is turned
around if it leaves that word. With a gate voltage of up to 46340 it never does; with a higher one
it does so far from the input, as in the first step after a discharge.
-/

namespace SignalPath.Integrator

open Mos8580

/-- What a caller of the model does: any input, any cutoff register value, any position on the range
of filter curves, and a discharge. -/
def Operation.OfModel : Operation → Prop
  | .step _ => True
  | .setWidth width => ∃ register, width = cutoffWidth register
  | .setGate multiplier => ∃ curve : Float, 0.0 ≤ curve ∧ curve ≤ 1.0 ∧
      multiplier = curveMultiplier curve
  | .reset => True

/-- The states that an integrator of the model comes to. -/
structure Reached (s : Integrator) : Prop where
  circuit_eq : s.circuit = FilterModel.mos8580.circuit
  factor_le : s.factor.toNat ≤ 1784
  le_gate : 31932 ≤ s.gate.toNat
  gate_le : s.gate.toNat ≤ 56941
  le_position : 0 ≤ position s.vc
  position_lt : position s.vc < 65536

/-- Operations on the model only lead to such states. -/
theorem Reached.perform {s s' : Integrator} {op : Operation} (h : Reached s) (hop : op.OfModel)
    (hperform : s.perform op = .ok s') : Reached s' := by
  cases op with
  | step vi =>
    obtain ⟨y, hstep⟩ := perform_step hperform
    obtain ⟨-, hlookup, hnext, -⟩ := step_ok hstep
    obtain ⟨hpos, hpos', -⟩ := lookup_eq_some_iff.mp hlookup
    have hpos'' : (position s'.vc).toNat < 65536 := hpos'
    rw [hnext] at hpos hpos'' ⊢
    exact ⟨h.circuit_eq, h.factor_le, h.le_gate, h.gate_le, hpos, by omega⟩
  | setWidth width =>
    obtain ⟨register, rfl⟩ := hop
    obtain ⟨factor, hset, hfactor⟩ := setWidth_cutoffWidth h.circuit_eq register
    rw [perform_setWidth, hset] at hperform
    cases hperform
    exact ⟨h.circuit_eq, hfactor, h.le_gate, h.gate_le, h.le_position, h.position_lt⟩
  | setGate multiplier =>
    obtain ⟨curve, hcurve, hcurve', rfl⟩ := hop
    obtain ⟨gate, hset, hgate, hgate'⟩ := setGate_curveMultiplier h.circuit_eq hcurve hcurve'
    rw [perform_setGate, hset] at hperform
    cases hperform
    exact ⟨h.circuit_eq, h.factor_le, hgate, hgate', h.le_position, h.position_lt⟩
  | reset =>
    cases hperform
    exact ⟨h.circuit_eq, h.factor_le, h.le_gate, h.gate_le, show 0 ≤ position 0 by decide,
      show position 0 < 65536 by decide⟩

theorem reached_of_run {new s : Integrator} {ops : List Operation}
    (hnew : FilterModel.mos8580.integrator = .ok new) (hops : ∀ op ∈ ops, op.OfModel)
    (hrun : run new ops = .ok s) : Reached s := by
  rw [FilterModel.integrator, start_mos8580] at hnew
  rw [← Except.ok.inj hnew] at hrun
  refine run_keeps (fun t op t' ht hop h => ht.perform hop h) ?_ hops hrun
  exact ⟨rfl, Nat.zero_le _, show 31932 ≤ (44436 : UInt16).toNat by decide,
    show (44436 : UInt16).toNat ≤ 56941 by decide, show 0 ≤ position 0 by decide,
    show position 0 < 65536 by decide⟩

/-! ## The sign of the current -/

/-- A difference that is not negative keeps its sign in the word if it is below half the word. -/
theorem bmod_of_nonneg {d : Int} (hlo : 0 ≤ d) (hhi : d < 4294967296) :
    d.bmod 4294967296 = if d < 2147483648 then d else d - 4294967296 := by
  rw [Int.bmod_def]
  split <;> split <;> omega

/-- A negative difference keeps its sign in the word down to half the word. -/
theorem bmod_of_neg {d : Int} (hlo : -4294967296 ≤ d) (hhi : d < 0) :
    d.bmod 4294967296 = if -2147483648 ≤ d then d else d + 4294967296 := by
  rw [Int.bmod_def]
  split <;> split <;> omega

section

variable {s : Integrator} {vi : Int32}

/-- Towards a higher input the exact law has no negative current. -/
theorem drive_of_lt (hvx : s.vx < s.gate) (hrises : (s.vx.toNat : Int) < vi.toInt) :
    0 ≤ s.drive vi.toInt ∧ s.drive vi.toInt < 4294967296 := by
  have hvx' : s.vx.toNat < s.gate.toNat := UInt16.lt_iff_toNat_lt.mp hvx
  have hgate := s.gate.toNat_lt
  have hdrain : max 0 ((s.gate.toNat : Int) - vi.toInt) ^ 2 ≤
      ((s.gate.toNat : Int) - s.vx.toNat) ^ 2 :=
    pow_le_pow_left₀ (le_max_left _ _) (by omega) 2
  have hdrain' : 0 ≤ max 0 ((s.gate.toNat : Int) - vi.toInt) ^ 2 := sq_nonneg _
  have hsource : ((s.gate.toNat : Int) - s.vx.toNat) ^ 2 ≤ 65535 ^ 2 :=
    pow_le_pow_left₀ (by omega) (by omega) 2
  rw [drive]
  omega

/-- Towards a lower input the exact law has a negative current, but none as large as the word. -/
theorem drive_of_gt (hvx : s.vx < s.gate) (hvi : 0 ≤ vi.toInt)
    (hfalls : vi.toInt < (s.vx.toNat : Int)) :
    -4294836225 ≤ s.drive vi.toInt ∧ s.drive vi.toInt < 0 := by
  have hvx' : s.vx.toNat < s.gate.toNat := UInt16.lt_iff_toNat_lt.mp hvx
  have hgate := s.gate.toNat_lt
  have hsource : ((s.gate.toNat : Int) - s.vx.toNat) ^ 2 < ((s.gate.toNat : Int) - vi.toInt) ^ 2 :=
    pow_lt_pow_left₀ (by omega) (by omega) (by decide)
  have hsource' : 0 ≤ ((s.gate.toNat : Int) - s.vx.toNat) ^ 2 := sq_nonneg _
  have hdrain : ((s.gate.toNat : Int) - vi.toInt) ^ 2 ≤ 65535 ^ 2 :=
    pow_le_pow_left₀ (by omega) (by omega) 2
  rw [drive, Int.max_eq_right (by omega)]
  omega

theorem current_nonneg_iff (hfactor : s.factor.toNat ≤ 1784) (hvx : s.vx < s.gate)
    (hrises : (s.vx.toNat : Int) < vi.toInt) :
    0 ≤ (s.current vi).toInt ↔ s.factor = 0 ∨ s.drive vi.toInt < 2147483648 := by
  obtain ⟨hlo, hhi⟩ := drive_of_lt hvx hrises
  rw [toInt_current_of_le (by omega), bmod_of_nonneg hlo hhi, ← UInt16.toNat_inj]
  show _ ↔ s.factor.toNat = 0 ∨ _
  rcases Nat.eq_zero_or_pos s.factor.toNat with hzero | hpos
  · simp [hzero]
  · have hpos' : (0 : Int) < s.factor.toNat := by omega
    rw [mul_nonneg_iff_of_pos_left hpos']
    split <;> omega

theorem current_nonpos_iff (hfactor : s.factor.toNat ≤ 1784) (hvx : s.vx < s.gate)
    (hvi : 0 ≤ vi.toInt) (hfalls : vi.toInt < (s.vx.toNat : Int)) :
    (s.current vi).toInt ≤ 0 ↔ s.factor = 0 ∨ -2147483648 ≤ s.drive vi.toInt := by
  obtain ⟨hlo, hhi⟩ := drive_of_gt hvx hvi hfalls
  rw [toInt_current_of_le (by omega), bmod_of_neg (by omega) hhi, ← UInt16.toNat_inj]
  show _ ↔ s.factor.toNat = 0 ∨ _
  rcases Nat.eq_zero_or_pos s.factor.toNat with hzero | hpos
  · simp [hzero]
  · have hpos' : (0 : Int) < s.factor.toNat := by omega
    rw [mul_nonpos_iff_pos_imp_nonpos]
    split <;> omega

/-- The charge goes up with a step exactly if the current is not negative. -/
theorem Reached.vc_le_iff (h : Reached s) (hvx : s.vx < s.gate) :
    s.vc ≤ (s.step vi).1.vc ↔ 0 ≤ (s.current vi).toInt := by
  obtain ⟨hlo, hhi⟩ := current_bounds h.factor_le vi
  rw [step_vc hvx, Int32.le_iff_toInt_le, toInt_vc_add h.le_position h.position_lt hlo hhi]
  omega

/-- The charge goes down with a step exactly if the current is not positive. -/
theorem Reached.le_vc_iff (h : Reached s) (hvx : s.vx < s.gate) :
    (s.step vi).1.vc ≤ s.vc ↔ (s.current vi).toInt ≤ 0 := by
  obtain ⟨hlo, hhi⟩ := current_bounds h.factor_le vi
  rw [step_vc hvx, Int32.le_iff_toInt_le, toInt_vc_add h.le_position h.position_lt hlo hhi]
  omega

end

/-! ## Whole runs -/

section

variable {new s : Integrator} {ops : List Operation} {vi : Int32}

/-- In every state that an integrator of the model comes to, a step moves the charge towards an
input on the scale exactly if no current flows at all or the exact difference of squares fits its
word. -/
theorem charge_follows_input_iff (hnew : FilterModel.mos8580.integrator = .ok new)
    (hops : ∀ op ∈ ops, op.OfModel) (hrun : run new ops = .ok s) (hvi : 0 ≤ vi.toInt)
    (hvx : s.vx < s.gate) :
    (s.factor.toNat ≤ 1784 ∧ 31932 ≤ s.gate.toNat ∧ s.gate.toNat ≤ 56941) ∧
    ((s.vx.toNat : Int) < vi.toInt →
      (s.vc ≤ (s.step vi).1.vc ↔ s.factor = 0 ∨ s.drive vi.toInt < 2 ^ 31)) ∧
    (vi.toInt < (s.vx.toNat : Int) →
      ((s.step vi).1.vc ≤ s.vc ↔ s.factor = 0 ∨ -2 ^ 31 ≤ s.drive vi.toInt)) := by
  have h := reached_of_run hnew hops hrun
  refine ⟨⟨h.factor_le, h.le_gate, h.gate_le⟩, ?_, ?_⟩
  · intro hrises
    rw [h.vc_le_iff hvx]
    exact current_nonneg_iff h.factor_le hvx hrises
  · intro hfalls
    rw [h.le_vc_iff hvx]
    exact current_nonpos_iff h.factor_le hvx hvi hfalls

/-- Up to a gate voltage of 46340, which the default one is below, the charge always follows the
input. -/
theorem charge_follows_input (hnew : FilterModel.mos8580.integrator = .ok new)
    (hops : ∀ op ∈ ops, op.OfModel) (hrun : run new ops = .ok s) (hvi : 0 ≤ vi.toInt)
    (hvx : s.vx < s.gate) (hgate : s.gate.toNat ≤ 46340) :
    ((s.vx.toNat : Int) < vi.toInt → s.vc ≤ (s.step vi).1.vc) ∧
    (vi.toInt < (s.vx.toNat : Int) → (s.step vi).1.vc ≤ s.vc) := by
  have h := reached_of_run hnew hops hrun
  have hvx' : s.vx.toNat < s.gate.toNat := UInt16.lt_iff_toNat_lt.mp hvx
  have hsource : ((s.gate.toNat : Int) - s.vx.toNat) ^ 2 ≤ 46340 ^ 2 :=
    pow_le_pow_left₀ (by omega) (by omega) 2
  have hdrain : max 0 ((s.gate.toNat : Int) - vi.toInt) ^ 2 ≤ 46340 ^ 2 :=
    pow_le_pow_left₀ (le_max_left _ _) (by omega) 2
  have hsource' : 0 ≤ ((s.gate.toNat : Int) - s.vx.toNat) ^ 2 := sq_nonneg _
  have hdrain' : 0 ≤ max 0 ((s.gate.toNat : Int) - vi.toInt) ^ 2 := sq_nonneg _
  have hdrive : s.drive vi.toInt = ((s.gate.toNat : Int) - s.vx.toNat) ^ 2 -
      max 0 ((s.gate.toNat : Int) - vi.toInt) ^ 2 := rfl
  constructor
  · intro hrises
    rw [h.vc_le_iff hvx, current_nonneg_iff h.factor_le hvx hrises]
    exact Or.inr (by omega)
  · intro hfalls
    rw [h.le_vc_iff hvx, current_nonpos_iff h.factor_le hvx hvi hfalls]
    exact Or.inr (by omega)

end

/-- The largest cutoff on the darkest curve. -/
theorem run_darkest (table : ReverseTable) :
    run ⟨table, FilterModel.mos8580.circuit, 0, 0, 44436, 0⟩
        [.setWidth (cutoffWidth 2047), .setGate (curveMultiplier 0.0)] =
      .ok ⟨table, FilterModel.mos8580.circuit, 0, 0, 56941, 1784⟩ := by
  have hfits : -0.5 < gateOf FilterModel.mos8580.circuit (curveMultiplier 0.0) ∧
      gateOf FilterModel.mos8580.circuit (curveMultiplier 0.0) < 65535.5 := by
    decide +kernel
  have hgate : (gateOf FilterModel.mos8580.circuit (curveMultiplier 0.0) + 0.5).toUInt16 =
      56941 := by
    decide +kernel
  have hcurve : setGate ⟨table, FilterModel.mos8580.circuit, 0, 0, 44436, 1784⟩
      (curveMultiplier 0.0) = .ok ⟨table, FilterModel.mos8580.circuit, 0, 0, 56941, 1784⟩ :=
    setGate_ok_iff.mpr ⟨by decide, hfits, by rw [hgate]⟩
  rw [run_cons_ok (show perform _ (.setWidth _) = _ from setWidth_full table),
    run_cons_ok (show perform _ (.setGate _) = _ from hcurve), run]

theorem ofModel_darkest :
    ∀ op ∈ [Operation.setWidth (cutoffWidth 2047), .setGate (curveMultiplier 0.0)], op.OfModel := by
  intro op hop
  simp only [List.mem_cons, List.not_mem_nil, or_false] at hop
  rcases hop with rfl | rfl
  · exact ⟨2047, rfl⟩
  · exact ⟨0.0, by decide, by decide, rfl⟩

/-- On the darkest curve a discharged integrator is charged away from a high input. -/
theorem charge_flees_input :
    ∃ new s, FilterModel.mos8580.integrator = .ok new ∧
      run new [.setWidth (cutoffWidth 2047), .setGate (curveMultiplier 0.0)] = .ok s ∧
      s.vx < s.gate ∧ (s.vx.toNat : Int) < (50000 : Int32).toInt ∧ ¬ s.vc ≤ (s.step 50000).1.vc := by
  have hnew := start_mos8580 FilterModel.mos8580.table
  have hreached := reached_of_run hnew ofModel_darkest (run_darkest _)
  refine ⟨_, _, hnew, run_darkest _, by decide, by decide, ?_⟩
  rw [hreached.vc_le_iff (show (0 : UInt16) < 56941 by decide),
    current_nonneg_iff hreached.factor_le (show (0 : UInt16) < 56941 by decide)
      (show ((0 : UInt16).toNat : Int) < (50000 : Int32).toInt by decide)]
  rintro (hfactor | hdrive)
  · exact absurd hfactor (show ¬ (1784 : UInt16) = 0 by decide)
  · -- The difference of the squares is 3194100000.
    exact absurd hdrive (show ¬ (((56941 : UInt16).toNat : Int) - (0 : UInt16).toNat) ^ 2 -
      max 0 (((56941 : UInt16).toNat : Int) - (50000 : Int32).toInt) ^ 2 < 2147483648 by decide)

/-- Towards a low input the same integrator is charged in the right direction. -/
theorem charge_follows_input_iff_darkest :
    ∃ new s, FilterModel.mos8580.integrator = .ok new ∧
      run new [.setWidth (cutoffWidth 2047), .setGate (curveMultiplier 0.0)] = .ok s ∧
      s.vx < s.gate ∧
      (s.vc ≤ (s.step 20000).1.vc ↔ s.factor = 0 ∨ s.drive (20000 : Int32).toInt < 2 ^ 31) := by
  have hnew := start_mos8580 FilterModel.mos8580.table
  refine ⟨_, _, hnew, run_darkest _, by decide, ?_⟩
  exact (charge_follows_input_iff hnew ofModel_darkest (run_darkest _) (by decide)
    (by decide)).2.1 (by decide)

end SignalPath.Integrator
