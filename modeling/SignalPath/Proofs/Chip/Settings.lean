import SignalPath.Chip.Model
import SignalPath.Proofs.Chip.Run
import SignalPath.Proofs.Number.Binary64

/-!
# The settings of the 8580

Every cutoff register value and every position on the range of filter curves is accepted by the
integrators of the model. The formulas for both settings are monotone in floating point, so the
values at the ends of the ranges bound all others.
-/

namespace SignalPath.Integrator

open Binary64 Mos8580

/-- The cutoff transistor's width with the lowest `n` bits of a register. -/
def widthOf (register : Nat) (n : Nat) : Float :=
  (((List.range n).filter register.testBit).map fun bit =>
    smallestWidth * Float.ofNat (1 <<< bit)).foldl (· + ·) 0.0

/-- The width with all of the lowest `n` bits selected. -/
def fullWidth (n : Nat) : Float :=
  ((List.range n).map fun bit => smallestWidth * Float.ofNat (1 <<< bit)).foldl (· + ·) 0.0

theorem widthOf_succ (register n : Nat) :
    widthOf register (n + 1) =
      if register.testBit n then widthOf register n + smallestWidth * Float.ofNat (1 <<< n)
      else widthOf register n := by
  rw [widthOf, List.range_succ, List.filter_append, List.map_append, List.foldl_append]
  cases h : register.testBit n with
  | true => simp [h, widthOf]
  | false => simp [h, widthOf]

theorem fullWidth_succ (n : Nat) :
    fullWidth (n + 1) = fullWidth n + smallestWidth * Float.ofNat (1 <<< n) := by
  rw [fullWidth, List.range_succ, List.map_append, List.foldl_append]
  rfl

theorem width_finite : ∀ n < 12, (fullWidth n).isFinite = true ∧
    (smallestWidth * Float.ofNat (1 <<< n)).isFinite = true ∧
    (0.0 : Float) ≤ smallestWidth * Float.ofNat (1 <<< n) := by
  decide

/-- Selecting only some bits does not give more than selecting all of them. -/
theorem inside_widthOf (register : Nat) : ∀ n < 12, Inside 0.0 (fullWidth n) (widthOf register n)
  | 0, _ => ⟨show (0.0 : Float) ≤ 0.0 by decide, show (0.0 : Float) ≤ 0.0 by decide,
    rfl, rfl⟩
  | n + 1, hn => by
    have ih := inside_widthOf register n (by omega)
    obtain ⟨hfull, -, -⟩ := width_finite (n + 1) hn
    obtain ⟨-, hbit, hnonneg⟩ := width_finite n (by omega)
    have hgrows := le_add_of_nonneg hnonneg ih.finite hbit
    have hle : widthOf register n + smallestWidth * Float.ofNat (1 <<< n) ≤ fullWidth (n + 1) := by
      rw [fullWidth_succ]
      exact add_mono ih.le (float_le_refl (numeric_of_finite hbit)) ih.finite ih.hi_finite hbit hbit
    rw [widthOf_succ]
    split
    · exact ⟨float_le_trans ih.ge hgrows, hle, rfl, hfull⟩
    · exact ⟨ih.ge, float_le_trans hgrows hle, rfl, hfull⟩

/-- The width for a register lies between no transistor and all of them. -/
theorem inside_cutoffWidth (register : UInt16) :
    Inside 0.0 (fullWidth 11) (cutoffWidth register) := by
  unfold cutoffWidth
  dsimp only
  split
  · exact ⟨by decide, by decide +kernel, rfl, by decide +kernel⟩
  · exact inside_widthOf register.toNat 11 (by decide)

/-- The multiplier for a position lies between those for the ends of the range. -/
theorem inside_curveMultiplier {curve : Float} (h : 0.0 ≤ curve) (h' : curve ≤ 1.0) :
    Inside (1.8 - 1.0 * 0.6) (1.8 - 0.0 * 0.6) (curveMultiplier curve) := by
  have hinside : curveMultiplier curve = 1.8 - curve * 0.6 := by
    rw [curveMultiplier, if_neg (float_not_lt h), if_neg (float_not_lt h')]
  rw [hinside]
  have hcurve : Inside 0.0 1.0 curve := ⟨h, h', rfl, rfl⟩
  exact (hcurve.mul_const (by decide) rfl rfl rfl).const_sub rfl rfl rfl

/-- The gate voltage for a multiplier between two others. -/
theorem inside_gateOf {multiplier : Float}
    (h : Inside (1.8 - 1.0 * 0.6) (1.8 - 0.0 * 0.6) multiplier) :
    Inside (gateOf FilterModel.mos8580.circuit (1.8 - 1.0 * 0.6))
      (gateOf FilterModel.mos8580.circuit (1.8 - 0.0 * 0.6))
      (gateOf FilterModel.mos8580.circuit multiplier) :=
  (((h.const_mul (by decide) rfl (by decide) (by decide)).sub_const rfl
    (by decide) (by decide)).sub_const rfl (by decide)
      (by decide)).const_mul (by decide) (by decide) (by decide)
        (by decide)

/-- The current factor for a width up to the largest one. -/
theorem inside_factorOf {width : Float} (h : Inside 0.0 (fullWidth 11) width) :
    Inside (factorOf FilterModel.mos8580.circuit 0.0)
      (factorOf FilterModel.mos8580.circuit (fullWidth 11))
      (factorOf FilterModel.mos8580.circuit width) :=
  h.const_mul (by decide) (by decide) (by decide) (by decide +kernel)

/-- A fresh integrator in the circuit of the model, whatever its table. -/
theorem start_mos8580 (table : ReverseTable) :
    start table FilterModel.mos8580.circuit =
      .ok ⟨table, FilterModel.mos8580.circuit, 0, 0, 44436, 0⟩ := by
  have hfits : -0.5 < gateOf FilterModel.mos8580.circuit 1.5 ∧
      gateOf FilterModel.mos8580.circuit 1.5 < 65535.5 := by
    decide
  have hgate : (gateOf FilterModel.mos8580.circuit 1.5 + 0.5).toUInt16 = 44436 := by
    decide
  exact setGate_ok_iff.mpr ⟨by decide, hfits, by rw [hgate]⟩

section

variable {s : Integrator}

/-- Every cutoff register value is accepted, and its current factor has at most eleven bits. -/
theorem setWidth_cutoffWidth (hs : s.circuit = FilterModel.mos8580.circuit) (register : UInt16) :
    ∃ factor : UInt16, s.setWidth (cutoffWidth register) = .ok { s with factor } ∧
      factor.toNat ≤ 1784 := by
  have h := inside_factorOf (inside_cutoffWidth register)
  rw [← hs] at h
  have hrounded := (h.add_const (c := 0.5) rfl (by rw [hs]; decide +kernel)
    (by rw [hs]; decide +kernel)).toUInt16
  refine ⟨_, setWidth_ok_iff.mpr ⟨⟨?_, ?_⟩, rfl⟩, ?_⟩
  · exact float_lt_of_lt_of_le (by rw [hs]; decide +kernel) h.ge
  · exact float_lt_of_le_of_lt h.le (by rw [hs]; decide +kernel)
  · refine hrounded.2.trans ?_
    rw [hs]
    decide +kernel

/-- The largest register value selects the largest factor. -/
theorem setWidth_full (table : ReverseTable) :
    setWidth ⟨table, FilterModel.mos8580.circuit, 0, 0, 44436, 0⟩ (cutoffWidth 2047) =
      .ok ⟨table, FilterModel.mos8580.circuit, 0, 0, 44436, 1784⟩ := by
  have hfits : -0.5 < factorOf FilterModel.mos8580.circuit (cutoffWidth 2047) ∧
      factorOf FilterModel.mos8580.circuit (cutoffWidth 2047) < 65535.5 := by
    decide +kernel
  have hfactor : (factorOf FilterModel.mos8580.circuit (cutoffWidth 2047) + 0.5).toUInt16 =
      1784 := by
    decide +kernel
  exact setWidth_ok_iff.mpr ⟨hfits, by rw [hfactor]⟩

/-- Every position on the range of curves is accepted, from a gate voltage of 31932 for bright to
one of 56941 for dark. -/
theorem setGate_curveMultiplier (hs : s.circuit = FilterModel.mos8580.circuit) {curve : Float}
    (hcurve : 0.0 ≤ curve) (hcurve' : curve ≤ 1.0) :
    ∃ gate : UInt16, s.setGate (curveMultiplier curve) = .ok { s with gate } ∧
      31932 ≤ gate.toNat ∧ gate.toNat ≤ 56941 := by
  have hmultiplier := inside_curveMultiplier hcurve hcurve'
  have h := inside_gateOf hmultiplier
  rw [← hs] at h
  have hrounded := (h.add_const (c := 0.5) rfl (by rw [hs]; decide +kernel)
    (by rw [hs]; decide +kernel)).toUInt16
  refine ⟨_, setGate_ok_iff.mpr ⟨⟨?_, ?_⟩, ⟨?_, ?_⟩, rfl⟩, ?_, ?_⟩
  · exact float_lt_of_lt_of_le (by decide) hmultiplier.ge
  · exact float_lt_of_le_of_lt hmultiplier.le (by decide)
  · exact float_lt_of_lt_of_le (by rw [hs]; decide +kernel) h.ge
  · exact float_lt_of_le_of_lt h.le (by rw [hs]; decide +kernel)
  · refine le_trans ?_ hrounded.1
    rw [hs]
    decide +kernel
  · refine hrounded.2.trans ?_
    rw [hs]
    decide +kernel

end

end SignalPath.Integrator
