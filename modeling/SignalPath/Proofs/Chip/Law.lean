import Mathlib.Tactic.Linarith
import SignalPath.Proofs.Chip.Current

/-!
# The law of the circuit

The law of an integrator knows no words. Its current is the difference of two squared overdrives,
scaled down and multiplied by the current factor, and the charge it leads to either lies inside the
table or does not. An integrator computes all of this in words that wrap, and takes a difference of
words without sign for a word with a sign.

Nothing is lost as long as both overdrives are at most 46340, the whole part of the root of
`2 ^ 31`, and the factor is at most `2 ^ 14`: the difference keeps its sign then, and a charge that
leaves the table cannot go all the way round and come back into it.
-/

namespace SignalPath

/-- An integrator in whole numbers. -/
structure IdealIntegrator where
  /-- The reverse table of the op-amp. -/
  table : ReverseTable
  /-- The circuit around it. -/
  circuit : Circuit
  /-- The voltage at the op-amp's input. -/
  vx : Int
  /-- The charge of the capacitor. -/
  vc : Int
  /-- The gate voltage less the threshold. -/
  gate : Int
  /-- The factor of the cutoff transistor's current. -/
  factor : Int

/-- Why a step by the law has no output. -/
inductive IdealFault where
  | subthreshold (vx gate : Int)
  | chargeOutsideTable (charge : Int)

namespace IdealIntegrator

/-- The charge that flows in one step. The drain term vanishes once the input reaches the gate
voltage. -/
def current (s : IdealIntegrator) (vi : Int) : Int :=
  s.factor * (((s.gate - s.vx) ^ 2 - max 0 (s.gate - vi) ^ 2) / 2 ^ 15)

/-- The entry of a table for a charge of thirty bits and a sign. -/
def entryAt (table : ReverseTable) (charge : Int) (h : -2 ^ 30 ≤ charge ∧ charge < 2 ^ 30) : Int :=
  have hlt : (charge / 2 ^ 15 + 2 ^ 15).toNat < reverseTableSize := by
    rw [reverseTableSize]
    omega
  table[(charge / 2 ^ 15 + 2 ^ 15).toNat].toNat

/-- A step by the law. -/
def step (s : IdealIntegrator) (vi : Int) : IdealIntegrator × Except IdealFault Int :=
  if s.gate ≤ s.vx then (s, .error (.subthreshold s.vx s.gate))
  else
    let vc := s.vc + s.current vi
    if h : -2 ^ 30 ≤ vc ∧ vc < 2 ^ 30 then
      let vx := entryAt s.table vc h
      ({ s with vx, vc }, .ok (vx - vc / 2 ^ 14))
    else ({ s with vc }, .error (.chargeOutsideTable vc))

end IdealIntegrator

namespace Integrator

/-- An integrator with its words read as whole numbers. -/
def ideal (s : Integrator) : IdealIntegrator :=
  ⟨s.table, s.circuit, s.vx.toNat, s.vc.toInt, s.gate.toNat, s.factor.toNat⟩

/-- The overdrives of source and drain have squares that fit a word with sign. -/
structure SquaresFit (s : Integrator) (vi : Int32) : Prop where
  source_le : (s.gate.toNat : Int) - s.vx.toNat ≤ 46340
  drain_le : (s.gate.toNat : Int) - vi.toInt ≤ 46340

end Integrator

/-- A fault of a step with its words read as whole numbers. No other fault arises in a step. -/
def IntegratorFault.ideal? : IntegratorFault → Option IdealFault
  | .subthreshold vx gate => some (.subthreshold vx.toNat gate.toNat)
  | .chargeOutsideTable charge => some (.chargeOutsideTable charge.toInt)
  | .tableSize _ | .currentFactor _ _ | .gateMultiplier _ | .gateVoltage _ _ => none

namespace Integrator

section

variable {s : Integrator} {vi : Int32}

/-- The default gate voltage leaves that room for every input from zero on. -/
theorem squaresFit_of_default (hgate : s.gate = 44436) (hvi : 0 ≤ vi.toInt) : SquaresFit s vi := by
  have hgate' : s.gate.toNat = 44436 := by
    rw [hgate]
    rfl
  exact ⟨by omega, by omega⟩

theorem SquaresFit.drive_bounds (h : SquaresFit s vi) (hopen : s.vx < s.gate) :
    -2147395600 ≤ s.drive vi.toInt ∧ s.drive vi.toInt ≤ 2147395600 := by
  have hlt : s.vx.toNat < s.gate.toNat := UInt16.lt_iff_toNat_lt.mp hopen
  have hsource : ((s.gate.toNat : Int) - s.vx.toNat) ^ 2 ≤ 46340 ^ 2 :=
    pow_le_pow_left₀ (by omega) h.source_le 2
  have hdrain : max 0 ((s.gate.toNat : Int) - vi.toInt) ^ 2 ≤ 46340 ^ 2 :=
    pow_le_pow_left₀ (Int.le_max_left _ _) (Int.max_le.mpr ⟨by decide, h.drain_le⟩) 2
  have hsource' := sq_nonneg ((s.gate.toNat : Int) - s.vx.toNat)
  have hdrain' := sq_nonneg (max 0 ((s.gate.toNat : Int) - vi.toInt))
  rw [drive]
  omega

theorem SquaresFit.toInt_current (h : SquaresFit s vi) (hopen : s.vx < s.gate)
    (hfactor : s.factor.toNat ≤ 16384) : (s.current vi).toInt = s.ideal.current vi.toInt := by
  obtain ⟨hlo, hhi⟩ := h.drive_bounds hopen
  rw [toInt_current_of_le (by omega), Int.bmod_eq_of_le (by omega) (by omega)]
  rfl

/-- One step moves the charge by less than the half of the table's width. -/
theorem SquaresFit.current_bounds (h : SquaresFit s vi) (hopen : s.vx < s.gate)
    (hfactor : s.factor.toNat ≤ 16384) :
    -2 ^ 30 < s.ideal.current vi.toInt ∧ s.ideal.current vi.toInt < 2 ^ 30 := by
  obtain ⟨hlo, hhi⟩ := h.drive_bounds hopen
  have hcurrent : s.ideal.current vi.toInt = s.factor.toNat * (s.drive vi.toInt / 32768) := rfl
  rw [hcurrent]
  -- The factor is a variable too, so the quotient is bounded before it is scaled.
  generalize s.drive vi.toInt = d at hlo hhi
  have hlow : (s.factor.toNat : Int) * -65534 ≤ s.factor.toNat * (d / 32768) :=
    Int.mul_le_mul_of_nonneg_left (by omega) (by omega)
  have hhigh : (s.factor.toNat : Int) * (d / 32768) ≤ s.factor.toNat * 65533 :=
    Int.mul_le_mul_of_nonneg_left (by omega) (by omega)
  omega

/-- The charge is the one of the law, inside the table or not. -/
theorem SquaresFit.toInt_charge (h : SquaresFit s vi) (hopen : s.vx < s.gate)
    (hfactor : s.factor.toNat ≤ 16384) (hlo : -2 ^ 30 ≤ s.vc.toInt) (hhi : s.vc.toInt < 2 ^ 30) :
    (s.vc + s.current vi).toInt = s.ideal.vc + s.ideal.current vi.toInt := by
  obtain ⟨hcurrent, hcurrent'⟩ := h.current_bounds hopen hfactor
  rw [Int32.toInt_add, h.toInt_current hopen hfactor, Int.bmod_eq_of_le (by omega) (by omega)]
  rfl

/-- With a factor of at most 14 bits, a charge inside the table and overdrives whose squares fit,
as they do for every input from zero on at the default gate voltage, a step is one by the law: it
leaves the same behind, and has the same output or the same fault. -/
theorem step_obeys_law (hfactor : s.factor.toNat ≤ 16384)
    (hlo : -2 ^ 30 ≤ s.vc.toInt) (hhi : s.vc.toInt < 2 ^ 30)
    (h : SquaresFit s vi ∨ s.gate = 44436 ∧ 0 ≤ vi.toInt) :
    (s.step vi).1.ideal = (s.ideal.step vi.toInt).1 ∧
      ((s.step vi).2.map Int32.toInt).mapError IntegratorFault.ideal? =
        (s.ideal.step vi.toInt).2.mapError some := by
  replace h : SquaresFit s vi := h.elim id fun hdefault =>
    squaresFit_of_default hdefault.1 hdefault.2
  by_cases hopen : s.vx < s.gate
  · have hopen' : ¬ s.ideal.gate ≤ s.ideal.vx :=
      Int.not_le.mpr (Int.ofNat_lt.mpr (UInt16.lt_iff_toNat_lt.mp hopen))
    rw [IdealIntegrator.step, if_neg hopen', ← h.toInt_charge hopen hfactor hlo hhi]
    dsimp only
    by_cases hinside : -2 ^ 30 ≤ (s.vc + s.current vi).toInt ∧ (s.vc + s.current vi).toInt < 2 ^ 30
    · have hpos := position_mem_iff.mpr hinside
      have hlt : (position (s.vc + s.current vi)).toNat < reverseTableSize := by
        rw [reverseTableSize]
        omega
      have hlookup : lookup s.table (s.vc + s.current vi) = some s.table[(position _).toNat] :=
        lookup_eq_some_iff.mpr ⟨hpos.1, hlt, rfl⟩
      rw [dif_pos hinside, step_of_lookup hopen hlookup]
      refine ⟨rfl, ?_⟩
      show Except.ok (outputOf _ _).toInt = _
      rw [toInt_outputOf]
      rfl
    · -- The sum has not wrapped, so its position lies outside as well.
      have hlookup : lookup s.table (s.vc + s.current vi) = none :=
        lookup_eq_none_iff.mpr fun hpos => hinside (position_mem_iff.mp hpos)
      rw [dif_neg hinside, step_of_no_lookup hopen hlookup]
      exact ⟨rfl, rfl⟩
  · have hclosed : s.ideal.gate ≤ s.ideal.vx :=
      Int.ofNat_le.mpr (UInt16.le_iff_toNat_le.mp (UInt16.not_lt.mp hopen))
    rw [step, if_neg hopen, IdealIntegrator.step, if_pos hclosed]
    exact ⟨rfl, rfl⟩

end

/-- On a full table, the largest current leaves the table and does not come back into it. -/
theorem step_obeys_law_full :
    ∃ s : Integrator, s.factor.toNat ≤ 16384 ∧ -2 ^ 30 ≤ s.vc.toInt ∧ s.vc.toInt < 2 ^ 30 ∧
      SquaresFit s 46340 ∧ ((s.step 46340).2.map Int32.toInt).mapError IntegratorFault.ideal? =
        .error (some (.chargeOutsideTable 2147434495)) := by
  let s : Integrator :=
    ⟨.replicate _ 0, ⟨0.0, 0.0, 0.0, 0.0, 0.0⟩, 0, 1073741823, 46340, 16384⟩
  have hfit : SquaresFit s 46340 := ⟨by decide, by decide⟩
  have hcharge : s.ideal.vc + s.ideal.current (46340 : Int32).toInt = 2147434495 := by decide
  have hlaw : (s.ideal.step (46340 : Int32).toInt).2 = .error (.chargeOutsideTable 2147434495) := by
    rw [IdealIntegrator.step, if_neg (by decide), hcharge, dif_neg (by decide)]
  obtain ⟨-, hanswer⟩ := step_obeys_law (s := s) (by decide) (by decide) (by decide) (Or.inl hfit)
  exact ⟨s, by decide, by decide, by decide, hfit, by rw [hanswer, hlaw]; rfl⟩

/-- An overdrive of 46341 turns the current around. -/
example :
    (current ⟨.replicate _ 0, ⟨0.0, 0.0, 0.0, 0.0, 0.0⟩, 0, 0, 46341, 1⟩ 46341).toInt = -65536 := by
  decide

end Integrator

end SignalPath
