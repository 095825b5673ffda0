import SignalPath.Proofs.Chip.Envelope
import SignalPath.Proofs.Curve.Rise

/-!
# The reverse table of the 8580

The table is a spline rounded at 65536 places. The slope of the spline bounds how much it rises
between two of them, so that a few entries and the slopes in between say what the integrators need:
the table rises gently, and the output of a stage is not below zero as long as its voltage is below
31862. From there on the curve may run just below the line on which the output is zero.
-/

namespace SignalPath

namespace Mos8580

/-- The curve that the reverse table is made from. -/
def reverseCurve : Spline Rat := (Scale.mos8580 : Scale Rat).reverseSpline

/-- The curve at a charge, rounded. -/
def level (charge : Nat) : Int := (reverseCurve.value (ofInt charge) + 0.5).floor

section

variable {lo hi : Int} {l u i j : Nat}

/-- Where the slope of the curve lies between two whole numbers, so does that of its roundings. -/
theorem level_rise
    (h : Spline.risesWithin lo hi l u reverseCurve.inner reverseCurve.last = true) (hl : l ≤ i)
    (hij : i ≤ j) (hu : j ≤ u) :
    level i + lo * (j - i) ≤ level j ∧ level j ≤ level i + hi * (j - i) := by
  obtain ⟨hlo, hhi⟩ := Spline.rise_mem h (x := i) (y := j) (by exact_mod_cast hl)
    (by exact_mod_cast hij) (by exact_mod_cast hu)
  have hi' : (level i : Rat) ≤ reverseCurve.value i + 0.5 := Rat.floor_le _
  have hj' : (level j : Rat) ≤ reverseCurve.value j + 0.5 := Rat.floor_le _
  constructor
  · refine Rat.le_floor_iff.mpr ?_
    show _ ≤ reverseCurve.value j + 0.5
    push_cast
    linarith
  · refine Int.le_add_of_sub_right_le (Rat.le_floor_iff.mpr ?_)
    show _ ≤ reverseCurve.value i + 0.5
    push_cast
    linarith

theorem reverseTable_getElem (hi : i < reverseTableSize) :
    reverseTable[i] = Scale.entry reverseCurve i :=
  Vector.getElem_ofFn hi

/-! ## The slopes of the curve and some of its entries -/

/-- The curve rises by at most three for each entry, in the middle by at most two, then by at least
one, and by two at the end. -/
theorem slopes :
    Spline.risesWithin (0 : Int) (3 : Int) (0 : Nat) (65535 : Nat) reverseCurve.inner
        reverseCurve.last = true ∧
      Spline.risesWithin (0 : Int) (2 : Int) (32767 : Nat) (48698 : Nat) reverseCurve.inner
        reverseCurve.last = true ∧
      Spline.risesWithin (1 : Int) (3 : Int) (48698 : Nat) (49131 : Nat) reverseCurve.inner
        reverseCurve.last = true ∧
      Spline.risesWithin (2 : Int) (2 : Int) (49131 : Nat) (65535 : Nat) reverseCurve.inner
        reverseCurve.last = true := by
  decide +kernel

theorem levels :
    level 0 ≤ 0 ∧ level 29200 = 30238 ∧ level 36336 = 30272 ∧ level 48698 = 31861 ∧
      level 48699 = 31862 ∧ level 49131 = 32726 ∧ level 65535 = 65534 := by
  decide +kernel

/-- No entry is cut off at the upper end of the scale. -/
theorem toNat_reverseTable (hi : i < reverseTableSize) :
    reverseTable[i].toNat = (level i).toNat := by
  have hi' : i < 65536 := hi
  have hle := (level_rise slopes.1 (Nat.zero_le i) (show i ≤ 65535 by omega) le_rfl).1
  obtain ⟨-, -, -, -, -, -, hlast⟩ := levels
  rw [reverseTable_getElem hi, Scale.entry, UInt16.toNat_ofNat']
  show min (level i).toNat 65535 % 65536 = (level i).toNat
  omega

end

end Mos8580

namespace Integrator

open Mos8580

/-- The reverse table of the model keeps its integrators inside the envelope. -/
theorem gentle_reverseTable : Gentle reverseTable where
  le_succ i hi := by
    rw [UInt16.le_iff_toNat_le, toNat_reverseTable, toNat_reverseTable]
    have hrise := (level_rise slopes.1 (Nat.zero_le i) (Nat.le_add_right i 1)
      (Nat.le_of_lt_succ hi)).1
    omega
  succ_le i hi := by
    rw [toNat_reverseTable, toNat_reverseTable]
    have hrise := (level_rise slopes.1 (Nat.zero_le i) (Nat.le_add_right i 1)
      (Nat.le_of_lt_succ hi)).2
    omega
  first_le := by
    show reverseTable[0].toNat ≤ 14636
    rw [toNat_reverseTable]
    have hfirst := levels.1
    omega
  le_last := by
    show 56941 ≤ reverseTable[65535].toNat
    rw [toNat_reverseTable]
    obtain ⟨-, -, -, -, -, -, hlast⟩ := levels
    omega
  middle i hi hlo hhi := by
    rw [toNat_reverseTable]
    have hbelow := (level_rise slopes.1 (Nat.zero_le _) hlo (by omega)).1
    have habove := (level_rise slopes.1 (Nat.zero_le _) hhi (by decide)).1
    obtain ⟨-, hfirst, hlast, -⟩ := levels
    omega

/-! ## Outputs of the model's stages -/

section

variable {vc : Int32} {vx : UInt16}

/-- The entry for a charge, without the table. -/
theorem lookup_reverseTable (vc : Int32) :
    lookup reverseTable vc =
      if 0 ≤ position vc ∧ position vc < 65536 then
        some (Scale.entry reverseCurve (position vc).toNat)
      else none := by
  have hsize : reverseTableSize = 65536 := rfl
  unfold lookup
  by_cases hpos : 0 ≤ position vc
  · by_cases hpos' : position vc < 65536
    · rw [if_pos hpos, if_pos ⟨hpos, hpos'⟩, Vector.getElem?_eq_getElem (by omega),
        reverseTable_getElem]
    · rw [if_pos hpos, if_neg fun h => hpos' h.2, Vector.getElem?_eq_none (by omega)]
  · rw [if_neg hpos, if_neg fun h => hpos h.1]

/-- A step on the curve itself, without the table. -/
def stepOnCurve (s : Integrator) (vi : Int32) : Integrator × Except IntegratorFault Int32 :=
  if s.vx < s.gate then
    let vc := s.vc + s.current vi
    if 0 ≤ position vc ∧ position vc < 65536 then
      let vx := Scale.entry reverseCurve (position vc).toNat
      ({ s with vx, vc }, .ok (outputOf vx vc))
    else ({ s with vc }, .error (.chargeOutsideTable vc))
  else (s, .error (.subthreshold s.vx s.gate))

theorem step_eq_stepOnCurve {s : Integrator} (h : s.table = reverseTable) (vi : Int32) :
    s.step vi = s.stepOnCurve vi := by
  unfold step stepOnCurve
  dsimp only
  rw [h, lookup_reverseTable]
  by_cases hinside : 0 ≤ position (s.vc + s.current vi) ∧ position (s.vc + s.current vi) < 65536
  · rw [if_pos hinside, if_pos hinside]
  · rw [if_neg hinside, if_neg hinside]

theorem lookup_eq_level (h : lookup reverseTable vc = some vx) :
    0 ≤ position vc ∧ position vc < 65536 ∧ vx.toNat = (level (position vc).toNat).toNat := by
  obtain ⟨hpos, hlt, rfl⟩ := lookup_eq_some_iff.mp h
  have hlt' : (position vc).toNat < 65536 := hlt
  exact ⟨hpos, by omega, toNat_reverseTable hlt⟩

/-- Up to its entry 48698 the table is not below the line on which the output is zero. -/
theorem line_le_level {i : Nat} (hlo : 32767 ≤ i) (hhi : i ≤ 48698) :
    2 * (i : Int) - 65535 ≤ level i := by
  have hrise := (level_rise slopes.2.1 hlo hhi le_rfl).2
  obtain ⟨-, -, -, hlast, -⟩ := levels
  omega

/-- Beyond that entry the table stays close to the line. -/
theorem near_line_le_level {i : Nat} (hlo : 48698 ≤ i) (hhi : i ≤ 65535) :
    2 * (i : Int) - 65969 ≤ level i := by
  obtain ⟨-, -, -, hfirst, -, hknot, -⟩ := levels
  rcases Nat.le_total i 49131 with hnear | hfar
  · have hrise := (level_rise slopes.2.2.1 le_rfl hlo hnear).1
    omega
  · have hrise := (level_rise slopes.2.2.2 le_rfl hfar hhi).1
    omega

/-- An output is at most little below zero, and only from a voltage of 31862 on. -/
theorem output_bounds (h : lookup reverseTable vc = some vx) :
    -434 ≤ (outputOf vx vc).toInt ∧ ((outputOf vx vc).toInt < 0 → 31862 ≤ vx.toNat) := by
  rw [toInt_outputOf]
  obtain ⟨hpos, hpos', hvx⟩ := lookup_eq_level h
  obtain ⟨i, hi⟩ := Int.eq_ofNat_of_zero_le hpos
  rw [hi, Int.toNat_natCast] at hvx
  rw [hi] at hpos'
  -- An entry covers two output units.
  have hhalf : 2 * (i : Int) - 65536 ≤ vc.toInt / 16384 ∧
      vc.toInt / 16384 ≤ 2 * (i : Int) - 65535 := by
    rw [position] at hi
    omega
  rcases Nat.lt_or_ge i 32767 with hlow | hhigh
  · omega
  · rcases Nat.lt_or_ge i 48699 with hbelow | habove
    · have hline := line_le_level hhigh (by omega)
      omega
    · have hline := near_line_le_level (show 48698 ≤ i by omega) (by omega)
      have hrise := (level_rise slopes.1 (Nat.zero_le _) habove (by omega)).1
      obtain ⟨-, -, -, -, hfirst, -⟩ := levels
      omega

end

end Integrator

end SignalPath
