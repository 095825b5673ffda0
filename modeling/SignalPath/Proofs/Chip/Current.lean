import Mathlib.Tactic.Ring
import SignalPath.Chip.Integrator

/-!
# The current of an integrator in whole numbers

What one step does to the charge, freed from the words it is computed in: the current is the
difference of two squares, brought into the range of a 32-bit word with sign, shifted and scaled.
-/

namespace SignalPath.Integrator

/-- The difference of squares that drives the current, as the exact law has it. -/
def drive (s : Integrator) (vi : Int) : Int :=
  ((s.gate.toNat : Int) - s.vx.toNat) ^ 2 - max 0 ((s.gate.toNat : Int) - vi) ^ 2

theorem toInt_word (x : UInt16) : x.toUInt32.toInt32.toInt = x.toNat := by
  have hx : x.toNat < 65536 := x.toNat_lt
  rw [← Int32.toInt_toBitVec, BitVec.toInt_eq_toNat_bmod]
  show ((x.toUInt32.toNat : Int)).bmod (2 ^ 32) = x.toNat
  rw [UInt16.toNat_toUInt32, Int.bmod_eq_of_le] <;> omega

theorem toInt_shiftRight (x : Int32) : (x >>> 15).toInt = x.toInt / 32768 := by
  show (x.toBitVec.sshiftRight' ((15 : Int32).toBitVec.smod 32)).toInt = _
  rw [BitVec.sshiftRight_eq', BitVec.toInt_sshiftRight, Int.shiftRight_eq_div_pow]
  rfl

theorem toInt_shiftRight_14 (x : Int32) : (x >>> 14).toInt = x.toInt / 16384 := by
  show (x.toBitVec.sshiftRight' ((14 : Int32).toBitVec.smod 32)).toInt = _
  rw [BitVec.sshiftRight_eq', BitVec.toInt_sshiftRight, Int.shiftRight_eq_div_pow]
  rfl

/-- The drain term, as a word, is the distance to the gate modulo the word. -/
theorem bmod_drain (s : Integrator) (vi : Int32) :
    (if vi < s.gate.toUInt32.toInt32 then s.gate.toUInt32.toInt32 - vi else 0).toInt =
      (max 0 ((s.gate.toNat : Int) - vi.toInt)).bmod 4294967296 := by
  by_cases h : vi.toInt < s.gate.toNat
  · rw [if_pos (Int32.lt_iff_toInt_lt.mpr (by rwa [toInt_word])), Int32.toInt_sub, toInt_word,
      Int.max_eq_right (by omega)]
  · rw [if_neg fun h' => h (by rwa [Int32.lt_iff_toInt_lt, toInt_word] at h'),
      Int.max_eq_left (by omega)]
    rfl

/-- The current in whole numbers. -/
theorem toInt_current (s : Integrator) (vi : Int32) :
    (s.current vi).toInt =
      ((s.factor.toNat : Int) * ((s.drive vi.toInt).bmod 4294967296 / 32768)).bmod 4294967296 := by
  have hsource : (s.gate.toUInt32 - s.vx.toUInt32).toInt32.toInt =
      ((s.gate.toNat : Int) - s.vx.toNat).bmod 4294967296 := by
    rw [UInt32.toInt32_sub, Int32.toInt_sub, toInt_word, toInt_word]
  have hdrain : (if vi < s.gate.toUInt32.toInt32 then (s.gate.toUInt32.toInt32 - vi).toUInt32
        else 0).toInt32.toInt = (max 0 ((s.gate.toNat : Int) - vi.toInt)).bmod 4294967296 := by
    rw [← bmod_drain]
    split <;> rfl
  rw [drive, pow_two, pow_two, current, Int32.toInt_mul, toInt_word, toInt_shiftRight,
    UInt32.toInt32_sub, Int32.toInt_sub, UInt32.toInt32_mul, Int32.toInt_mul, UInt32.toInt32_mul,
    Int32.toInt_mul, hsource, hdrain]
  simp

/-- With a factor of at most 15 bits the scaled current fits its word. -/
theorem toInt_current_of_le {s : Integrator} (hfactor : s.factor.toNat ≤ 32768) (vi : Int32) :
    (s.current vi).toInt =
      (s.factor.toNat : Int) * ((s.drive vi.toInt).bmod 4294967296 / 32768) := by
  rw [toInt_current]
  have hlo : -2147483648 ≤ (s.drive vi.toInt).bmod 4294967296 := Int.le_bmod (by decide)
  have hhi : (s.drive vi.toInt).bmod 4294967296 < 2147483648 := Int.bmod_lt (by decide)
  generalize (s.drive vi.toInt).bmod 4294967296 = d at hlo hhi
  have hshift : -65536 ≤ d / 32768 ∧ d / 32768 ≤ 65535 := by omega
  generalize d / 32768 = k at hshift
  have hlow : -65536 * (s.factor.toNat : Int) ≤ s.factor.toNat * k := by
    rw [Int.mul_comm]
    exact Int.mul_le_mul_of_nonneg_left hshift.1 (by omega)
  have hhigh : (s.factor.toNat : Int) * k ≤ s.factor.toNat * 65535 :=
    Int.mul_le_mul_of_nonneg_left hshift.2 (by omega)
  rw [Int.bmod_eq_of_le] <;> omega

/-- A step that is not below the threshold stores the charge that the current leads to, whether or
not the reverse table has an entry for it. -/
theorem step_vc {s : Integrator} (h : s.vx < s.gate) (vi : Int32) :
    (s.step vi).1.vc = s.vc + s.current vi := by
  simp only [step, if_pos h]
  cases lookup s.table (s.vc + s.current vi) <;> rfl

/-- A step that is not below the threshold and stays inside the table succeeds. -/
theorem step_of_lookup {s : Integrator} (h : s.vx < s.gate) {vi : Int32} {vx : UInt16}
    (hlookup : lookup s.table (s.vc + s.current vi) = some vx) :
    s.step vi = ({ s with vx, vc := s.vc + s.current vi },
      .ok (outputOf vx (s.vc + s.current vi))) := by
  simp only [step, if_pos h, hlookup]

/-- A step that leaves the table fails, and has stored the charge. -/
theorem step_of_no_lookup {s : Integrator} (h : s.vx < s.gate) {vi : Int32}
    (hlookup : lookup s.table (s.vc + s.current vi) = none) :
    s.step vi = ({ s with vc := s.vc + s.current vi },
      .error (.chargeOutsideTable (s.vc + s.current vi))) := by
  simp only [step, if_pos h, hlookup]

/-- A step does not touch the table. -/
@[simp]
theorem step_table (s : Integrator) (vi : Int32) : (s.step vi).1.table = s.table := by
  simp only [step]
  split
  · cases lookup s.table (s.vc + s.current vi) <;> rfl
  · rfl

theorem toInt_outputOf (vx : UInt16) (vc : Int32) :
    (outputOf vx vc).toInt = vx.toNat - vc.toInt / 16384 := by
  have hvc := vc.le_toInt
  have hvc' := vc.toInt_lt
  have hvx := vx.toNat_lt
  rw [outputOf, Int32.toInt_sub, toInt_word, toInt_shiftRight_14, Int.bmod_eq_of_le] <;> omega

/-! ## The reverse table -/

/-- A charge inside the table belongs to the entry at its position. -/
theorem lookup_eq_some_iff {table : ReverseTable} {vc : Int32} {vx : UInt16} :
    lookup table vc = some vx ↔
      0 ≤ position vc ∧ ∃ h : (position vc).toNat < reverseTableSize,
        table[(position vc).toNat] = vx := by
  by_cases hlo : 0 ≤ position vc
  · rw [lookup, if_pos hlo, Vector.getElem?_eq_some_iff]
    exact ⟨fun h => ⟨hlo, h⟩, fun h => h.2⟩
  · rw [lookup, if_neg hlo]
    constructor
    · intro h
      exact absurd h (by simp)
    · intro h
      exact absurd h.1 hlo

theorem lookup_eq_none_iff {table : ReverseTable} {vc : Int32} :
    lookup table vc = none ↔ ¬ (0 ≤ position vc ∧ position vc < 65536) := by
  have hsize : reverseTableSize = 65536 := rfl
  rw [← not_iff_not, not_not, ← ne_eq, Option.ne_none_iff_exists']
  constructor
  · rintro ⟨vx, hvx⟩
    obtain ⟨hlo, hlt, -⟩ := lookup_eq_some_iff.mp hvx
    omega
  · rintro ⟨hlo, hhi⟩
    exact ⟨_, lookup_eq_some_iff.mpr ⟨hlo, by omega, rfl⟩⟩

/-- The table covers thirty bits of charge and a sign. -/
theorem position_mem_iff {vc : Int32} :
    0 ≤ position vc ∧ position vc < 65536 ↔ -1073741824 ≤ vc.toInt ∧ vc.toInt < 1073741824 := by
  rw [position]
  omega

/-- The current of one step is far smaller than the table is wide. -/
theorem current_bounds {s : Integrator} (hfactor : s.factor.toNat ≤ 1784) (vi : Int32) :
    -116916224 ≤ (s.current vi).toInt ∧ (s.current vi).toInt ≤ 116916224 := by
  rw [toInt_current_of_le (by omega)]
  have hlo : -2147483648 ≤ (s.drive vi.toInt).bmod 4294967296 := Int.le_bmod (by decide)
  have hhi : (s.drive vi.toInt).bmod 4294967296 < 2147483648 := Int.bmod_lt (by decide)
  generalize (s.drive vi.toInt).bmod 4294967296 = d at hlo hhi
  have hlow : (s.factor.toNat : Int) * -65536 ≤ s.factor.toNat * (d / 32768) :=
    Int.mul_le_mul_of_nonneg_left (by omega) (by omega)
  have hhigh : (s.factor.toNat : Int) * (d / 32768) ≤ s.factor.toNat * 65536 :=
    Int.mul_le_mul_of_nonneg_left (by omega) (by omega)
  omega

/-- The charge after a step from inside the table, without wrapping. -/
theorem toInt_vc_add {s : Integrator} {x : Int32} (hpos : 0 ≤ position s.vc)
    (hpos' : position s.vc < 65536) (hlo : -116916224 ≤ x.toInt) (hhi : x.toInt ≤ 116916224) :
    (s.vc + x).toInt = s.vc.toInt + x.toInt := by
  obtain ⟨hvc, hvc'⟩ := position_mem_iff.mp ⟨hpos, hpos'⟩
  rw [Int32.toInt_add, Int.bmod_eq_of_le] <;> omega

/-- The charge after a step from inside the table, if the difference of squares does not wrap. -/
theorem toInt_vc_add_current {s : Integrator} {vi : Int32} (hfactor : s.factor.toNat ≤ 1784)
    (hvx : lookup s.table s.vc = some s.vx) (hlo : -2147483648 ≤ s.drive vi.toInt)
    (hhi : s.drive vi.toInt < 2147483648) :
    (s.vc + s.current vi).toInt = s.vc.toInt + s.factor.toNat * (s.drive vi.toInt / 32768) := by
  obtain ⟨hpos, hpos', -⟩ := lookup_eq_some_iff.mp hvx
  have hpos'' : (position s.vc).toNat < 65536 := hpos'
  obtain ⟨hcurrent, hcurrent'⟩ := current_bounds hfactor vi
  have hwrap : (s.drive vi.toInt).bmod 4294967296 = s.drive vi.toInt :=
    Int.bmod_eq_of_le (by omega) (by omega)
  rw [toInt_vc_add hpos (by omega) hcurrent hcurrent', toInt_current_of_le (by omega), hwrap]

/-- The position after such a step. -/
theorem position_add_current {s : Integrator} {vi : Int32} (hfactor : s.factor.toNat ≤ 1784)
    (hvx : lookup s.table s.vc = some s.vx) (hlo : -2147483648 ≤ s.drive vi.toInt)
    (hhi : s.drive vi.toInt < 2147483648) :
    position (s.vc + s.current vi) =
      (s.vc.toInt + s.factor.toNat * (s.drive vi.toInt / 32768)) / 32768 + 32768 := by
  rw [position, toInt_vc_add_current hfactor hvx hlo hhi]

end SignalPath.Integrator
