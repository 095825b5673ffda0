import SignalPath.Proofs.Number.Binary64
import SignalPath.Rate.Basic

/-!
# Patterns tell values apart

A pattern determines its value, and no number has a pattern with the bits that mark what is not a
number. Ratios with the same pattern are therefore equal, also if they are not numbers, although the
pattern of such a ratio is made up from its payload.
-/

namespace SignalPath

namespace Binary64

open Float.Model (UnpackedFloat)
open Float.Model.Format (binary64)

variable {x y : Float}

theorem eq_of_toBits_eq (h : x.toBits = y.toBits) : x = y := by
  obtain ⟨⟨p, hp⟩⟩ := x
  obtain ⟨⟨q, hq⟩⟩ := y
  obtain rfl : p = q := h
  rfl

/-- What is not a number has all bits of its exponent set and some of its fraction. -/
theorem numeric_iff : Numeric x ↔
    ¬ ((UnpackedFloat.unpackExponent x.toBits.toBitVec : BitVec binary64.exponentBits) = -1#_ ∧
      (UnpackedFloat.unpackMantissa x.toBits.toBitVec :
        BitVec binary64.mantissaBitsWithoutImplicit) ≠ 0#_) := by
  show UnpackedFloat.unpack binary64 x.toBits.toBitVec ≠ .notANumber ↔ _
  unfold UnpackedFloat.unpack
  dsimp only
  split
  · split <;> simp_all
  · split
    · split <;> simp_all
    · simp_all

/-- There is only one value that is not a number. -/
theorem eq_of_not_numeric (hx : ¬ Numeric x) (hy : ¬ Numeric y) : x = y := by
  rw [numeric_iff, not_not] at hx hy
  have hx' := x.toModel.valid.eq_packedNaN hx.1 hx.2
  have hy' := y.toModel.valid.eq_packedNaN hy.1 hy.2
  exact eq_of_toBits_eq (UInt64.toBitVec_inj.mp (hx'.trans hy'.symm))

theorem isNumber_iff : isNumber x = true ↔ Numeric x := by
  rw [isNumber, decide_eq_true_iff]
  exact ⟨fun h => (numeric_of_le h).1, float_le_refl⟩

theorem not_numeric_of_toBits_eq {p : UInt64} (h : x.toBits = p ||| notNumberBits) :
    ¬ Numeric x := by
  rw [numeric_iff, not_not, h]
  constructor
  · have hones : ∀ i < 11, (9221120237041090560#64).getLsbD (52 + i) = true := by decide
    have hones' : ∀ i, ∀ h : i < 11, (2047#11)[i] = true := by decide
    ext i hi
    have hset : (p.toBitVec.getLsbD (52 + i) || (9221120237041090560#64).getLsbD (52 + i)) =
        (2047#11)[i] := by
      rw [hones i hi, hones' i hi, Bool.or_true]
    simpa [UnpackedFloat.unpackExponent, notNumberBits] using hset
  · intro hzero
    have hlead := congrArg (fun b => b.getLsbD 51) hzero
    simp [UnpackedFloat.unpackMantissa, notNumberBits] at hlead

end Binary64

namespace Ratio

open Binary64

variable {r r' : Ratio Float}

theorem pattern_of_numeric (h : Numeric r.value) : r.pattern = r.value.toBits := by
  rw [pattern, if_pos (isNumber_iff.mpr h)]

theorem pattern_of_not_numeric (h : ¬ Numeric r.value) :
    r.pattern = r.payload ||| notNumberBits := by
  rw [pattern, if_neg (mt isNumber_iff.mp h)]

/-- Ratios with the same pattern are the same. -/
theorem value_eq_of_pattern_eq (h : r.pattern = r'.pattern) : r.value = r'.value := by
  by_cases hr : Numeric r.value
  · by_cases hr' : Numeric r'.value
    · rw [pattern_of_numeric hr, pattern_of_numeric hr'] at h
      exact eq_of_toBits_eq h
    · rw [pattern_of_numeric hr, pattern_of_not_numeric hr'] at h
      exact absurd hr (not_numeric_of_toBits_eq h)
  · by_cases hr' : Numeric r'.value
    · rw [pattern_of_not_numeric hr, pattern_of_numeric hr'] at h
      exact absurd hr' (not_numeric_of_toBits_eq h.symm)
    · exact eq_of_not_numeric hr hr'

end Ratio

end SignalPath
