import SignalPath.Proofs.Number.Operations

/-!
# Comparison, whole parts and packing

The extended value of a number also covers the infinities. Comparison is that of extended values.
Packing a canonical number into the bits of a format keeps it if it is below the format's limit, and
makes it infinite otherwise; so a packed result has the extended value of the exact result after
rounding and overflow, which is monotone in the exact result.
-/

namespace SignalPath.Rounding

open Float.Model (Format totalExponent)
open Float.Model Float.Model.UnpackedFloat

/-- The value of a number that may be infinite, 0 for what is not a number. -/
noncomputable def extValue : UnpackedFloat → EReal
  | .infinity .positive => ⊤
  | .infinity .negative => ⊥
  | a => (value a : ℝ)

section

variable {F : Format} {a b : UnpackedFloat} {x y : ℝ}

theorem extValue_of_finite (h : a.isFinite = true) : extValue a = (value a : ℝ) := by
  cases a with
  | infinity s => cases h
  | notANumber => cases h
  | zero s => rfl
  | finite s m e hm => rfl

/-- A number whose extended value is real is finite and has that value. -/
theorem finite_of_extValue (h : a ≠ .notANumber) (hx : extValue a = (x : ℝ)) :
    a.isFinite = true ∧ value a = x := by
  cases a with
  | notANumber => exact absurd rfl h
  | infinity s =>
    cases s with
    | negative => exact absurd hx.symm (EReal.coe_ne_bot x)
    | positive => exact absurd hx.symm (EReal.coe_ne_top x)
  | zero s => exact ⟨rfl, EReal.coe_injective hx⟩
  | finite s m e hm => exact ⟨rfl, EReal.coe_injective hx⟩

theorem magnitude_pos (m : ℕ) (e : ℤ) (hm : 0 < m) : (0 : ℝ) < m * 2 ^ e :=
  mul_pos (by exact_mod_cast hm) (two_zpow_pos e)

/-- Of two canonical numbers the one with the larger exponent is larger. -/
theorem magnitude_lt_of_exponent_lt {s t : Sign} {m n : ℕ} {e f : ℤ} {hm : 0 < m} {hn : 0 < n}
    (ha : Canonical F (.finite s m e hm)) (hb : Canonical F (.finite t n f hn)) (hlt : e < f) :
    (m : ℝ) * 2 ^ e < n * 2 ^ f := by
  obtain ⟨he, hm', -⟩ := ha.log
  obtain ⟨hf, -, hn'⟩ := hb.log
  have htotal : totalExponent m e ≤ totalExponent n f - 1 := by
    rw [totalExponent, totalExponent]
    omega
  exact (two_zpow_totalExponent hm e).2.trans_le
    ((two_zpow_mono htotal).trans (two_zpow_totalExponent hn f).1)

/-- Positive canonical numbers compare like their exponents and then like their mantissas. -/
theorem compares_magnitude {s t : Sign} {m n : ℕ} {e f : ℤ} {hm : 0 < m} {hn : 0 < n}
    (ha : Canonical F (.finite s m e hm)) (hb : Canonical F (.finite t n f hn)) :
    ((compare e f).then (compare m n)).Compares ((m : ℝ) * 2 ^ e) (n * 2 ^ f) := by
  rcases lt_trichotomy e f with hlt | rfl | hgt
  · rw [compare_lt_iff_lt.mpr hlt]
    exact magnitude_lt_of_exponent_lt ha hb hlt
  · rw [compare_eq_iff_eq.mpr rfl]
    have hpos := two_zpow_pos e
    rcases lt_trichotomy m n with h | rfl | h
    · rw [compare_lt_iff_lt.mpr h]
      exact mul_lt_mul_of_pos_right (by exact_mod_cast h) hpos
    · rw [compare_eq_iff_eq.mpr rfl]
      exact rfl
    · rw [compare_gt_iff_gt.mpr h]
      exact mul_lt_mul_of_pos_right (by exact_mod_cast h) hpos
  · rw [compare_gt_iff_gt.mpr hgt]
    exact magnitude_lt_of_exponent_lt hb ha hgt

/-- Finite canonical numbers compare like their values. -/
theorem compare_finite {s t : Sign} {m n : ℕ} {e f : ℤ} {hm : 0 < m} {hn : 0 < n}
    (ha : Canonical F (.finite s m e hm)) (hb : Canonical F (.finite t n f hn)) :
    ∃ o, (UnpackedFloat.finite s m e hm).compare (.finite t n f hn) = some o ∧
      o.Compares (value (.finite s m e hm)) (value (.finite t n f hn)) := by
  have hpos := magnitude_pos m e hm
  have hpos' := magnitude_pos n f hn
  have hcompares := compares_magnitude ha hb
  cases s with
  | positive =>
    cases t with
    | positive => exact ⟨_, rfl, hcompares⟩
    | negative => exact ⟨.gt, rfl, show -((n : ℝ) * 2 ^ f) < m * 2 ^ e by linarith⟩
  | negative =>
    cases t with
    | positive => exact ⟨.lt, rfl, show -((m : ℝ) * 2 ^ e) < n * 2 ^ f by linarith⟩
    | negative =>
      -- The mantissas and exponents are compared the other way around.
      refine ⟨_, rfl, ?_⟩
      revert hcompares
      cases (compare e f).then (compare m n) with
      | lt => exact neg_lt_neg
      | eq => exact congrArg Neg.neg
      | gt => exact neg_lt_neg

theorem compares_coe {o : Ordering} {x y : ℝ} (h : o.Compares x y) :
    o.Compares (x : EReal) (y : EReal) := by
  cases o with
  | lt => exact EReal.coe_lt_coe_iff.mpr h
  | eq => exact congrArg Real.toEReal h
  | gt => exact EReal.coe_lt_coe_iff.mpr h

/-- Comparison is that of extended values. -/
theorem compare_compares (ha : Canonical F a) (hb : Canonical F b) (ha' : a ≠ .notANumber)
    (hb' : b ≠ .notANumber) :
    ∃ o, a.compare b = some o ∧ o.Compares (extValue a) (extValue b) := by
  cases a with
  | notANumber => exact absurd rfl ha'
  | infinity s =>
    cases s with
    | positive =>
      cases b with
      | notANumber => exact absurd rfl hb'
      | infinity t =>
        cases t with
        | positive => exact ⟨.eq, rfl, rfl⟩
        | negative => exact ⟨.gt, rfl, bot_lt_top⟩
      | zero t => exact ⟨.gt, rfl, EReal.coe_lt_top _⟩
      | finite t n f hn => exact ⟨.gt, rfl, EReal.coe_lt_top _⟩
    | negative =>
      cases b with
      | notANumber => exact absurd rfl hb'
      | infinity t =>
        cases t with
        | positive => exact ⟨.lt, rfl, bot_lt_top⟩
        | negative => exact ⟨.eq, rfl, rfl⟩
      | zero t => exact ⟨.lt, rfl, EReal.bot_lt_coe _⟩
      | finite t n f hn => exact ⟨.lt, rfl, EReal.bot_lt_coe _⟩
  | zero s =>
    cases b with
    | notANumber => exact absurd rfl hb'
    | infinity t =>
      cases t with
      | positive => exact ⟨.lt, rfl, EReal.coe_lt_top _⟩
      | negative => exact ⟨.gt, rfl, EReal.bot_lt_coe _⟩
    | zero t => exact ⟨.eq, rfl, rfl⟩
    | finite t n f hn =>
      have hpos := magnitude_pos n f hn
      cases t with
      | positive => exact ⟨.lt, rfl, EReal.coe_lt_coe_iff.mpr hpos⟩
      | negative => exact ⟨.gt, rfl, EReal.coe_lt_coe_iff.mpr (neg_neg_of_pos hpos)⟩
  | finite s m e hm =>
    have hpos := magnitude_pos m e hm
    cases b with
    | notANumber => exact absurd rfl hb'
    | infinity t =>
      cases t with
      | positive => cases s <;> exact ⟨.lt, rfl, EReal.coe_lt_top _⟩
      | negative => cases s <;> exact ⟨.gt, rfl, EReal.bot_lt_coe _⟩
    | zero t =>
      cases s with
      | positive => exact ⟨.gt, rfl, EReal.coe_lt_coe_iff.mpr hpos⟩
      | negative => exact ⟨.lt, rfl, EReal.coe_lt_coe_iff.mpr (neg_neg_of_pos hpos)⟩
    | finite t n f hn =>
      obtain ⟨o, hcompare, hcompares⟩ := compare_finite ha hb
      exact ⟨o, hcompare, compares_coe hcompares⟩

theorem floor_magnitude (m : ℕ) (e : ℤ) :
    ((decreaseExponent m e 0).1 / 2 ^ (0 - (decreaseExponent m e 0).2).toNat : ℕ) =
      ⌊(m : ℝ) * 2 ^ e⌋ := by
  have hexponent : (decreaseExponent m e 0).2 ≤ 0 := by
    show e - ((e - 0).toNat : ℤ) ≤ 0
    omega
  have hpow : (2 : ℝ) ^ (decreaseExponent m e 0).2 =
      ((2 ^ (0 - (decreaseExponent m e 0).2).toNat : ℕ) : ℝ)⁻¹ := by
    rw [Nat.cast_pow, Nat.cast_ofNat, ← zpow_natCast, ← zpow_neg]
    congr 1
    omega
  rw [← decreaseExponent_value m e 0, hpow, ← div_eq_mul_inv, ← Int.natCast_floor_eq_floor]
  · rw [Nat.floor_div_natCast, Nat.floor_natCast]
  · positivity

/-- The conversion of a finite number to an integer drops the fraction. -/
theorem toInt_eq (lo hi : ℤ) (ha : a.isFinite = true) :
    a.toInt lo hi = if 0 ≤ value a then ⌊value a⌋ else ⌈value a⌉ := by
  cases a with
  | infinity s => cases ha
  | notANumber => cases ha
  | zero s =>
    rw [if_pos (show (0 : ℝ) ≤ value (.zero s) from le_rfl)]
    exact (Int.floor_zero (R := ℝ)).symm
  | finite s m e hm =>
    have hpos := magnitude_pos m e hm
    have htoInt : (UnpackedFloat.finite s m e hm).toInt lo hi = s.apply ⌊(m : ℝ) * 2 ^ e⌋ := by
      rw [← floor_magnitude]
      show s.apply (ExtendedMantissa.ofMantissaAndAccuracy (decreaseExponent m e 0).1 .exact >>>
        (0 - (decreaseExponent m e 0).2).toNat).mantissa = _
      rw [mantissa_shiftRight]
      rfl
    rw [htoInt]
    cases s with
    | positive =>
      rw [if_pos (show (0 : ℝ) ≤ value (.finite .positive m e hm) from hpos.le)]
      rfl
    | negative =>
      rw [if_neg (show ¬ (0 : ℝ) ≤ value (.finite .negative m e hm) from
        not_le.mpr (neg_neg_of_pos hpos))]
      exact (Int.ceil_neg).symm

/-- The conversion to a natural number drops the fraction, and a negative number altogether. -/
theorem toInt_toNat (lo hi : ℤ) (ha : a.isFinite = true) :
    (a.toInt lo hi).toNat = ⌊value a⌋₊ := by
  rw [toInt_eq _ _ ha]
  split_ifs with h
  · rfl
  · rw [Int.toNat_eq_zero.mpr (Int.ceil_le.mpr (by simpa using (not_le.mp h).le))]
    exact (Nat.floor_of_nonpos (not_le.mp h).le).symm

/-- The conversion to a word saturates. -/
theorem toUInt64_toNat (ha : a.isFinite = true) :
    a.toUInt64.toNat = min ⌊value a⌋₊ 18446744073709551615 := by
  show (UInt64.ofNatClamp (a.toInt 0 (UInt64.size - 1)).toNat).toNat = _
  rw [toInt_toNat _ _ ha]
  by_cases h : ⌊value a⌋₊ < UInt64.size
  · have h' : ⌊value a⌋₊ < 18446744073709551616 := h
    rw [UInt64.ofNatClamp_eq_ofNat _ h, UInt64.toNat_ofNat']
    omega
  · have h' : ¬ ⌊value a⌋₊ < 18446744073709551616 := h
    rw [UInt64.ofNatClamp, dif_neg h]
    show 18446744073709551615 = _
    omega

/-! ## Packing -/

/-- The result of a computation whose exact result is `x`: rounded, and infinite from the limit
on. -/
noncomputable def result (F : Format) (x : ℝ) : EReal :=
  if limit F ≤ nearest F x then ⊤ else if nearest F x ≤ -limit F then ⊥ else (nearest F x : ℝ)

theorem limit_pos (F : Format) : 0 < limit F := two_zpow_pos _

/-- Larger exact results do not give smaller results. -/
theorem result_mono : Monotone (result F) := by
  intro x y hxy
  have hle := nearest_mono (F := F) hxy
  have hpos := limit_pos F
  unfold result
  by_cases hy : limit F ≤ nearest F y
  · rw [if_pos hy]
    exact le_top
  · rw [if_neg hy, if_neg fun hx => hy (hx.trans hle)]
    by_cases hx : nearest F x ≤ -limit F
    · rw [if_pos hx]
      exact bot_le
    · rw [if_neg hx, if_neg fun hy => hx (hle.trans hy)]
      exact EReal.coe_le_coe_iff.mpr hle

/-- Below the limit the result is the rounded number. -/
theorem result_of_lt (h : |nearest F x| < limit F) : result F x = (nearest F x : ℝ) := by
  obtain ⟨hlo, hhi⟩ := abs_lt.mp h
  rw [result, if_neg (not_le.mpr hhi), if_neg (not_le.mpr hlo)]

section

/-- Packed exponents count from the smallest exponent of the format, which has number one. -/
theorem minExponent_add_bias (F : Format) :
    F.minExponent + F.exponentBias + F.mantissaBitsWithoutImplicit = 1 := by
  have hpow : 1 ≤ 2 ^ (F.exponentBits - 1) := Nat.one_le_two_pow
  rw [Format.minExponent, Format.exponentBias, Format.mantissaBits, Nat.cast_sub hpow]
  push_cast
  ring

/-- There are packed exponents for twice the bias and one more. -/
theorem two_pow_exponentBits (F : Format) :
    2 ^ F.exponentBits = 2 * (F.exponentBias + 1) ∧
      2 ^ (F.exponentBits - 1) = F.exponentBias + 1 := by
  have he := F.he
  have hpow : 1 ≤ 2 ^ (F.exponentBits - 1) := Nat.one_le_two_pow
  have hsplit : 2 ^ F.exponentBits = 2 * 2 ^ (F.exponentBits - 1) := by
    rw [← pow_succ']
    congr 1
    omega
  rw [Format.exponentBias]
  omega

/-- The mantissa with its implicit digit. -/
theorem toNat_implicit {n : ℕ} (v : BitVec n) : (1#1 ++ v).toNat = 2 ^ n + v.toNat := by
  rw [BitVec.toNat_append, ← Nat.shiftLeft_add_eq_or_of_lt v.isLt, Nat.shiftLeft_eq]
  simp

/-- What unpacking makes of a bit pattern is canonical. -/
theorem canonical_unpack (b : BitVec F.numBits) : Canonical F (UnpackedFloat.unpack F b) := by
  have hmin := minExponent_add_bias F
  unfold UnpackedFloat.unpack
  dsimp only
  split_ifs with hones hmantissa hzero hmantissa'
  · trivial
  · trivial
  · trivial
  · -- The smallest exponent, and too few digits for any other.
    have hlt : (unpackMantissa b).toNat.log2 < F.mantissaBitsWithoutImplicit := by
      rw [Nat.log2_lt]
      · exact (unpackMantissa b).isLt
      · intro h
        exact hmantissa' (BitVec.eq_of_toNat_eq h)
    have hexponent : (unpackExponent b).toNat = 0 := by
      rw [hzero]
      rfl
    show _ = max _ _
    rw [totalExponent, hexponent, Format.mantissaBits]
    push_cast
    omega
  · have hpos : 0 < (unpackExponent b).toNat := by
      refine Nat.pos_of_ne_zero fun h => hzero (BitVec.eq_of_toNat_eq h)
    have hlog : (1#1 ++ unpackMantissa b).toNat.log2 = F.mantissaBitsWithoutImplicit := by
      have hlt := (unpackMantissa b).isLt
      rw [toNat_implicit, Nat.log2_eq_iff (by omega), pow_succ]
      omega
    show _ = max _ _
    rw [totalExponent, hlog, Format.mantissaBits]
    push_cast
    omega

theorem unpack_packedInfinity (s : Sign) :
    UnpackedFloat.unpack F (packedInfinity F s) = .infinity s := by
  simp [UnpackedFloat.unpack, packedInfinity]

theorem finite_congr {s : Sign} {m n : ℕ} {e f : ℤ} {hm : 0 < m} {hn : 0 < n} (h : m = n)
    (h' : e = f) : UnpackedFloat.finite s m e hm = .finite s n f hn := by
  subst h h'
  rfl

variable {s : Sign} {m : ℕ} {e : ℤ} {hm : 0 < m}

/-- A canonical number below the limit of the exponents survives packing. -/
theorem unpack_pack_finite (h : Canonical F (.finite s m e hm)) (hF : 2 ≤ F.exponentBits)
    (hlt : e + F.mantissaBitsWithoutImplicit ≤ F.exponentBias) :
    UnpackedFloat.unpack F (UnpackedFloat.pack F (.finite s m e hm)) = .finite s m e hm := by
  obtain ⟨he, hlog, hnormal⟩ := h.log
  have hmin := minExponent_add_bias F
  obtain ⟨hsize, hhalf⟩ := two_pow_exponentBits F
  have hbits : F.mantissaBits = 1 + F.mantissaBitsWithoutImplicit := rfl
  have hbias : 2 ≤ F.exponentBias + 1 := by
    rw [← hhalf]
    exact Nat.le_self_pow (by omega) 2
  set biased := (e + F.exponentBias + F.mantissaBitsWithoutImplicit).toNat with hbiased
  have hfits : biased < 2 ^ F.exponentBits := by omega
  have hvec : (BitVec.ofNat F.exponentBits biased).toNat = biased := by
    rw [BitVec.toNat_ofNat, Nat.mod_eq_of_lt hfits]
  have hones : (-1#F.exponentBits).toNat = 2 ^ F.exponentBits - 1 := by
    rw [BitVec.neg_one_eq_allOnes, BitVec.toNat_allOnes]
  unfold UnpackedFloat.pack
  rw [← hbiased, if_neg (by omega)]
  split_ifs with hfull
  · have hne : BitVec.ofNat F.exponentBits biased ≠ -1#_ := by
      rw [BitVec.toNat_ne, hvec, hones]
      omega
    have hne' : BitVec.ofNat F.exponentBits biased ≠ 0#_ := by
      rw [BitVec.toNat_ne, hvec, BitVec.toNat_zero]
      omega
    simp only [UnpackedFloat.unpack, unpackExponent_packComponents, unpackMantissa_packComponents,
      unpackSign_packComponents, Sign.ofBitVec_toBitVec, if_neg hne, if_neg hne']
    apply finite_congr
    · have hlo := (Nat.le_log2 hm.ne').mp (show F.mantissaBitsWithoutImplicit ≤ m.log2 by omega)
      have hhi := (Nat.log2_lt hm.ne').mp (show m.log2 < F.mantissaBitsWithoutImplicit + 1 by omega)
      rw [pow_succ] at hhi
      rw [toNat_implicit, BitVec.toNat_ofNat, Nat.mod_eq_sub_mod hlo, Nat.mod_eq_of_lt (by omega)]
      omega
    · rw [hvec]
      omega
  · have hsmall : e = F.minExponent := by omega
    have hhi := (Nat.log2_lt hm.ne').mp (show m.log2 < F.mantissaBitsWithoutImplicit by omega)
    have hmantissa : (BitVec.ofNat F.mantissaBitsWithoutImplicit m).toNat = m := by
      rw [BitVec.toNat_ofNat, Nat.mod_eq_of_lt hhi]
    have hne : (0#F.exponentBits) ≠ -1#_ := by
      rw [BitVec.toNat_ne, hones, BitVec.toNat_zero]
      omega
    have hne' : BitVec.ofNat F.mantissaBitsWithoutImplicit m ≠ 0#_ := by
      rw [BitVec.toNat_ne, hmantissa, BitVec.toNat_zero]
      omega
    simp only [UnpackedFloat.unpack, unpackExponent_packComponents, unpackMantissa_packComponents,
      unpackSign_packComponents, Sign.ofBitVec_toBitVec, if_neg hne, if_true, dif_neg hne']
    apply finite_congr
    · exact hmantissa
    · rw [BitVec.toNat_zero, hsmall]
      push_cast
      omega

/-- A canonical number at the limit of the exponents becomes infinite. -/
theorem unpack_pack_overflow (hF : F.exponentBias < e + F.mantissaBitsWithoutImplicit) :
    UnpackedFloat.unpack F (UnpackedFloat.pack F (.finite s m e hm)) = .infinity s := by
  obtain ⟨hsize, -⟩ := two_pow_exponentBits F
  unfold UnpackedFloat.pack
  rw [if_pos (by omega), unpack_packedInfinity]

/-- The limit of the exponents is that of the values. -/
theorem limit_le_iff (h : Canonical F (.finite s m e hm)) (hF : 2 ≤ F.exponentBits) :
    limit F ≤ m * 2 ^ e ↔ F.exponentBias < e + F.mantissaBitsWithoutImplicit := by
  obtain ⟨he, hlog, hnormal⟩ := h.log
  have hmin := minExponent_add_bias F
  obtain ⟨-, hhalf⟩ := two_pow_exponentBits F
  have hbits : F.mantissaBits = 1 + F.mantissaBitsWithoutImplicit := rfl
  have hbias : 2 ≤ F.exponentBias + 1 := by
    rw [← hhalf]
    exact Nat.le_self_pow (by omega) 2
  obtain ⟨hlo, hhi⟩ := two_zpow_totalExponent hm e
  rw [totalExponent] at hlo hhi
  rw [limit, hhalf]
  constructor
  · intro h
    by_contra hlt
    exact absurd (hhi.trans_le ((two_zpow_mono (by omega)).trans h)) (lt_irrefl _)
  · intro h
    exact (two_zpow_mono (by omega)).trans hlo

end

/-- A packed result has the extended value of the exact result after rounding and overflow. -/
theorem Rounds.unpack_pack (h : Rounds F a x) (hF : 2 ≤ F.exponentBits) :
    UnpackedFloat.unpack F (UnpackedFloat.pack F a) ≠ .notANumber ∧
      extValue (UnpackedFloat.unpack F (UnpackedFloat.pack F a)) = result F x := by
  obtain ⟨hfinite, hcanonical, hvalue⟩ := h
  have hlimit := limit_pos F
  cases a with
  | infinity s => cases hfinite
  | notANumber => cases hfinite
  | zero s =>
    rw [show value (.zero s) = 0 from rfl] at hvalue
    rw [show UnpackedFloat.pack F (.zero s) = packedZero F s from rfl, unpack_packedZero,
      result_of_lt (by rwa [← hvalue, abs_zero]), ← hvalue]
    exact ⟨by simp, rfl⟩
  | finite s m e hm =>
    have hpos := magnitude_pos m e hm
    have hiff := limit_le_iff hcanonical hF
    by_cases hover : (F.exponentBias : ℤ) < e + F.mantissaBitsWithoutImplicit
    · have hle := hiff.mpr hover
      rw [unpack_pack_overflow hover, result, ← hvalue]
      cases s with
      | positive =>
        rw [if_pos (show limit F ≤ value (.finite .positive m e hm) from hle)]
        exact ⟨by simp, rfl⟩
      | negative =>
        have hneg : value (.finite .negative m e hm) = -(m * 2 ^ e) := rfl
        rw [hneg, if_neg (by linarith), if_pos (by linarith)]
        exact ⟨by simp, rfl⟩
    · have hlt : |nearest F x| < limit F := by
        rw [← hvalue]
        have hlt : (m : ℝ) * 2 ^ e < limit F := not_le.mp fun h => hover (hiff.mp h)
        cases s with
        | positive => rwa [show value (.finite .positive m e hm) = m * 2 ^ e from rfl,
            abs_of_pos hpos]
        | negative => rwa [show value (.finite .negative m e hm) = -(m * 2 ^ e) from rfl, abs_neg,
            abs_of_pos hpos]
      rw [unpack_pack_finite hcanonical hF (by omega), result_of_lt hlt, ← hvalue]
      exact ⟨by simp, rfl⟩

end

end SignalPath.Rounding
