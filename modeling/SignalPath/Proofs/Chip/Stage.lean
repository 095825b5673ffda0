import SignalPath.Proofs.Chip.ReverseTable
import SignalPath.Proofs.Chip.Settings

/-!
# A stage of a cascade

A stage takes the output of another stage, which need not lie in the envelope of a single
integrator: it may be above the gate voltage, below the quiet level, and a little below zero.
Everything from zero on is answered. An input below zero lies below the whole table, so that the
stage discharges and may leave the table at its lower end; there is no other way to fail.
-/

namespace SignalPath.Integrator

open Mos8580

section

variable {s : Integrator} {vi vc vc' : Int32} {vx : UInt16}

/-! ## Moving down the table -/

/-- The table rises by at most three units for each entry from zero on. -/
theorem vx_le_position (h : lookup reverseTable vc = some vx) :
    (vx.toNat : Int) ≤ 3 * position vc := by
  obtain ⟨hpos, hpos', hvx⟩ := lookup_eq_level h
  have hrise := (level_rise slopes.1 le_rfl (Nat.zero_le (position vc).toNat)
    (by omega)).2
  have hfirst := levels.1
  omega

/-- A lower position that is still inside the table has no higher voltage. -/
theorem lookup_of_le (h : lookup reverseTable vc = some vx) (hpos : 0 ≤ position vc')
    (hle : position vc' ≤ position vc) :
    ∃ vx', lookup reverseTable vc' = some vx' ∧ vx'.toNat ≤ vx.toNat := by
  obtain ⟨-, hlt, hvx⟩ := lookup_eq_level h
  have hlookup := lookup_reverseTable vc'
  rw [if_pos ⟨hpos, by omega⟩] at hlookup
  refine ⟨_, hlookup, ?_⟩
  have hrise := (level_rise slopes.1 (Nat.zero_le _)
    (show (position vc').toNat ≤ (position vc).toNat by omega) (by omega)).1
  rw [(lookup_eq_level hlookup).2.2, hvx]
  omega

end

/-- A stage of the model with its default gate voltage. It is discharged, or its voltage belongs to
its charge and is below the gate. -/
structure Stage (s : Integrator) : Prop where
  table_eq : s.table = reverseTable
  gate_eq : s.gate = 44436
  factor_le : s.factor.toNat ≤ 1784
  level : s.vx = 0 ∧ s.vc = 0 ∨ lookup reverseTable s.vc = some s.vx ∧ s.vx.toNat < 44436

section

variable {s : Integrator} {vi : Int32}

theorem Stage.toNat_gate (h : Stage s) : (s.gate.toNat : Int) = 44436 := by
  rw [h.gate_eq]
  rfl

theorem Stage.vx_lt (h : Stage s) : s.vx.toNat < 44436 := by
  rcases h.level with ⟨hvx, -⟩ | ⟨-, hvx⟩
  · rw [hvx]
    decide
  · exact hvx

/-! ## One step -/

/-- The difference of squares does not wrap, down to an input a little below zero. -/
theorem Stage.drive_fits (h : Stage s) (hvi : -1904 ≤ vi.toInt) :
    -2147483648 ≤ s.drive vi.toInt ∧ s.drive vi.toInt < 2147483648 := by
  have hvx := h.vx_lt
  have hsource : ((44436 : Int) - s.vx.toNat) ^ 2 ≤ 46340 ^ 2 :=
    pow_le_pow_left₀ (by omega) (by omega) 2
  have hdrain : max 0 ((44436 : Int) - vi.toInt) ^ 2 ≤ 46340 ^ 2 :=
    pow_le_pow_left₀ (le_max_left _ _) (by omega) 2
  have hsource' : 0 ≤ ((44436 : Int) - s.vx.toNat) ^ 2 := sq_nonneg _
  have hdrain' : 0 ≤ max 0 ((44436 : Int) - vi.toInt) ^ 2 := sq_nonneg _
  rw [drive, h.toNat_gate]
  omega

theorem Stage.position_step (h : Stage s) (hlookup : lookup reverseTable s.vc = some s.vx)
    (hvi : -1904 ≤ vi.toInt) :
    position (s.vc + s.current vi) =
      (s.vc.toInt + s.factor.toNat * (s.drive vi.toInt / 32768)) / 32768 + 32768 := by
  obtain ⟨hfits, hfits'⟩ := h.drive_fits hvi
  exact position_add_current h.factor_le (by rwa [h.table_eq]) hfits hfits'

/-- An input that is not below the voltage, even one above the gate, does not bring it up to the
gate. -/
theorem Stage.lookup_of_rises (h : Stage s) (hlookup : lookup reverseTable s.vc = some s.vx)
    (hrises : (s.vx.toNat : Int) ≤ vi.toInt) :
    ∃ vx, lookup reverseTable (s.vc + s.current vi) = some vx ∧ vx.toNat < 44436 := by
  have hvx := h.vx_lt
  have hgate := h.toNat_gate
  obtain ⟨hup, hclose⟩ := position_of_rises h.factor_le (by omega) (by omega) hrises
    (h.position_step hlookup (by omega))
  obtain ⟨vx, hlookup', -, hle⟩ := gentle_reverseTable.lookup_up hlookup hup (by omega)
  exact ⟨vx, hlookup', by omega⟩

/-- Where a step leads: to an entry of the table below the gate, or below the whole table, which
only an input below zero does. -/
theorem Stage.lookup_step (h : Stage s) (hvi : -1904 ≤ vi.toInt) :
    (∃ vx, lookup reverseTable (s.vc + s.current vi) = some vx ∧ vx.toNat < 44436) ∨
      vi.toInt < 0 ∧ position (s.vc + s.current vi) < 0 := by
  rcases h.level with ⟨-, hvc⟩ | ⟨hlookup, hvx⟩
  · have hgentle : Gentle s.table := h.table_eq ▸ gentle_reverseTable
    obtain ⟨vx, hlookup, -, hle⟩ : ∃ vx, lookup s.table (s.vc + s.current vi) = some vx ∧
      14640 ≤ vx.toNat ∧ vx.toNat ≤ 31931 := lookup_of_discharged hgentle h.factor_le hvc
    rw [h.table_eq] at hlookup
    exact Or.inl ⟨vx, hlookup, by omega⟩
  · rcases Int.lt_or_le vi.toInt s.vx.toNat with hfalls | hrises
    · have hgate := h.toNat_gate
      obtain ⟨hdown, hclose⟩ := position_of_falls h.factor_le (by omega) (by omega) hfalls
        (h.position_step hlookup hvi)
      have hheight := vx_le_position hlookup
      rcases Int.lt_or_le (position (s.vc + s.current vi)) 0 with hout | hin
      · exact Or.inr ⟨by omega, hout⟩
      · obtain ⟨vx, hlookup', hle⟩ := lookup_of_le hlookup hin hdown
        exact Or.inl ⟨vx, hlookup', by omega⟩
    · exact Or.inl (h.lookup_of_rises hlookup hrises)

/-- An input that is not far below zero is answered, and the answer is not far below zero either; or
it is below zero, and the stage has discharged beyond the lower end of the table. -/
theorem Stage.step_cases (h : Stage s) (hvi : -1904 ≤ vi.toInt) :
    (∃ s' vo, s.step vi = (s', .ok vo) ∧ Stage s' ∧ -1904 ≤ vo.toInt ∧
      (vo.toInt < 0 → 31862 ≤ s'.vx.toNat)) ∨
    vi.toInt < 0 ∧ ∃ s' charge, s.step vi = (s', .error (.chargeOutsideTable charge)) ∧
      charge.toInt < -2 ^ 30 := by
  have hgate : s.vx < s.gate := by
    rw [UInt16.lt_iff_toNat_lt, h.gate_eq]
    exact h.vx_lt
  rcases h.lookup_step hvi with ⟨vx, hlookup, hvx⟩ | ⟨hneg, hout⟩
  · obtain ⟨hlo, hhigh⟩ := output_bounds hlookup
    refine Or.inl ⟨_, _, step_of_lookup hgate (by rwa [h.table_eq]), ?_, by omega, hhigh⟩
    exact ⟨h.table_eq, h.gate_eq, h.factor_le, Or.inr ⟨hlookup, hvx⟩⟩
  · refine Or.inr ⟨hneg, _, _, step_of_no_lookup hgate ?_, ?_⟩
    · rw [h.table_eq, lookup_reverseTable, if_neg fun hin => absurd hin.1 (by omega)]
    · rw [position] at hout
      omega

theorem Stage.position_mem (h : Stage s) : 0 ≤ position s.vc ∧ position s.vc < 65536 := by
  rcases h.level with ⟨-, hvc⟩ | ⟨hlookup, -⟩
  · rw [hvc]
    decide
  · obtain ⟨hpos, hpos', -⟩ := lookup_eq_level hlookup
    exact ⟨hpos, hpos'⟩

/-- Without a factor of zero, every input below zero takes some of the charge. -/
theorem Stage.charge_lt (h : Stage s) (hfactor : s.factor ≠ 0) (hvi : -1904 ≤ vi.toInt)
    (hneg : vi.toInt < 0) : (s.vc + s.current vi).toInt < s.vc.toInt := by
  have hvx := h.vx_lt
  obtain ⟨hpos, hpos'⟩ := h.position_mem
  obtain ⟨hcurrent, hcurrent'⟩ := current_bounds h.factor_le vi
  obtain ⟨hfits, hfits'⟩ := h.drive_fits hvi
  have hsome : 0 < (s.factor.toNat : Int) :=
    Int.natCast_pos.mpr (Nat.pos_of_ne_zero fun hzero => hfactor (UInt16.toNat_inj.mp hzero))
  have hdrive : s.drive vi.toInt < 0 := by
    have hlt : ((44436 : Int) - s.vx.toNat) ^ 2 < (44436 - vi.toInt) ^ 2 :=
      pow_lt_pow_left₀ (by omega) (by omega) (by decide)
    rw [drive, h.toNat_gate, Int.max_eq_right (by omega)]
    omega
  have hpulls : (s.factor.toNat : Int) * (s.drive vi.toInt / 32768) < 0 :=
    Int.mul_neg_of_pos_of_neg hsome (by omega)
  have hwrap : (s.drive vi.toInt).bmod 4294967296 = s.drive vi.toInt :=
    Int.bmod_eq_of_le (by omega) (by omega)
  rw [toInt_vc_add hpos hpos' hcurrent hcurrent',
    toInt_current_of_le (h.factor_le.trans (by decide)), hwrap]
  omega

/-- A fresh integrator of the model, with any value of the cutoff register, is such a stage. -/
theorem stage_of_model {new : Integrator} {register : UInt16}
    (hnew : FilterModel.mos8580.integrator = .ok new)
    (hset : new.setWidth (cutoffWidth register) = .ok s) : Stage s := by
  rw [FilterModel.integrator, start_mos8580] at hnew
  rw [← Except.ok.inj hnew] at hset
  obtain ⟨factor, hfactor, hle⟩ := setWidth_cutoffWidth
    (s := ⟨FilterModel.mos8580.table, FilterModel.mos8580.circuit, 0, 0, 44436, 0⟩) rfl register
  rw [hfactor] at hset
  rw [← Except.ok.inj hset]
  exact ⟨rfl, rfl, hle, Or.inl ⟨rfl, rfl⟩⟩

end

end SignalPath.Integrator
