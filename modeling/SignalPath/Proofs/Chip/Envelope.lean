import Mathlib.Algebra.Order.Ring.Int
import Mathlib.Tactic.Ring
import SignalPath.Chip.Model
import SignalPath.Proofs.Chip.Current
import SignalPath.Proofs.Chip.Run

/-!
# The operating envelope

An integrator whose reverse table rises gently never leaves its table or falls below the threshold
while its input stays between the quiet level and the gate voltage. The current of one step moves
the position in the table by so little that the voltage can come at most two units below the input,
and never as far up as the gate. Only the first step after a discharge is different: there the
difference of squares may wrap, but no wrapped current is large enough to leave the middle of the
table.
-/

namespace SignalPath.Integrator

/-- What the reverse table of the 8580 provides for its integrators. -/
structure Gentle (table : ReverseTable) : Prop where
  /-- The table rises. -/
  le_succ : ∀ i (hi : i + 1 < reverseTableSize), table[i] ≤ table[i + 1]
  /-- It rises by at most three units from entry to entry. -/
  succ_le : ∀ i (hi : i + 1 < reverseTableSize), table[i + 1].toNat ≤ table[i].toNat + 3
  /-- It begins below the inputs. -/
  first_le : (table.get ⟨0, by decide⟩).toNat ≤ 14636
  /-- It ends above the gate. -/
  le_last : 56941 ≤ (table.get ⟨65535, by decide⟩).toNat
  /-- Around the middle it stays between the inputs and the gate. -/
  middle : ∀ i (hi : i < reverseTableSize), 29200 ≤ i → i ≤ 36336 →
    14640 ≤ table[i].toNat ∧ table[i].toNat ≤ 31931

/-- Over several entries the table still rises, by at most three units for each. -/
theorem Gentle.bounds {table : ReverseTable} (h : Gentle table) {i n : Nat}
    (hn : i + n < reverseTableSize) :
    table[i].toNat ≤ table[i + n].toNat ∧ table[i + n].toNat ≤ table[i].toNat + 3 * n := by
  induction n with
  | zero => exact ⟨le_refl _, le_refl _⟩
  | succ n ih =>
    obtain ⟨hlo, hhi⟩ := ih (by omega)
    have hrises : table[i + n].toNat ≤ table[i + n + 1].toNat := h.le_succ (i + n) hn
    have hgently := h.succ_le (i + n) hn
    exact ⟨hlo.trans hrises, by simp only [← Nat.add_assoc]; omega⟩

section

variable {table : ReverseTable} {vc vc' : Int32} {vx : UInt16}

/-- A higher position whose voltage must still lie below the end of the table is in the table. -/
theorem Gentle.lookup_up (h : Gentle table) (hvx : lookup table vc = some vx)
    (hup : position vc ≤ position vc')
    (hlimit : vx.toNat + 3 * (position vc' - position vc) < 56941) :
    ∃ vx', lookup table vc' = some vx' ∧ vx.toNat ≤ vx'.toNat ∧
      (vx'.toNat : Int) ≤ vx.toNat + 3 * (position vc' - position vc) := by
  obtain ⟨hpos, hlt, rfl⟩ := lookup_eq_some_iff.mp hvx
  generalize position vc = p at *
  have hinside : position vc' < 65536 := by
    by_contra hout
    -- The end of the table lies between the two positions and is higher than it may be.
    have hsize : p.toNat + (65535 - p.toNat) < reverseTableSize := by
      have : p.toNat < 65536 := hlt
      show _ < 65536
      omega
    have hend := (h.bounds hsize).2
    have hlast : 56941 ≤ table[p.toNat + (65535 - p.toNat)].toNat := by
      have : p.toNat + (65535 - p.toNat) = 65535 := by
        have : p.toNat < 65536 := hlt
        omega
      simp only [this]
      exact h.le_last
    have : p.toNat < 65536 := hlt
    omega
  have hsum : p.toNat + (position vc' - p).toNat = (position vc').toNat := by omega
  have hsize : p.toNat + (position vc' - p).toNat < reverseTableSize := by
    show _ < 65536
    omega
  obtain ⟨hrises, hgently⟩ := h.bounds hsize
  refine ⟨_, lookup_eq_some_iff.mpr ⟨by omega, by rwa [← hsum], rfl⟩, ?_⟩
  simp only [← hsum]
  omega

/-- A lower position whose voltage must still lie above the start of the table is in the table. -/
theorem Gentle.lookup_down (h : Gentle table) (hvx : lookup table vc = some vx)
    (hdown : position vc' ≤ position vc)
    (hlimit : 14633 + 3 * (position vc - position vc') < vx.toNat) :
    ∃ vx', lookup table vc' = some vx' ∧ vx'.toNat ≤ vx.toNat ∧
      (vx.toNat : Int) ≤ vx'.toNat + 3 * (position vc - position vc') := by
  obtain ⟨hpos, hlt, rfl⟩ := lookup_eq_some_iff.mp hvx
  generalize position vc = p at *
  have hinside : 0 ≤ position vc' := by
    by_contra hout
    have hsize : 0 + p.toNat < reverseTableSize := by rwa [Nat.zero_add]
    have hstart := (h.bounds hsize).2
    have hfirst := h.first_le
    simp only [Nat.zero_add] at hstart
    have hget : table.get ⟨0, by decide⟩ = table[0] := rfl
    rw [hget] at hfirst
    omega
  have hsum : (position vc').toNat + (p - position vc').toNat = p.toNat := by omega
  have hsize : (position vc').toNat + (p - position vc').toNat < reverseTableSize := by rwa [hsum]
  obtain ⟨hrises, hgently⟩ := h.bounds hsize
  simp only [hsum] at hrises hgently
  exact ⟨_, lookup_eq_some_iff.mpr ⟨hinside, by omega, rfl⟩, hrises, by omega⟩

end

/-! ## One step in whole numbers -/

/-- A current towards a higher voltage moves the position by less than a third of the distance to
the gate. -/
theorem rise_lt {factor drive distance moved : Int} (hfactor : factor ≤ 1784)
    (hdistance : distance ≤ 46340) (hdrive : 32768 ≤ drive) (hsq : drive ≤ distance ^ 2)
    (hpos : 0 ≤ distance) (hmoved : moved * 32768 ≤ factor * (drive / 32768) + 32767) :
    3 * moved < distance := by
  have hfar : 182 ≤ distance := by
    by_contra hnear
    have := Int.mul_le_mul (show distance ≤ 181 by omega) (show distance ≤ 181 by omega) hpos
      (by decide)
    rw [pow_two] at hsq
    omega
  have hlinear : distance ^ 2 ≤ 46340 * distance := by
    rw [pow_two]
    exact Int.mul_le_mul_of_nonneg_right hdistance hpos
  have hscaled : factor * (drive / 32768) ≤ 1784 * (drive / 32768) :=
    Int.mul_le_mul_of_nonneg_right hfactor (by omega)
  omega

/-- A current towards a lower voltage moves the position by at most a third of the distance to the
input, up to two units. -/
theorem fall_le {factor drive distance moved : Int} (hfactor : factor ≤ 1784)
    (hdistance : 0 < distance) (hdrive : drive < 0) (hlinear : -(100000 * distance) ≤ drive)
    (hmoved : moved * 32768 ≤ -(factor * (drive / 32768)) + 32767) :
    3 * moved ≤ distance + 2 := by
  have hscaled : 1784 * (drive / 32768) ≤ factor * (drive / 32768) :=
    Int.mul_le_mul_of_nonpos_right hfactor (by omega)
  omega

section

variable {s : Integrator} {vi : Int32}

/-- The drive is the distance that the current has to cover times a bounded sum. -/
theorem drive_eq_mul (hvi : vi.toInt < s.gate.toNat) :
    s.drive vi.toInt = (vi.toInt - s.vx.toNat) *
      ((s.gate.toNat - s.vx.toNat) + (s.gate.toNat - vi.toInt)) := by
  rw [drive, Int.max_eq_right (by omega)]
  ring

/-- An input that is not below the voltage, even one above the gate, moves the position up by less
than a third of the distance to the gate. -/
theorem position_of_rises (hfactor : s.factor.toNat ≤ 1784) (hvx : s.vx.toNat < s.gate.toNat)
    (hroom : (s.gate.toNat : Int) - s.vx.toNat ≤ 46340) (hrises : (s.vx.toNat : Int) ≤ vi.toInt)
    (hmoved : position (s.vc + s.current vi) =
      (s.vc.toInt + s.factor.toNat * (s.drive vi.toInt / 32768)) / 32768 + 32768) :
    position s.vc ≤ position (s.vc + s.current vi) ∧
      3 * (position (s.vc + s.current vi) - position s.vc) < s.gate.toNat - s.vx.toNat := by
  have hbefore : position s.vc = s.vc.toInt / 32768 + 32768 := rfl
  have hdrain : max 0 ((s.gate.toNat : Int) - vi.toInt) ^ 2 ≤
      ((s.gate.toNat : Int) - s.vx.toNat) ^ 2 :=
    pow_le_pow_left₀ (le_max_left _ _) (by omega) 2
  have hdrain' : 0 ≤ max 0 ((s.gate.toNat : Int) - vi.toInt) ^ 2 := sq_nonneg _
  have hsquare : 0 ≤ s.drive vi.toInt ∧
      s.drive vi.toInt ≤ ((s.gate.toNat : Int) - s.vx.toNat) ^ 2 := by
    rw [drive]
    omega
  have hpushes : 0 ≤ (s.factor.toNat : Int) * (s.drive vi.toInt / 32768) :=
    Int.mul_nonneg (by omega) (by omega)
  refine ⟨by omega, ?_⟩
  rcases Int.lt_or_le (s.drive vi.toInt) 32768 with hsmall | hlarge
  · -- Too small a drive to move the charge at all.
    rw [Int.ediv_eq_zero_of_lt hsquare.1 hsmall, Int.mul_zero, Int.add_zero] at hmoved
    omega
  · exact rise_lt (show (s.factor.toNat : Int) ≤ 1784 by omega) hroom hlarge hsquare.2 (by omega)
      (by omega)

/-- An input below the voltage moves the position down by at most a third of the distance to the
input, up to two units. -/
theorem position_of_falls (hfactor : s.factor.toNat ≤ 1784) (hvx : s.vx.toNat < s.gate.toNat)
    (hroom : ((s.gate.toNat : Int) - s.vx.toNat) + (s.gate.toNat - vi.toInt) ≤ 100000)
    (hfalls : vi.toInt < s.vx.toNat)
    (hmoved : position (s.vc + s.current vi) =
      (s.vc.toInt + s.factor.toNat * (s.drive vi.toInt / 32768)) / 32768 + 32768) :
    position (s.vc + s.current vi) ≤ position s.vc ∧
      3 * (position s.vc - position (s.vc + s.current vi)) ≤ s.vx.toNat - vi.toInt + 2 := by
  have hbefore : position s.vc = s.vc.toInt / 32768 + 32768 := rfl
  have hproduct := drive_eq_mul (show vi.toInt < s.gate.toNat by omega)
  have hneg : s.drive vi.toInt < 0 := by
    rw [hproduct]
    exact Int.mul_neg_of_neg_of_pos (by omega) (by omega)
  have hlinear : -(100000 * (s.vx.toNat - vi.toInt)) ≤ s.drive vi.toInt := by
    have := Int.mul_le_mul_of_nonpos_left (show vi.toInt - s.vx.toNat ≤ 0 by omega) hroom
    rw [← hproduct] at this
    omega
  have hpulls : (s.factor.toNat : Int) * (s.drive vi.toInt / 32768) ≤ 0 :=
    Int.mul_nonpos_of_nonneg_of_nonpos (by omega) (by omega)
  exact ⟨by omega, fall_le (show (s.factor.toNat : Int) ≤ 1784 by omega)
    (show 0 < (s.vx.toNat : Int) - vi.toInt by omega) hneg hlinear (by omega)⟩

/-- The first step after a discharge ends in the middle of the table. -/
theorem lookup_of_discharged (htable : Gentle s.table) (hfactor : s.factor.toNat ≤ 1784)
    (hvc : s.vc = 0) :
    ∃ vx, lookup s.table (s.vc + s.current vi) = some vx ∧
      14640 ≤ vx.toNat ∧ vx.toNat ≤ 31931 := by
  obtain ⟨hlo, hhi⟩ := current_bounds hfactor vi
  have hposition : 29200 ≤ position (s.vc + s.current vi) ∧
      position (s.vc + s.current vi) ≤ 36336 := by
    rw [hvc, Int32.zero_add, position]
    omega
  have hsize : (position (s.vc + s.current vi)).toNat < reverseTableSize := by
    show _ < 65536
    omega
  exact ⟨_, lookup_eq_some_iff.mpr ⟨by omega, hsize, rfl⟩,
    htable.middle _ hsize (by omega) (by omega)⟩

end

/-- A state in which the voltage belongs to the charge and lies between the quiet level and the
gate. -/
structure Settled (s : Integrator) : Prop where
  gentle : Gentle s.table
  factor_le : s.factor.toNat ≤ 1784
  gate_le : s.gate.toNat ≤ 56941
  lookup_eq : lookup s.table s.vc = some s.vx
  le_vx : 14638 ≤ s.vx.toNat
  vx_lt : s.vx.toNat < s.gate.toNat

section

variable {s : Integrator} {vi : Int32}

/-- The difference of squares does not wrap. -/
theorem Settled.drive_fits (h : Settled s) (hvi : 14640 ≤ vi.toInt)
    (hvi' : vi.toInt < s.gate.toNat) :
    -2147483648 ≤ s.drive vi.toInt ∧ s.drive vi.toInt < 2147483648 := by
  obtain ⟨-, -, hgate, -, hlo, hhi⟩ := h
  have hdrive : s.drive vi.toInt =
      ((s.gate.toNat : Int) - s.vx.toNat) ^ 2 - ((s.gate.toNat : Int) - vi.toInt) ^ 2 := by
    rw [drive, Int.max_eq_right (by omega)]
  have hsource : ((s.gate.toNat : Int) - s.vx.toNat) ^ 2 ≤ 42303 ^ 2 :=
    pow_le_pow_left₀ (by omega) (by omega) 2
  have hdrain : ((s.gate.toNat : Int) - vi.toInt) ^ 2 ≤ 42301 ^ 2 :=
    pow_le_pow_left₀ (by omega) (by omega) 2
  have hsource_pos : 0 < ((s.gate.toNat : Int) - s.vx.toNat) ^ 2 := pow_pos (by omega) 2
  have hdrain_pos : 0 < ((s.gate.toNat : Int) - vi.toInt) ^ 2 := pow_pos (by omega) 2
  omega

/-- Neither the difference of squares nor the charge wraps. -/
theorem Settled.position_step (h : Settled s) (hvi : 14640 ≤ vi.toInt)
    (hvi' : vi.toInt < s.gate.toNat) :
    position (s.vc + s.current vi) =
      (s.vc.toInt + s.factor.toNat * (s.drive vi.toInt / 32768)) / 32768 + 32768 := by
  obtain ⟨hfits, hfits'⟩ := h.drive_fits hvi hvi'
  exact position_add_current h.factor_le h.lookup_eq hfits hfits'

/-- An input below the voltage brings it down by at most the distance and two units. -/
theorem Settled.lookup_of_falls (h : Settled s) (hvi : 14640 ≤ vi.toInt)
    (hvi' : vi.toInt < s.gate.toNat) (hfalls : vi.toInt < s.vx.toNat) :
    ∃ vx, lookup s.table (s.vc + s.current vi) = some vx ∧
      14638 ≤ vx.toNat ∧ vx.toNat < s.gate.toNat := by
  have hmoved := h.position_step hvi hvi'
  obtain ⟨htable, hfactor, hgate, hlookup, hlo, hhi⟩ := h
  obtain ⟨hdown, hclose⟩ := position_of_falls hfactor hhi (by omega) hfalls hmoved
  obtain ⟨vx, hlookup', hle, hge⟩ := htable.lookup_down hlookup hdown (by omega)
  exact ⟨vx, hlookup', by omega, by omega⟩

/-- An input that is not below the voltage does not bring it up to the gate. -/
theorem Settled.lookup_of_rises (h : Settled s) (hvi : 14640 ≤ vi.toInt)
    (hvi' : vi.toInt < s.gate.toNat) (hrises : (s.vx.toNat : Int) ≤ vi.toInt) :
    ∃ vx, lookup s.table (s.vc + s.current vi) = some vx ∧
      14638 ≤ vx.toNat ∧ vx.toNat < s.gate.toNat := by
  have hmoved := h.position_step hvi hvi'
  obtain ⟨htable, hfactor, hgate, hlookup, hlo, hhi⟩ := h
  obtain ⟨hup, hclose⟩ := position_of_rises hfactor hhi (by omega) hrises hmoved
  obtain ⟨vx, hlookup', hge, hle⟩ := htable.lookup_up hlookup hup (by omega)
  exact ⟨vx, hlookup', by omega, by omega⟩

/-- A step from inside the envelope ends inside it. -/
theorem Settled.lookup_step (h : Settled s) (hvi : 14640 ≤ vi.toInt)
    (hvi' : vi.toInt < s.gate.toNat) :
    ∃ vx, lookup s.table (s.vc + s.current vi) = some vx ∧
      14638 ≤ vx.toNat ∧ vx.toNat < s.gate.toNat := by
  rcases Int.lt_or_le vi.toInt s.vx.toNat with hfalls | hrises
  · exact h.lookup_of_falls hvi hvi' hfalls
  · exact h.lookup_of_rises hvi hvi' hrises

end

/-! ## Whole runs -/

/-- An operation that keeps an integrator with the settings of `s` inside the envelope: an input
between the quiet level and the gate, a width of the cutoff transistor that the cutoff converter can
give, or a discharge. -/
def Permitted (s : Integrator) : Operation → Prop
  | .step vi => 14640 ≤ vi.toInt ∧ vi.toInt < s.gate.toNat
  | .setWidth width => ∃ s', s.setWidth width = .ok s' ∧ s'.factor.toNat ≤ 1784
  | .setGate _ => False
  | .reset => True

/-- The states inside the envelope that has the settings of `s₀`. -/
structure Within (s₀ s : Integrator) : Prop where
  table_eq : s.table = s₀.table
  circuit_eq : s.circuit = s₀.circuit
  gate_eq : s.gate = s₀.gate
  factor_le : s.factor.toNat ≤ 1784
  /-- The integrator is discharged, or its voltage belongs to its charge and is in range. -/
  level : s.vx = 0 ∧ s.vc = 0 ∨
    lookup s.table s.vc = some s.vx ∧ 14638 ≤ s.vx.toNat ∧ s.vx.toNat < s.gate.toNat

section

variable {s₀ s : Integrator}

/-- A permitted input is answered, and its voltage is in range. -/
theorem Within.step (h : Within s₀ s) (htable : Gentle s₀.table) (hgate : 31932 ≤ s₀.gate.toNat)
    (hgate' : s₀.gate.toNat ≤ 56941) {vi : Int32} (hvi : 14640 ≤ vi.toInt)
    (hvi' : vi.toInt < s₀.gate.toNat) :
    ∃ s', s.perform (.step vi) = .ok s' ∧ Within s₀ s' ∧
      14638 ≤ s'.vx.toNat ∧ s'.vx.toNat < s₀.gate.toNat := by
  obtain ⟨htable_eq, hcircuit, hgate_eq, hfactor, hlevel⟩ := h
  rw [← htable_eq] at htable
  rw [← hgate_eq] at hgate hgate' hvi' ⊢
  have hnext : s.vx.toNat < s.gate.toNat ∧ ∃ vx, lookup s.table (s.vc + s.current vi) = some vx ∧
      14638 ≤ vx.toNat ∧ vx.toNat < s.gate.toNat := by
    rcases hlevel with ⟨hvx, hvc⟩ | ⟨hlookup, hlo, hhi⟩
    · obtain ⟨vx, hlookup, hlo, hhi⟩ : ∃ vx, lookup s.table (s.vc + s.current vi) = some vx ∧
          14640 ≤ vx.toNat ∧ vx.toNat ≤ 31931 := lookup_of_discharged htable hfactor hvc
      refine ⟨?_, vx, hlookup, by omega, by omega⟩
      rw [hvx]
      exact Nat.lt_of_lt_of_le (by decide) hgate
    · have hsettled : Settled s := ⟨htable, hfactor, hgate', hlookup, hlo, hhi⟩
      exact ⟨hhi, hsettled.lookup_step hvi hvi'⟩
  obtain ⟨hhi, vx, hlookup, hvx, hvx'⟩ := hnext
  have hstep := step_of_lookup (UInt16.lt_iff_toNat_lt.mpr hhi) hlookup
  refine ⟨{ s with vx, vc := s.vc + s.current vi }, perform_of_step_ok hstep, ?_, hvx, hvx'⟩
  exact ⟨htable_eq, hcircuit, hgate_eq, hfactor, Or.inr ⟨hlookup, hvx, hvx'⟩⟩

/-- Every permitted operation succeeds and stays inside the envelope. -/
theorem Within.perform (h : Within s₀ s) (htable : Gentle s₀.table) (hgate : 31932 ≤ s₀.gate.toNat)
    (hgate' : s₀.gate.toNat ≤ 56941) {op : Operation} (hop : s₀.Permitted op) :
    ∃ s', s.perform op = .ok s' ∧ Within s₀ s' := by
  cases op with
  | step vi =>
    obtain ⟨s', hperform, hwithin, -⟩ := h.step htable hgate hgate' hop.1 hop.2
    exact ⟨s', hperform, hwithin⟩
  | setWidth width =>
    obtain ⟨t, hset, hfactor⟩ := hop
    refine ⟨{ s with factor := t.factor }, ?_, h.table_eq, h.circuit_eq, h.gate_eq, hfactor,
      h.level⟩
    obtain ⟨hfits, rfl⟩ := setWidth_ok_iff.mp hset
    rw [← h.circuit_eq] at hfits ⊢
    exact setWidth_ok_iff.mpr ⟨hfits, rfl⟩
  | setGate multiplier => exact absurd hop id
  | reset => exact ⟨s.reset, rfl, h.table_eq, h.circuit_eq, h.gate_eq, h.factor_le,
      Or.inl ⟨rfl, rfl⟩⟩

end

/-- A new integrator with any gate setting is inside the envelope of that setting. -/
theorem within_of_new {table : ReverseTable} {circuit : Circuit} {new s : Integrator}
    {multiplier : Float} (hnew : start table circuit = .ok new)
    (hset : new.setGate multiplier = .ok s) : s.table = table ∧ Within s s := by
  obtain ⟨-, -, rfl⟩ := setGate_ok_iff.mp hnew
  obtain ⟨-, -, rfl⟩ := setGate_ok_iff.mp hset
  exact ⟨rfl, rfl, rfl, rfl, Nat.zero_le _, Or.inl ⟨rfl, rfl⟩⟩

/-- On a gently rising table, a run of permitted operations of a new integrator never fails, and
every step of it ends between the quiet level and the gate. -/
theorem run_within_envelope {table : ReverseTable} (htable : Gentle table) {circuit : Circuit}
    {new s : Integrator} {multiplier : Float} (hnew : start table circuit = .ok new)
    (hset : new.setGate multiplier = .ok s) (hgate : 31932 ≤ s.gate.toNat)
    (hgate' : s.gate.toNat ≤ 56941) (ops : List Operation) (hops : ∀ op ∈ ops, s.Permitted op) :
    (∃ s', run s ops = .ok s') ∧
    ∀ before vi after, ops = before ++ .step vi :: after →
      ∃ s', run s (before ++ [.step vi]) = .ok s' ∧
        14638 ≤ s'.vx.toNat ∧ s'.vx.toNat < s.gate.toNat := by
  obtain ⟨rfl, hwithin⟩ := within_of_new hnew hset
  have hperform : ∀ t op, Within s t → s.Permitted op → ∃ t', t.perform op = .ok t' ∧ Within s t' :=
    fun t op ht hop => ht.perform htable hgate hgate' hop
  constructor
  · obtain ⟨s', hrun, -⟩ := run_ok hperform hwithin hops
    exact ⟨s', hrun⟩
  · rintro before vi after rfl
    obtain ⟨t, hrun, ht⟩ := run_ok hperform hwithin fun op hop =>
      hops op (List.mem_append_left _ hop)
    obtain ⟨hvi, hvi'⟩ := hops (.step vi) (List.mem_append_right _ List.mem_cons_self)
    obtain ⟨s', hstep, -, hlo, hhi⟩ := ht.step htable hgate hgate' hvi hvi'
    refine ⟨s', ?_, hlo, hhi⟩
    rw [run_append hrun, run_cons_ok hstep, run]

/-- A straight reverse table that keeps to the bounds. -/
def straightTable : ReverseTable := Vector.ofFn fun charge => UInt16.ofNat (charge.val - 5000)

theorem straightTable_toNat (i : Nat) (hi : i < reverseTableSize) :
    straightTable[i].toNat = i - 5000 := by
  have hi' : i < 65536 := hi
  simp only [straightTable, Vector.getElem_ofFn, UInt16.toNat_ofNat']
  omega

theorem gentle_straightTable : Gentle straightTable where
  le_succ i hi := by
    rw [UInt16.le_iff_toNat_le, straightTable_toNat, straightTable_toNat]
    omega
  succ_le i hi := by
    rw [straightTable_toNat, straightTable_toNat]
    omega
  first_le := by
    show straightTable[0].toNat ≤ 14636
    rw [straightTable_toNat]
    omega
  le_last := by
    show 56941 ≤ straightTable[65535].toNat
    rw [straightTable_toNat]
    omega
  middle i hi hlo hhi := by
    rw [straightTable_toNat]
    omega

/-- The envelope of an integrator in the circuit of the 8580, at the darkest curve. -/
theorem run_within_envelope_darkest :
    ∃ new s, start straightTable FilterModel.mos8580.circuit = .ok new ∧
      new.setGate 1.8 = .ok s ∧ s.gate.toNat = 56941 ∧
      ∃ s', run s ([.setWidth 12.5, .step 14640, .step 44000, .reset] ++ [.step 20000]) = .ok s' ∧
        14638 ≤ s'.vx.toNat ∧ s'.vx.toNat < s.gate.toNat := by
  let circuit := FilterModel.mos8580.circuit
  have hnew : start straightTable circuit = .ok ⟨straightTable, circuit, 0, 0, 44436, 0⟩ :=
    setGate_ok_iff.mpr ⟨by decide, by decide, by
      congr 1
      decide⟩
  have hset : setGate ⟨straightTable, circuit, 0, 0, 44436, 0⟩ 1.8 =
      .ok ⟨straightTable, circuit, 0, 0, 56941, 0⟩ :=
    setGate_ok_iff.mpr ⟨by decide, by decide, by
      congr 1
      decide⟩
  have hwidth : setWidth ⟨straightTable, circuit, 0, 0, 56941, 0⟩ 12.5 =
      .ok ⟨straightTable, circuit, 0, 0, 56941, 1771⟩ :=
    setWidth_ok_iff.mpr ⟨by decide +kernel, by
      congr 1
      decide +kernel⟩
  refine ⟨_, _, hnew, hset, rfl, ?_⟩
  refine (run_within_envelope gentle_straightTable hnew hset (by decide) (by decide)
    ([.setWidth 12.5, .step 14640, .step 44000, .reset] ++ [.step 20000]) ?_).2 _ _ [] rfl
  intro op hop
  simp only [List.cons_append, List.nil_append, List.mem_cons, List.not_mem_nil, or_false] at hop
  rcases hop with rfl | rfl | rfl | rfl | rfl
  · exact ⟨_, hwidth, by decide⟩
  · exact ⟨by decide, by decide⟩
  · exact ⟨by decide, by decide⟩
  · trivial
  · exact ⟨by decide, by decide⟩

end SignalPath.Integrator
