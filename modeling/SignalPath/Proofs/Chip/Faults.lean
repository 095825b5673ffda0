import SignalPath.Proofs.Chip.Current
import SignalPath.Proofs.Chip.Run

/-!
# Integrators after a fault

A caller may go on after an operation has failed. A failed setting and a step below the threshold
leave the integrator as it was, but a step that leaves the table has stored the charge, and later
steps add to it whatever it is. None of this gets an integrator into trouble: run on words with a
sign, with a trap for every subtraction, addition and access that the program does not let wrap, it
never traps, in whatever state it was left.
-/

namespace SignalPath

namespace Integrator

/-- An operation with its answer. The integrator that is left behind is there after a fault too. -/
def call (s : Integrator) : Operation → Integrator × Except IntegratorFault (Option Int32)
  | .step vi => ((s.step vi).1, (s.step vi).2.map some)
  | .setWidth width => match s.setWidth width with
    | .ok s' => (s', .ok none)
    | .error e => (s, .error e)
  | .setGate multiplier => match s.setGate multiplier with
    | .ok s' => (s', .ok none)
    | .error e => (s, .error e)
  | .reset => (s.reset, .ok none)

/-- The integrator after operations in order, whether or not they fail. -/
def after (s : Integrator) (ops : List Operation) : Integrator :=
  ops.foldl (fun s op => (s.call op).1) s

/-- The documented faults, when they arise, and what they leave behind. -/
inductive Refusal (s : Integrator) : Operation → IntegratorFault → Integrator → Prop where
  | width {width : Float}
      (h : ¬ (-0.5 < factorOf s.circuit width ∧ factorOf s.circuit width < 65535.5)) :
      Refusal s (.setWidth width) (.currentFactor (factorOf s.circuit width) width) s
  | multiplier {multiplier : Float} (h : ¬ (1.0 < multiplier ∧ multiplier < 2.0)) :
      Refusal s (.setGate multiplier) (.gateMultiplier multiplier) s
  | gate {multiplier : Float} (h : 1.0 < multiplier ∧ multiplier < 2.0)
      (h' : ¬ (-0.5 < gateOf s.circuit multiplier ∧ gateOf s.circuit multiplier < 65535.5)) :
      Refusal s (.setGate multiplier) (.gateVoltage (gateOf s.circuit multiplier) multiplier) s
  | subthreshold {vi : Int32} (h : s.gate ≤ s.vx) :
      Refusal s (.step vi) (.subthreshold s.vx s.gate) s
  | outsideTable {vi : Int32} (h : s.vx < s.gate)
      (h' : ¬ (-1073741824 ≤ (s.vc + s.current vi).toInt ∧
        (s.vc + s.current vi).toInt < 1073741824)) :
      Refusal s (.step vi) (.chargeOutsideTable (s.vc + s.current vi))
        { s with vc := s.vc + s.current vi }

/-- The answer of the last step that succeeded, if no other operation has changed the voltage or the
charge since then; `last` is the answer before the operations. -/
def lastAnswer (last : Option Int32) (s : Integrator) : List Operation → Option Int32
  | [] => last
  | op :: ops => match s.call op with
    | (s', .ok (some y)) => lastAnswer (some y) s' ops
    | (s', _) => lastAnswer (if s'.vx = s.vx ∧ s'.vc = s.vc then last else none) s' ops

/-- The answer that belongs to a charge. -/
def answerAt (table : ReverseTable) (vc : Int32) : Option Int32 :=
  (lookup table vc).map fun vx => outputOf vx vc

end Integrator

/-! ## Words with traps -/

/-- What ends a call: a documented fault, arithmetic that leaves its word, or an access beyond the
end of the table. -/
inductive Trap where
  | refused (e : IntegratorFault)
  | overflow
  | outOfBounds

/-- The words of an integrator. The voltage has a sign, and nothing is known about the size of the
table. -/
structure Registers where
  table : Array UInt16
  circuit : Circuit
  vx : Int32
  vc : Int32
  gate : UInt16
  factor : UInt16

namespace Registers

def checkedAdd (a b : Int32) : Except Trap Int32 :=
  if (a + b).toInt = a.toInt + b.toInt then .ok (a + b) else .error .overflow

def checkedSub (a b : Int32) : Except Trap Int32 :=
  if (a - b).toInt = a.toInt - b.toInt then .ok (a - b) else .error .overflow

/-- The charge that flows in one step, for the distance of the voltage to the gate. -/
def current (s : Registers) (overdrive vi : Int32) : Int32 :=
  let gate := s.gate.toUInt32.toInt32
  let source := overdrive.toUInt32
  let drain := if vi < gate then (gate - vi).toUInt32 else 0
  s.factor.toUInt32.toInt32 * ((source * source - drain * drain).toInt32 >>> 15)

/-- Where a charge is found in the table. -/
def indexOf (vc : Int32) : Except Trap Int32 := checkedAdd (vc >>> 15) 32768

/-- Goes on with what has been computed, or stops where it traps. -/
def andThen {α β : Type} (s : Registers) (r : Except Trap α)
    (next : α → Registers × Except Trap β) : Registers × Except Trap β :=
  match r with
  | .ok x => next x
  | .error e => (s, .error e)

/-- The part of a step that follows once the new charge is stored. -/
def settle (s : Registers) : Registers × Except Trap Int32 :=
  s.andThen (indexOf s.vc) fun index =>
    if 0 ≤ index ∧ index < 65536 then
      match s.table[index.toInt.toNat]? with
      | none => (s, .error .outOfBounds)
      | some vx =>
        let s := { s with vx := vx.toUInt32.toInt32 }
        (s, checkedSub s.vx (s.vc >>> 14))
    else (s, .error (.refused (.chargeOutsideTable s.vc)))

/-- Takes one input voltage and gives the output voltage. The squares, the current and the charge
wrap, and everything else is checked. -/
def step (s : Registers) (vi : Int32) : Registers × Except Trap Int32 :=
  let gate := s.gate.toUInt32.toInt32
  if s.vx < gate then
    s.andThen (checkedSub gate s.vx) fun overdrive =>
      { s with vc := s.vc + s.current overdrive vi }.settle
  else (s, .error (.refused (.subthreshold s.vx.toUInt32.toUInt16 s.gate)))

/-- An operation with its answer, and what it leaves behind. -/
def call (s : Registers) : Integrator.Operation → Registers × Except Trap (Option Int32)
  | .step vi => ((s.step vi).1, (s.step vi).2.map some)
  | .setWidth width =>
    let factor := 8192.0 * s.circuit.gain * width
    if -0.5 < factor ∧ factor < 65535.5 then
      ({ s with factor := (factor + 0.5).toUInt16 }, .ok none)
    else (s, .error (.refused (.currentFactor factor width)))
  | .setGate multiplier =>
    if 1.0 < multiplier ∧ multiplier < 2.0 then
      let overdrive := s.circuit.voiceDc * multiplier - s.circuit.threshold
      let voltage := s.circuit.unitsPerVolt * (overdrive - s.circuit.lowest)
      if -0.5 < voltage ∧ voltage < 65535.5 then
        ({ s with gate := (voltage + 0.5).toUInt16 }, .ok none)
      else (s, .error (.refused (.gateVoltage voltage multiplier)))
    else (s, .error (.refused (.gateMultiplier multiplier)))
  | .reset => ({ s with vx := 0, vc := 0 }, .ok none)

/-- The words after operations in order, whether or not they fail. -/
def after (s : Registers) (ops : List Integrator.Operation) : Registers :=
  ops.foldl (fun s op => (s.call op).1) s

theorem checkedAdd_ok {a b : Int32} (hlo : -2147483648 ≤ a.toInt + b.toInt)
    (hhi : a.toInt + b.toInt < 2147483648) : checkedAdd a b = .ok (a + b) := by
  have hadd : (a + b).toInt = a.toInt + b.toInt := by
    rw [Int32.toInt_add, Int.bmod_eq_of_le] <;> omega
  exact if_pos hadd

theorem checkedSub_ok {a b : Int32} (hlo : -2147483648 ≤ a.toInt - b.toInt)
    (hhi : a.toInt - b.toInt < 2147483648) : checkedSub a b = .ok (a - b) := by
  have hsub : (a - b).toInt = a.toInt - b.toInt := by
    rw [Int32.toInt_sub, Int.bmod_eq_of_le] <;> omega
  exact if_pos hsub

end Registers

namespace Integrator

/-- An integrator as its words. -/
def registers (s : Integrator) : Registers :=
  ⟨s.table.toArray, s.circuit, s.vx.toUInt32.toInt32, s.vc, s.gate, s.factor⟩

theorem registers_vx_bounds (s : Integrator) :
    0 ≤ s.registers.vx.toInt ∧ s.registers.vx.toInt ≤ 65535 := by
  have hvx := s.vx.toNat_lt
  rw [show s.registers.vx.toInt = s.vx.toNat from toInt_word s.vx]
  omega

/-- Whatever the charge is, its index fits the word. -/
theorem exists_indexOf (vc : Int32) :
    ∃ i, Registers.indexOf vc = .ok i ∧ i.toInt = position vc := by
  have hvc := vc.le_toInt
  have hvc' := vc.toInt_lt
  have hshift := toInt_shiftRight vc
  have hoffset : (32768 : Int32).toInt = 32768 := rfl
  rw [Registers.indexOf]
  refine ⟨vc >>> 15 + 32768, Registers.checkedAdd_ok (by omega) (by omega), ?_⟩
  rw [Int32.toInt_add, hshift, hoffset, position, Int.bmod_eq_of_le] <;> omega

/-- The index is checked before the table is read, and the answer fits the word. -/
theorem settle_registers (s : Integrator) :
    s.registers.settle = match lookup s.table s.vc with
      | some vx => ({ s with vx }.registers, .ok (outputOf vx s.vc))
      | none => (s.registers, .error (.refused (.chargeOutsideTable s.vc))) := by
  obtain ⟨table, circuit, vx, vc, gate, factor⟩ := s
  obtain ⟨i, hindex, hi⟩ := exists_indexOf vc
  have hinside : (0 ≤ i ∧ i < 65536) ↔ (0 ≤ position vc ∧ position vc < 65536) := by
    rw [Int32.le_iff_toInt_le, Int32.lt_iff_toInt_lt, hi]
    rfl
  unfold Registers.settle registers
  dsimp only
  rw [hindex, Registers.andThen]
  by_cases hpos : 0 ≤ position vc ∧ position vc < 65536
  · have hlt : (position vc).toNat < reverseTableSize := by
      rw [reverseTableSize]
      omega
    have hlookup : lookup table vc = some table[(position vc).toNat] :=
      lookup_eq_some_iff.mpr ⟨hpos.1, hlt, rfl⟩
    have hsub : Registers.checkedSub (table[(position vc).toNat]).toUInt32.toInt32 (vc >>> 14) =
        .ok (outputOf table[(position vc).toNat] vc) := by
      have hvc := vc.le_toInt
      have hvc' := vc.toInt_lt
      have hvx := (table[(position vc).toNat]).toNat_lt
      have hshift := toInt_shiftRight_14 vc
      have hword := toInt_word table[(position vc).toNat]
      exact Registers.checkedSub_ok (by omega) (by omega)
    rw [if_pos (hinside.mpr hpos), hi, Vector.getElem?_toArray, Vector.getElem?_eq_getElem hlt,
      hlookup]
    dsimp only
    rw [hsub]
  · rw [if_neg fun h => hpos (hinside.mp h), lookup_eq_none_iff.mpr hpos]

theorem current_registers (s : Integrator) (vi : Int32) :
    s.registers.current (s.gate.toUInt32.toInt32 - s.registers.vx) vi = s.current vi := rfl

/-- The words follow the integrator in every step. -/
theorem step_registers (s : Integrator) (vi : Int32) :
    s.registers.step vi = ((s.step vi).1.registers, (s.step vi).2.mapError .refused) := by
  have hvx := s.vx.toNat_lt
  have hgate := s.gate.toNat_lt
  have hword : s.registers.vx.toInt = s.vx.toNat := toInt_word s.vx
  have hword' := toInt_word s.gate
  have hopen : s.registers.vx < s.gate.toUInt32.toInt32 ↔ s.vx < s.gate := by
    rw [Int32.lt_iff_toInt_lt, UInt16.lt_iff_toNat_lt, hword, hword']
    omega
  unfold Registers.step
  rw [show s.registers.gate = s.gate from rfl]
  dsimp only
  by_cases h : s.vx < s.gate
  · rw [if_pos (hopen.mpr h), Registers.checkedSub_ok (by omega) (by omega)]
    rw [Registers.andThen, current_registers]
    refine (settle_registers { s with vc := s.vc + s.current vi }).trans ?_
    rcases hlookup : lookup s.table (s.vc + s.current vi) with ⟨⟩ | vx
    · rw [step_of_no_lookup h hlookup]
      rfl
    · rw [step_of_lookup h hlookup]
      rfl
  · have hnarrow : s.registers.vx.toUInt32.toUInt16 = s.vx := by simp [registers]
    rw [if_neg fun h' => h (hopen.mp h'), step, if_neg h, hnarrow]
    rfl

theorem call_registers (s : Integrator) (op : Operation) :
    s.registers.call op = ((s.call op).1.registers, (s.call op).2.mapError .refused) := by
  cases op with
  | step vi =>
    rw [Registers.call, call, step_registers]
    rcases (s.step vi).2 with e | y <;> rfl
  | setWidth width =>
    unfold Registers.call call setWidth
    dsimp only
    rw [show s.registers.circuit = s.circuit from rfl]
    split <;> rfl
  | setGate multiplier =>
    unfold Registers.call call setGate
    dsimp only
    rw [show s.registers.circuit = s.circuit from rfl]
    split
    · split <;> rfl
    · rfl
  | reset => rfl

/-- Whatever operations are carried out, and whether or not they fail, the words follow. -/
theorem after_registers (ops : List Operation) :
    ∀ s : Integrator, s.registers.after ops = (s.after ops).registers := by
  induction ops with
  | nil => intro s; rfl
  | cons op ops ih =>
    intro s
    show (s.registers.call op).1.after ops = ((s.call op).1.after ops).registers
    rw [call_registers, ih]

/-! ## Faults -/

section

variable {s : Integrator} {op : Operation}

theorem error_of_refusal {e : IntegratorFault} {s' : Integrator} (h : Refusal s op e s') :
    s.call op = (s', .error e) := by
  cases h with
  | width h => rw [call, setWidth_of_not_fits h]
  | multiplier h => rw [call, setGate_of_not_inside h]
  | gate h h' => rw [call, setGate_of_not_fits h h']
  | subthreshold h =>
    rw [call, step, if_neg (UInt16.not_lt.mpr h)]
    rfl
  | @outsideTable vi h h' =>
    have hlookup : lookup s.table (s.vc + s.current vi) = none :=
      lookup_eq_none_iff.mpr fun hpos => h' (position_mem_iff.mp hpos)
    rw [call, step_of_no_lookup h hlookup]
    rfl

theorem refusal_of_error {e : IntegratorFault} (h : (s.call op).2 = .error e) :
    Refusal s op e (s.call op).1 := by
  cases op with
  | step vi =>
    by_cases hgate : s.vx < s.gate
    · cases hlookup : lookup s.table (s.vc + s.current vi) with
      | some vx =>
        rw [call, step_of_lookup hgate hlookup] at h
        cases h
      | none =>
        rw [call, step_of_no_lookup hgate hlookup] at h ⊢
        cases h
        exact .outsideTable hgate fun hinside =>
          lookup_eq_none_iff.mp hlookup (position_mem_iff.mpr hinside)
    · rw [call, step, if_neg hgate] at h ⊢
      cases h
      exact .subthreshold (UInt16.not_lt.mp hgate)
  | setWidth width =>
    by_cases hfits : -0.5 < factorOf s.circuit width ∧ factorOf s.circuit width < 65535.5
    · rw [call, setWidth_of_fits hfits] at h
      cases h
    · rw [call, setWidth_of_not_fits hfits] at h ⊢
      cases h
      exact .width hfits
  | setGate multiplier =>
    by_cases hinside : 1.0 < multiplier ∧ multiplier < 2.0
    · by_cases hfits : -0.5 < gateOf s.circuit multiplier ∧ gateOf s.circuit multiplier < 65535.5
      · rw [call, setGate_of_fits hinside hfits] at h
        cases h
      · rw [call, setGate_of_not_fits hinside hfits] at h ⊢
        cases h
        exact .gate hinside hfits
    · rw [call, setGate_of_not_inside hinside] at h ⊢
      cases h
      exact .multiplier hinside
  | reset => cases h

/-! ## Answers -/

/-- No operation touches the table. -/
theorem call_table (s : Integrator) (op : Operation) : (s.call op).1.table = s.table := by
  cases op with
  | step vi => exact s.step_table vi
  | setWidth width =>
    cases hset : s.setWidth width with
    | error e => rw [call, hset]
    | ok s' =>
      rw [call, hset]
      obtain ⟨-, rfl⟩ := setWidth_ok_iff.mp hset
      rfl
  | setGate multiplier =>
    cases hset : s.setGate multiplier with
    | error e => rw [call, hset]
    | ok s' =>
      rw [call, hset]
      obtain ⟨-, -, rfl⟩ := setGate_ok_iff.mp hset
      rfl
  | reset => rfl

/-- Only a step has an answer, and it leaves the voltage that belongs to its charge. -/
theorem lookup_of_answer {s' : Integrator} {y : Int32} (h : s.call op = (s', .ok (some y))) :
    lookup s'.table s'.vc = some s'.vx ∧ y = outputOf s'.vx s'.vc := by
  cases op with
  | step vi =>
    rcases hstep : s.step vi with ⟨t, e | z⟩
    · rw [call, hstep] at h
      cases h
    · rw [call, hstep] at h
      cases h
      have htable := s.step_table vi
      rw [hstep] at htable
      obtain ⟨-, hlookup, -, hanswer⟩ := step_ok hstep
      exact ⟨htable ▸ hlookup, hanswer⟩
  | setWidth width => cases hset : s.setWidth width <;> rw [call, hset] at h <;> cases h
  | setGate multiplier => cases hset : s.setGate multiplier <;> rw [call, hset] at h <;> cases h
  | reset => cases h

/-- An answer belongs to the charge until another operation changes the voltage or the charge. -/
theorem answerAt_of_lastAnswer (ops : List Operation) : ∀ (s : Integrator) (last : Option Int32),
    (∀ y, last = some y → lookup s.table s.vc = some s.vx ∧ y = outputOf s.vx s.vc) →
    ∀ y, lastAnswer last s ops = some y →
      lookup s.table (s.after ops).vc = some (s.after ops).vx ∧
        y = outputOf (s.after ops).vx (s.after ops).vc := by
  induction ops with
  | nil => intro s last hlast y hy; exact hlast y hy
  | cons op ops ih =>
    intro s last hlast y hy
    have htable := call_table s op
    rcases hcall : s.call op with ⟨s', answer⟩
    have hafter : s.after (op :: ops) = s'.after ops := by
      show (s.call op).1.after ops = _
      rw [hcall]
    rw [hcall] at htable
    rw [hafter, ← htable]
    -- Without an answer, what was known before lives on only where nothing has changed.
    have hkept : ∀ z, (if s'.vx = s.vx ∧ s'.vc = s.vc then last else none) = some z →
        lookup s'.table s'.vc = some s'.vx ∧ z = outputOf s'.vx s'.vc := by
      intro z hz
      by_cases hsame : s'.vx = s.vx ∧ s'.vc = s.vc
      · rw [if_pos hsame] at hz
        rw [htable, hsame.1, hsame.2]
        exact hlast z hz
      · rw [if_neg hsame] at hz
        cases hz
    rcases answer with e | ⟨⟩ | z
    · rw [lastAnswer, hcall] at hy
      exact ih s' _ hkept y hy
    · rw [lastAnswer, hcall] at hy
      exact ih s' _ hkept y hy
    · rw [lastAnswer, hcall] at hy
      refine ih s' (some z) ?_ y hy
      rintro _ ⟨⟩
      exact lookup_of_answer hcall

/-- Whatever operations an integrator has been through, and however many of them failed: its words
never trap, so that the only faults are the documented ones, which leave behind what they say they
do; the voltage stays within 16 bits; and as long as the last operation that answered or changed the
voltage or the charge is a step that succeeded, the charge lies inside the table, the voltage is the
entry for it, and the answer depends on the charge alone. -/
theorem faults_documented (new : Integrator) (ops : List Operation) :
    let s := new.after ops
    ((∀ op, (new.registers.after ops).call op =
        ((s.call op).1.registers, (s.call op).2.mapError .refused)) ∧
      0 ≤ (new.registers.after ops).vx.toInt ∧ (new.registers.after ops).vx.toInt ≤ 65535) ∧
    (∀ op e, (s.call op).2 = .error e ↔ Refusal s op e (s.call op).1) ∧
    ∀ y, lastAnswer none new ops = some y →
      (lookup new.table s.vc = some s.vx ∧
        -1073741824 ≤ s.vc.toInt ∧ s.vc.toInt < 1073741824) ∧
      answerAt new.table s.vc = some y ∧ -65535 ≤ y.toInt ∧ y.toInt ≤ 131071 := by
  intro s
  have hwords : new.registers.after ops = s.registers := after_registers ops new
  rw [hwords]
  refine ⟨⟨call_registers s, registers_vx_bounds s⟩, ?_, ?_⟩
  · intro op e
    constructor
    · exact refusal_of_error
    · intro h
      rw [error_of_refusal h]
  · intro y hy
    obtain ⟨hlookup, rfl⟩ : lookup new.table s.vc = some s.vx ∧ y = outputOf s.vx s.vc :=
      answerAt_of_lastAnswer ops new none (fun _ h => nomatch h) y hy
    have hinside : 0 ≤ position s.vc ∧ position s.vc < 65536 := by
      by_contra h
      rw [lookup_eq_none_iff.mpr h] at hlookup
      cases hlookup
    have hcharge := position_mem_iff.mp hinside
    have hvx := s.vx.toNat_lt
    refine ⟨⟨hlookup, hcharge⟩, ?_, ?_⟩
    · rw [answerAt, hlookup]
      rfl
    · rw [toInt_outputOf]
      omega

end

/-- On a table of zeros, a step that succeeds and a gate that is refused. -/
theorem faults_documented_grounded :
    ∃ new : Integrator, lastAnswer none new [.step 20000, .setGate 3.0] = some (-4577) ∧
      answerAt new.table (new.after [.step 20000, .setGate 3.0]).vc = some (-4577) := by
  let new : Integrator :=
    ⟨.replicate _ 0, ⟨0.0, 0.0, 0.0, 0.0, 0.0⟩, 0, 0, 44436, 1784⟩
  have hlookup : lookup new.table (new.vc + new.current 20000) = some 0 := by
    have hlt : (position (new.vc + new.current 20000)).toNat < reverseTableSize := by decide
    exact lookup_eq_some_iff.mpr ⟨by decide, hlt, Vector.getElem_replicate hlt⟩
  have hstep := step_of_lookup (show new.vx < new.gate by decide) hlookup
  have hanswer : lastAnswer none new [.step 20000, .setGate 3.0] = some (-4577) := by
    have hgate : ∀ s : Integrator, s.setGate 3.0 = .error (.gateMultiplier 3.0) :=
      fun s => setGate_of_not_inside (by decide)
    rw [lastAnswer, call, hstep]
    show lastAnswer _ _ [.setGate 3.0] = _
    rw [lastAnswer, call, hgate]
    decide
  obtain ⟨-, -, hlast⟩ := faults_documented new [.step 20000, .setGate 3.0]
  exact ⟨new, hanswer, (hlast _ hanswer).2.1⟩

end Integrator

end SignalPath
