import SignalPath.Number.Decimal

/-!
# Filter integrator

One stage of the analog filter: an inverting op-amp with a capacitor in its feedback path, charged
through a transistor whose gate voltage sets the cutoff frequency.

Voltages are numbers on a 16-bit scale. A step charges the capacitor with the current of the
transistor, which is the difference of two squares, and looks up the voltage `vx` at the op-amp's
input that belongs to the new charge `vc`. All of this is done in fixed-width words that wrap: the
squares and their difference in 32 bits without sign, the charge in 32 bits with sign.

A step fails if the gate voltage does not exceed `vx`, and then changes nothing, or if the charge
leaves the table, and then has stored the charge and not `vx`.
-/

namespace SignalPath

/-- Number of entries of a reverse table. -/
def reverseTableSize : Nat := 65536

/-- The op-amp's transfer curve read backwards: for a charge, the voltage at the input. -/
abbrev ReverseTable := Vector UInt16 reverseTableSize

/-- The circuit around an integrator. -/
structure Circuit where
  /-- The level of the voices without signal, in volts. -/
  voiceDc : Float
  /-- The threshold of the transistor, in volts. -/
  threshold : Float
  /-- The gain of the transistor on the scale of the table. -/
  gain : Float
  /-- The voltage at the lower end of the scale. -/
  lowest : Float
  /-- Scale units for each volt. -/
  unitsPerVolt : Float

/-- Why an integrator refuses an operation. -/
inductive IntegratorFault where
  /-- The reverse table has the wrong number of entries. -/
  | tableSize (entries : Nat)
  /-- The current factor for a width of the cutoff transistor does not fit 16 bits. -/
  | currentFactor (factor width : Float)
  /-- The gate multiplier does not lie strictly between 1 and 2. -/
  | gateMultiplier (multiplier : Float)
  /-- The gate voltage for a multiplier does not fit 16 bits. -/
  | gateVoltage (voltage multiplier : Float)
  /-- The gate voltage does not exceed the voltage at the op-amp's input. -/
  | subthreshold (vx gate : UInt16)
  /-- The charge lies outside the reverse table. -/
  | chargeOutsideTable (charge : Int32)

/-- The wording of a fault. -/
def IntegratorFault.message : IntegratorFault → String
  | .tableSize entries =>
    "assertion \x60left == right\x60 failed: reverse op-amp table must have 65536 entries\n  left: "
      ++ toString entries ++ "\n right: " ++ toString reverseTableSize
  | .currentFactor factor width =>
    "cutoff current factor " ++ Decimal.shortest factor ++ " out of 16-bit range (wl="
      ++ Decimal.shortest width ++ ")"
  | .gateMultiplier multiplier =>
    "gate multiplier " ++ Decimal.shortest multiplier ++ " outside (1, 2)"
  | .gateVoltage voltage multiplier =>
    "gate overdrive " ++ Decimal.shortest voltage ++ " out of 16-bit range (v="
      ++ Decimal.shortest multiplier ++ ")"
  | .subthreshold vx gate =>
    "integrator in subthreshold: vx=" ++ toString vx.toNat ++ " nVgt=" ++ toString gate.toNat
  | .chargeOutsideTable charge =>
    "capacitor charge " ++ toString charge.toInt ++ " outside op-amp table"

/-- An integrator with its settings and its state. -/
structure Integrator where
  /-- The reverse table of the op-amp. -/
  table : ReverseTable
  /-- The circuit around it. -/
  circuit : Circuit
  /-- The voltage at the op-amp's input. -/
  vx : UInt16
  /-- The charge of the capacitor. -/
  vc : Int32
  /-- The gate voltage less the threshold. -/
  gate : UInt16
  /-- The factor of the cutoff transistor's current. -/
  factor : UInt16

namespace Integrator

/-- Sets the width of the cutoff transistor. -/
def setWidth (s : Integrator) (width : Float) : Except IntegratorFault Integrator :=
  let factor := 8192.0 * s.circuit.gain * width
  if -0.5 < factor ∧ factor < 65535.5 then .ok { s with factor := (factor + 0.5).toUInt16 }
  else .error (.currentFactor factor width)

/-- Sets the gate voltage to a multiple of the level of the voices. -/
def setGate (s : Integrator) (multiplier : Float) : Except IntegratorFault Integrator :=
  if 1.0 < multiplier ∧ multiplier < 2.0 then
    let overdrive := s.circuit.voiceDc * multiplier - s.circuit.threshold
    let voltage := s.circuit.unitsPerVolt * (overdrive - s.circuit.lowest)
    if -0.5 < voltage ∧ voltage < 65535.5 then .ok { s with gate := (voltage + 0.5).toUInt16 }
    else .error (.gateVoltage voltage multiplier)
  else .error (.gateMultiplier multiplier)

/-- A discharged integrator with the gate at one and a half times the level of the voices. -/
def start (table : ReverseTable) (circuit : Circuit) : Except IntegratorFault Integrator :=
  setGate { table, circuit, vx := 0, vc := 0, gate := 0, factor := 0 } 1.5

/-- As `start`, for a table of any size. Only the right one is accepted. -/
def ofArray (table : Array UInt16) (circuit : Circuit) : Except IntegratorFault Integrator :=
  if h : table.size = reverseTableSize then start ⟨table, h⟩ circuit
  else .error (.tableSize table.size)

/-- Discharges the capacitor and keeps the settings. -/
def reset (s : Integrator) : Integrator := { s with vx := 0, vc := 0 }

/-- The charge that flows in one step for the input voltage `vi`. The drain term vanishes once the
input reaches the gate voltage. -/
def current (s : Integrator) (vi : Int32) : Int32 :=
  let gate := s.gate.toUInt32
  let source := gate - s.vx.toUInt32
  let drain := if vi < gate.toInt32 then (gate.toInt32 - vi).toUInt32 else 0
  s.factor.toUInt32.toInt32 * ((source * source - drain * drain).toInt32 >>> 15)

/-- Where a charge is found in the reverse table. -/
def position (vc : Int32) : Int := vc.toInt / 32768 + 32768

/-- The entry of the reverse table for a charge, if the charge lies inside the table. -/
def lookup (table : ReverseTable) (vc : Int32) : Option UInt16 :=
  if 0 ≤ position vc then table[(position vc).toNat]? else none

/-- The output voltage for a voltage at the op-amp's input and a charge. -/
def outputOf (vx : UInt16) (vc : Int32) : Int32 := vx.toUInt32.toInt32 - (vc >>> 14)

/-- Takes one input voltage and gives the output voltage. -/
def step (s : Integrator) (vi : Int32) : Integrator × Except IntegratorFault Int32 :=
  if s.vx < s.gate then
    let vc := s.vc + s.current vi
    match lookup s.table vc with
    | some vx => ({ s with vx, vc }, .ok (outputOf vx vc))
    | none => ({ s with vc }, .error (.chargeOutsideTable vc))
  else (s, .error (.subthreshold s.vx s.gate))

end Integrator

end SignalPath
