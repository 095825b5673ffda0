import SignalPath.Chip.Integrator

/-!
# Runs of an integrator

The operations a caller has, and runs of them up to the first fault. A property that every
operation preserves holds after any run; if the property also excludes a fault, the run has none.
-/

namespace SignalPath.Integrator

/-- What a caller does with an integrator. -/
inductive Operation where
  | step (vi : Int32)
  | setWidth (width : Float)
  | setGate (multiplier : Float)
  | reset

/-- The integrator after an operation, or the fault of the operation. -/
def perform (s : Integrator) : Operation → Except IntegratorFault Integrator
  | .step vi => match s.step vi with
    | (s', .ok _) => .ok s'
    | (_, .error e) => .error e
  | .setWidth width => s.setWidth width
  | .setGate multiplier => s.setGate multiplier
  | .reset => .ok s.reset

@[simp]
theorem perform_setWidth (s : Integrator) (width : Float) :
    s.perform (.setWidth width) = s.setWidth width := rfl

@[simp]
theorem perform_setGate (s : Integrator) (multiplier : Float) :
    s.perform (.setGate multiplier) = s.setGate multiplier := rfl

/-- The integrator after operations in order, or the first fault. -/
def run (s : Integrator) : List Operation → Except IntegratorFault Integrator
  | [] => .ok s
  | op :: ops => match s.perform op with
    | .ok s' => run s' ops
    | .error e => .error e

section

variable {s s' : Integrator} {op : Operation} {ops : List Operation}

theorem run_cons_ok (h : s.perform op = .ok s') : run s (op :: ops) = run s' ops := by
  rw [run, h]

theorem run_replicate_succ (h : s.perform op = .ok s') (n : Nat) :
    run s (List.replicate (n + 1) op) = run s' (List.replicate n op) := by
  rw [List.replicate_succ, run_cons_ok h]

/-- A run in two parts. -/
theorem run_append (h : run s ops = .ok s') (ops' : List Operation) :
    run s (ops ++ ops') = run s' ops' := by
  induction ops generalizing s with
  | nil =>
    cases h
    rfl
  | cons op ops ih =>
    rw [run] at h
    cases hop : s.perform op with
    | ok t =>
      rw [hop] at h
      rw [List.cons_append, run_cons_ok hop]
      exact ih h
    | error e =>
      rw [hop] at h
      cases h

/-- Operations that keep an invariant and do not fail under it make up runs that do not fail. -/
theorem run_ok {I : Integrator → Prop} {P : Operation → Prop}
    (hop : ∀ s op, I s → P op → ∃ s', s.perform op = .ok s' ∧ I s') (hs : I s)
    (hops : ∀ op ∈ ops, P op) : ∃ s', run s ops = .ok s' ∧ I s' := by
  induction ops generalizing s with
  | nil => exact ⟨s, rfl, hs⟩
  | cons op ops ih =>
    obtain ⟨t, hperform, ht⟩ := hop s op hs (hops op List.mem_cons_self)
    obtain ⟨s', hrun, hs'⟩ := ih ht fun op' h => hops op' (List.mem_cons_of_mem _ h)
    exact ⟨s', by rw [run_cons_ok hperform, hrun], hs'⟩

/-- What operations of some kind keep holds after any run of them without a fault. -/
theorem run_keeps {I : Integrator → Prop} {P : Operation → Prop}
    (hop : ∀ s op s', I s → P op → s.perform op = .ok s' → I s') (hs : I s)
    (hops : ∀ op ∈ ops, P op) (hrun : run s ops = .ok s') : I s' := by
  induction ops generalizing s with
  | nil =>
    cases hrun
    exact hs
  | cons op ops ih =>
    rw [run] at hrun
    cases hperform : s.perform op with
    | ok t =>
      rw [hperform] at hrun
      exact ih (hop s op t hs (hops op List.mem_cons_self) hperform)
        (fun op' h => hops op' (List.mem_cons_of_mem _ h)) hrun
    | error e =>
      rw [hperform] at hrun
      cases hrun

end

/-! ## Single operations -/

/-- The current factor for a width, before it is rounded. -/
def factorOf (c : Circuit) (width : Float) : Float := 8192.0 * c.gain * width

/-- The gate voltage for a multiplier, before it is rounded. -/
def gateOf (c : Circuit) (multiplier : Float) : Float :=
  c.unitsPerVolt * (c.voiceDc * multiplier - c.threshold - c.lowest)

section

variable {s s' : Integrator}

theorem setWidth_of_fits {width : Float}
    (h : -0.5 < factorOf s.circuit width ∧ factorOf s.circuit width < 65535.5) :
    s.setWidth width = .ok { s with factor := (factorOf s.circuit width + 0.5).toUInt16 } :=
  if_pos h

theorem setWidth_of_not_fits {width : Float}
    (h : ¬ (-0.5 < factorOf s.circuit width ∧ factorOf s.circuit width < 65535.5)) :
    s.setWidth width = .error (.currentFactor (factorOf s.circuit width) width) :=
  if_neg h

theorem setWidth_ok_iff {width : Float} :
    s.setWidth width = .ok s' ↔
      (-0.5 < factorOf s.circuit width ∧ factorOf s.circuit width < 65535.5) ∧
        s' = { s with factor := (factorOf s.circuit width + 0.5).toUInt16 } := by
  by_cases hfits : -0.5 < factorOf s.circuit width ∧ factorOf s.circuit width < 65535.5
  · rw [setWidth_of_fits hfits]
    exact ⟨fun h => ⟨hfits, (Except.ok.inj h).symm⟩, fun h => by rw [h.2]⟩
  · rw [setWidth_of_not_fits hfits]
    exact ⟨fun h => (nomatch h), fun h => absurd h.1 hfits⟩

theorem setGate_of_fits {multiplier : Float} (h : 1.0 < multiplier ∧ multiplier < 2.0)
    (h' : -0.5 < gateOf s.circuit multiplier ∧ gateOf s.circuit multiplier < 65535.5) :
    s.setGate multiplier = .ok { s with gate := (gateOf s.circuit multiplier + 0.5).toUInt16 } := by
  rw [setGate, if_pos h]
  exact if_pos h'

theorem setGate_of_not_fits {multiplier : Float} (h : 1.0 < multiplier ∧ multiplier < 2.0)
    (h' : ¬ (-0.5 < gateOf s.circuit multiplier ∧ gateOf s.circuit multiplier < 65535.5)) :
    s.setGate multiplier = .error (.gateVoltage (gateOf s.circuit multiplier) multiplier) := by
  rw [setGate, if_pos h]
  exact if_neg h'

theorem setGate_of_not_inside {multiplier : Float} (h : ¬ (1.0 < multiplier ∧ multiplier < 2.0)) :
    s.setGate multiplier = .error (.gateMultiplier multiplier) := by
  rw [setGate, if_neg h]

theorem setGate_ok_iff {multiplier : Float} :
    s.setGate multiplier = .ok s' ↔
      (1.0 < multiplier ∧ multiplier < 2.0) ∧
      (-0.5 < gateOf s.circuit multiplier ∧ gateOf s.circuit multiplier < 65535.5) ∧
        s' = { s with gate := (gateOf s.circuit multiplier + 0.5).toUInt16 } := by
  by_cases hinside : 1.0 < multiplier ∧ multiplier < 2.0
  · by_cases hfits : -0.5 < gateOf s.circuit multiplier ∧ gateOf s.circuit multiplier < 65535.5
    · rw [setGate_of_fits hinside hfits]
      exact ⟨fun h => ⟨hinside, hfits, (Except.ok.inj h).symm⟩, fun h => by rw [h.2.2]⟩
    · rw [setGate_of_not_fits hinside hfits]
      exact ⟨fun h => (nomatch h), fun h => absurd h.2.1 hfits⟩
  · rw [setGate_of_not_inside hinside]
    exact ⟨fun h => (nomatch h), fun h => absurd h.1 hinside⟩

theorem perform_of_step_ok {vi y : Int32} (h : s.step vi = (s', .ok y)) :
    s.perform (.step vi) = .ok s' := by
  rw [perform, h]

/-- A step that succeeds as an operation is answered. -/
theorem perform_step {vi : Int32} (h : s.perform (.step vi) = .ok s') :
    ∃ y, s.step vi = (s', .ok y) := by
  rw [perform] at h
  cases hstep : s.step vi with
  | mk t answer =>
    rw [hstep] at h
    cases answer with
    | ok y =>
      cases h
      exact ⟨y, rfl⟩
    | error e => cases h

/-- A successful step goes to the entry of the reverse table for the new charge. -/
theorem step_ok {vi y : Int32} (h : s.step vi = (s', .ok y)) :
    s.vx < s.gate ∧ lookup s.table s'.vc = some s'.vx ∧
      s' = { s with vx := s'.vx, vc := s.vc + s.current vi } ∧ y = outputOf s'.vx s'.vc := by
  simp only [step] at h
  split at h
  · rename_i hgate
    split at h
    · rename_i vx hlookup
      cases h
      exact ⟨hgate, hlookup, rfl, rfl⟩
    · cases h
  · cases h

end

end SignalPath.Integrator
