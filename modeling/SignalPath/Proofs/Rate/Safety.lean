import SignalPath.Proofs.Lowpass.Dimensions
import SignalPath.Proofs.Lowpass.Entries
import SignalPath.Proofs.Rate.Answers
import SignalPath.Proofs.Rate.Schedule
import SignalPath.Rate.Polyphase

/-!
# An accepted polyphase converter never fails

Two things can go wrong when a converter takes a sample: the phase leaves its register, or an output
reads a row that the bank does not have or samples that the history has not kept. The dimensions of
an accepted filter exclude both, in every state that samples and resets lead to.
-/

namespace SignalPath.PolyphaseConverter

/-- The row of the bank behind a row number, and how many samples have come after its window: the
number after the last one stands for the first row on newer samples. -/
def located (bank : Bank Float32) (row : Int) : Int × Nat :=
  if row = bank.phases then (0, 0) else (row, 1)

/-- What is read for a row number lies inside the bank and inside the history. -/
structure ReadsInside (bank : Bank Float32) (history : History Float32) (row : Int) : Prop where
  row_nonneg : 0 ≤ (located bank row).1
  row_lt : (located bank row).1 < bank.phases
  /-- The first sample of the window. -/
  start_le : bank.length + (located bank row).2 ≤ history.next + historySize
  /-- The end of the window. -/
  stop_le : history.next + historySize - (bank.length + (located bank row).2) + bank.length ≤
    2 * historySize

section

variable {bank : Bank Float32} {history : History Float32} {row s : Int}

theorem located_le (bank : Bank Float32) (row : Int) : (located bank row).2 ≤ 1 := by
  unfold located
  split
  · exact Nat.zero_le 1
  · exact Nat.le_refl 1

theorem readsInside_of_le (hlength : bank.length < historySize) (hphases : 0 < bank.phases)
    (hrow : 0 ≤ row) (hrow' : row ≤ bank.phases) : ReadsInside bank history row := by
  have hnewer := located_le bank row
  have hnext := history.next_lt
  refine ⟨?_, ?_, by omega, by omega⟩
  · unfold located
    split
    · exact Int.le_refl 0
    · exact hrow
  · unfold located
    split
    · exact Int.natCast_pos.mpr hphases
    · show row < bank.phases
      omega

theorem exists_response (hlength : bank.length < historySize) (h : ReadsInside bank history row) :
    ∃ y, response bank history row = .ok y := by
  have hnewer := located_le bank row
  have hwindow : history.window? bank.length (located bank row).2 = some _ :=
    if_pos (by omega)
  obtain ⟨r, hr⟩ := Int.eq_ofNat_of_zero_le h.row_nonneg
  have hr' : r < bank.phases := by
    have := h.row_lt
    omega
  have hrow : bank.row? (located bank row).1 = some bank.rows[r] := by
    rw [hr]
    exact Bank.row?_natCast hr'
  unfold located at hwindow hrow
  by_cases hlast : row = bank.phases
  · rw [if_pos hlast] at hwindow hrow
    rw [hlast]
    exact ⟨_, response_phases hwindow hrow⟩
  · rw [if_neg hlast] at hwindow hrow
    exact ⟨_, response_of_ne_phases hlast hwindow hrow⟩

/-- The row numbers around the place of an output. -/
theorem rows_around (hs : 0 ≤ s) (hs' : s < 1024) (hphases : 0 < bank.phases) :
    0 ≤ s * bank.phases / phaseUnit ∧ s * bank.phases / phaseUnit + 1 ≤ bank.phases := by
  have hnonneg : 0 ≤ s * bank.phases := Int.mul_nonneg hs (by omega)
  have hle : s * bank.phases ≤ 1023 * bank.phases :=
    Int.mul_le_mul_of_nonneg_right (by omega) (by omega)
  rw [phaseUnit]
  omega

theorem readsInside_around (history : History Float32) (hlength : bank.length < historySize)
    (hphases : 0 < bank.phases) (hs : 0 ≤ s) (hs' : s < 1024) :
    ReadsInside bank history (s * bank.phases / phaseUnit) ∧
      ReadsInside bank history (s * bank.phases / phaseUnit + 1) := by
  obtain ⟨hbelow, habove⟩ := rows_around hs hs' hphases
  exact ⟨readsInside_of_le hlength hphases hbelow (by omega),
    readsInside_of_le hlength hphases (by omega) habove⟩

theorem exists_interpolate (history : History Float32) (hlength : bank.length < historySize)
    (hphases : 0 < bank.phases) (hs : 0 ≤ s) (hs' : s < 1024) :
    ∃ y, interpolate bank history s = .ok y := by
  obtain ⟨hbelow, habove⟩ := readsInside_around history hlength hphases hs hs'
  obtain ⟨y, hy⟩ := exists_response hlength hbelow
  obtain ⟨z, hz⟩ := exists_response hlength habove
  exact ⟨_, interpolate_eq_ok hy hz⟩

end

/-! ## Calls of a converter -/

/-- The dimensions that a converter needs: the register has room for the step, and the history for
the windows. -/
structure Sized (bank : Bank Float32) (step : Nat) : Prop where
  le_step : 1024 ≤ step
  step_le : step ≤ 2147482624
  length_lt : bank.length < historySize
  phases_pos : 0 < bank.phases

/-- A state between calls: the bank stays, and the phase keeps to the schedule of the outputs since
the last reset. -/
structure Sound (bank : Bank Float32) (step : Nat) (c : PolyphaseConverter) : Prop where
  bank_eq : c.bank = bank
  scheduled : ∃ m, c.phase = Phase.after step m

section

variable {bank : Bank Float32} {step : Nat} {c : PolyphaseConverter}

theorem Sized.sound_start (hsized : Sized bank step) : Sound bank step (start bank step) :=
  ⟨rfl, 0, Phase.start_eq_after (Nat.lt_of_lt_of_le (by decide) hsized.le_step)⟩

theorem Sound.step_eq (h : Sound bank step c) : c.phase.step = step := by
  obtain ⟨-, m, hm⟩ := h
  rw [hm]
  rfl

theorem Sound.tick_eq (h : Sound bank step c) (hsized : Sized bank step) :
    ∃ m, c.phase.tick = (Phase.after step (m + 1), .ok (Phase.dueAt step m)) := by
  obtain ⟨-, m, hm⟩ := h
  exact ⟨m, by rw [hm, Phase.tick_after hsized.le_step hsized.step_le]⟩

/-- A sample is answered, and leaves the converter in such a state. -/
theorem Sound.feed (h : Sound bank step c) (hsized : Sized bank step) (x : Float32) :
    (∃ ready, (Converter.feed c x).2 = .ok ready) ∧ Sound bank step (Converter.feed c x).1 := by
  obtain ⟨m, htick⟩ := h.tick_eq hsized
  refine ⟨?_, by rw [bank_feed, h.bank_eq], m + 1, by rw [phase_feed, htick]⟩
  cases hdue : Phase.dueAt step m with
  | none =>
    rw [hdue] at htick
    rw [feed_of_not_due htick]
    exact ⟨false, rfl⟩
  | some s =>
    obtain ⟨hs, hs'⟩ := Phase.dueAt_bounds hdue
    obtain ⟨y, hy⟩ :=
      exists_interpolate (c.history.push x) hsized.length_lt hsized.phases_pos hs hs'
    rw [hdue] at htick
    rw [← h.bank_eq] at hy
    rw [feed_of_due htick hy]
    exact ⟨true, rfl⟩

theorem Sound.perform (h : Sound bank step c) (hsized : Sized bank step) (call : Converter.Call) :
    Sound bank step (Converter.perform c call) := by
  cases call with
  | feed x => exact (h.feed hsized x).2
  | reset =>
    rw [Converter.perform, reset_eq, h.bank_eq, h.step_eq]
    exact hsized.sound_start

/-- A converter on a bank and with a step of such dimensions never fails. -/
theorem Sized.faultless (hsized : Sized bank step) : Converter.Faultless (start bank step) :=
  Converter.faultless_of_keeps (I := Sound bank step) (fun _ call hc => hc.perform hsized call)
    (fun _ x hc => (hc.feed hsized x).1) hsized.sound_start

end

/-! ## Converters on banks of a catalogue -/

section

variable {c c' : Catalogue} {clock sample passband : Float} {s : PolyphaseConverter}

/-- An accepted converter starts on a bank with the dimensions for its rates. -/
theorem of_withCatalogue_eq_ok (hc : c.Reached)
    (h : withCatalogue c clock sample passband = (c', .ok s)) :
    ∃ spec bank, Spec.checked clock sample passband = .ok spec ∧
      bank.length = spec.length ∧ bank.phases = spec.phases ∧
      s = start bank (Phase.stepOf (Ratio.of clock sample)) := by
  cases hchecked : Spec.checked clock sample passband with
  | error f =>
    rw [withCatalogue_eq_error (c.request_error hchecked)] at h
    cases h
  | ok spec =>
    rw [withCatalogue_eq_ok (c.request_ok hchecked)] at h
    cases h
    obtain ⟨hlength, hphases⟩ := hc.bank_dimensions spec
    exact ⟨spec, _, rfl, hlength, hphases, rfl⟩

/-- A converter that is accepted for a finite sample rate, on a bank of any catalogue, never fails.
Its step leaves ample room in the register, and every output lies between two input samples and
reads rows of the bank and samples of the history only. -/
theorem accepted_never_fails (hc : c.Reached) (hsample : sample.isFinite = true)
    (h : withCatalogue c clock sample passband = (c', .ok s)) :
    (1024 ≤ s.phase.step ∧ s.phase.step ≤ 4194304) ∧
    (0 < s.bank.phases ∧ s.bank.phases ≤ 285) ∧ s.bank.length < historySize ∧
    Converter.Faultless s ∧
    ∀ calls x due, (Converter.after s calls).phase.tick.2 = .ok (some due) →
      (0 ≤ due ∧ due < 1024) ∧
      ReadsInside s.bank ((Converter.after s calls).history.push x)
        (due * s.bank.phases / phaseUnit) ∧
      ReadsInside s.bank ((Converter.after s calls).history.push x)
        (due * s.bank.phases / phaseUnit + 1) := by
  obtain ⟨spec, bank, hchecked, hlength, hphases, rfl⟩ := of_withCatalogue_eq_ok hc h
  obtain ⟨hlo, hhi⟩ := Spec.stepOf_bounds hchecked hsample
  obtain ⟨step, hstep⟩ := Int.eq_ofNat_of_zero_le (Int.le_trans (by decide) hlo)
  obtain ⟨-, -, ⟨-, hlength'⟩, -⟩ := Spec.of_checked_eq_ok hchecked
  rw [hstep] at hlo hhi ⊢
  have hsized : Sized bank step :=
    ⟨by omega, by omega, hlength ▸ hlength', hphases ▸ spec.phases_pos⟩
  refine ⟨⟨hlo, hhi⟩, ⟨hsized.phases_pos, hphases ▸ Spec.phases_le hchecked hsample⟩,
    hsized.length_lt, hsized.faultless, ?_⟩
  intro calls x due hdue
  have hsound : Sound bank step (Converter.after (start bank step) calls) :=
    Converter.after_keeps (fun _ call hd => hd.perform hsized call) calls _ hsized.sound_start
  obtain ⟨m, hm⟩ := hsound.tick_eq hsized
  rw [hm] at hdue
  obtain ⟨hplace, hplace'⟩ := Phase.dueAt_bounds (Except.ok.inj hdue)
  exact ⟨⟨hplace, hplace'⟩,
    readsInside_around _ hsized.length_lt hsized.phases_pos hplace hplace'⟩

/-- From the clock of a PAL machine to 44.1 kHz, with a passband of 20 kHz. -/
theorem never_fails_pal :
    ∃ c' s, withCatalogue Catalogue.empty 985248.0 44100.0 20000.0 = (c', .ok s) ∧
      1024 ≤ s.phase.step ∧ s.bank.length < historySize ∧ Converter.Faultless s := by
  have hrates : checkRates (985248.0 : Float) 44100.0 = .ok () := by decide
  have hband : (0.0 : Float) < 20000.0 ∧ (20000.0 : Float) < 44100.0 / 2.0 := by decide
  obtain ⟨spec, hspec⟩ :=
    (Spec.checked_eq_ok_iff hrates hband (by decide +kernel)).mpr (by decide +kernel)
  have haccepted := withCatalogue_eq_ok (Catalogue.empty.request_ok hspec)
  obtain ⟨hstep, -, hlength, hfaultless, -⟩ :=
    accepted_never_fails .empty (show (44100.0 : Float).isFinite = true from rfl) haccepted
  exact ⟨_, _, haccepted, hstep.1, hlength, hfaultless⟩

end

end SignalPath.PolyphaseConverter
