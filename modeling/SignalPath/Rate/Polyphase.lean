import SignalPath.Lowpass.Catalogue
import SignalPath.Lowpass.Convolution
import SignalPath.Rate.Converter
import SignalPath.Rate.History

/-!
# Polyphase conversion

The band-limiting converter. An output sample between two input samples is the convolution of the
latest samples with the filter at that phase. The bank has only some phases, so the converter
interpolates between the two around the exact one; the phase after the last is the first phase on
samples that are one newer.
-/

namespace SignalPath

/-- A converter with a filter bank. -/
structure PolyphaseConverter where
  /-- The filter bank. -/
  bank : Bank Float32
  /-- The latest input samples. -/
  history : History Float32
  /-- Where the next output sample lies. -/
  phase : Phase
  /-- The most recent output sample. -/
  latest : Float32

namespace PolyphaseConverter

/-- A fresh converter with a bank and a step. -/
def start (bank : Bank Float32) (step : Int) : PolyphaseConverter :=
  ⟨bank, History.filled 0.0, Phase.start step, 0.0⟩

/-- The convolution with row `row` of the bank on the samples before the newest, or, for the row
after the last one, with the first row on the samples up to the newest. -/
def response (bank : Bank Float32) (history : History Float32) (row : Int) :
    Except ConverterFault Float32 :=
  let (row, newer) : Int × Nat := if row = bank.phases then (0, 0) else (row, 1)
  match history.window? bank.length newer, bank.row? row with
  | some samples, some coefficients =>
    .ok (Convolution.convolve samples coefficients.toArray)
  | none, _ => .error .missingSamples
  | some _, none => .error .missingRow

/-- The output sample `s` phase units after the input sample before the newest. -/
def interpolate (bank : Bank Float32) (history : History Float32) (s : Int) :
    Except ConverterFault Float32 := do
  let place := s * bank.phases
  let below ← response bank history (place / phaseUnit)
  let above ← response bank history (place / phaseUnit + 1)
  return below + ofInt (place % phaseUnit) * (above - below) / 1024.0

section

variable {bank : Bank Float32} {history : History Float32}

theorem response_of_ne_phases {row : Int} {samples : Array Float32}
    {coefficients : Vector Float32 bank.length} (hrow : row ≠ bank.phases)
    (hsamples : history.window? bank.length 1 = some samples)
    (hcoefficients : bank.row? row = some coefficients) :
    response bank history row = .ok (Convolution.convolve samples coefficients.toArray) := by
  simp only [response, if_neg hrow, hsamples, hcoefficients]

theorem response_phases {samples : Array Float32} {coefficients : Vector Float32 bank.length}
    (hsamples : history.window? bank.length 0 = some samples)
    (hcoefficients : bank.row? 0 = some coefficients) :
    response bank history bank.phases =
      .ok (Convolution.convolve samples coefficients.toArray) := by
  simp only [response, if_true, hsamples, hcoefficients]

theorem interpolate_eq_ok {s : Int} {below above : Float32}
    (hbelow : response bank history (s * bank.phases / phaseUnit) = .ok below)
    (habove : response bank history (s * bank.phases / phaseUnit + 1) = .ok above) :
    interpolate bank history s =
      .ok (below + ofInt (s * bank.phases % phaseUnit) * (above - below) / 1024.0) := by
  unfold interpolate
  dsimp only
  rw [hbelow, habove]
  rfl

end

/-- Takes one input sample. -/
def feed : PolyphaseConverter → Float32 → PolyphaseConverter × Except ConverterFault Bool
  | ⟨bank, history, phase, latest⟩, x =>
    let history := history.push x
    match phase.tick with
    | (phase, .ok (some s)) =>
      match interpolate bank history s with
      | .ok y => (⟨bank, history, phase, y⟩, .ok true)
      | .error e => (⟨bank, history, phase, latest⟩, .error e)
    | (phase, .ok none) => (⟨bank, history, phase, latest⟩, .ok false)
    | (phase, .error e) => (⟨bank, history, phase, latest⟩, .error e)

instance : Converter PolyphaseConverter where
  feed := feed
  output c := c.latest
  reset c := start c.bank c.phase.step

/-! ## What a sample does -/

section

variable {c : PolyphaseConverter} {x : Float32} {phase : Phase} {s : Int}

@[simp]
theorem output_eq (c : PolyphaseConverter) : Converter.output c = c.latest := rfl

/-- A reset leaves a fresh converter with the same bank and step. -/
@[simp]
theorem reset_eq (c : PolyphaseConverter) : Converter.reset c = start c.bank c.phase.step := rfl

theorem feed_of_due {y : Float32} (htick : c.phase.tick = (phase, .ok (some s)))
    (hy : interpolate c.bank (c.history.push x) s = .ok y) :
    Converter.feed c x = (⟨c.bank, c.history.push x, phase, y⟩, .ok true) := by
  show feed c x = _
  rw [feed, htick]
  simp only [hy]

theorem feed_of_not_due (htick : c.phase.tick = (phase, .ok none)) :
    Converter.feed c x = (⟨c.bank, c.history.push x, phase, c.latest⟩, .ok false) := by
  show feed c x = _
  rw [feed, htick]

/-- An output that is due but cannot be computed. -/
theorem feed_of_interpolate_error {e : ConverterFault}
    (htick : c.phase.tick = (phase, .ok (some s)))
    (he : interpolate c.bank (c.history.push x) s = .error e) :
    Converter.feed c x = (⟨c.bank, c.history.push x, phase, c.latest⟩, .error e) := by
  show feed c x = _
  rw [feed, htick]
  simp only [he]

theorem feed_of_tick_error {e : ConverterFault} (htick : c.phase.tick = (phase, .error e)) :
    Converter.feed c x = (⟨c.bank, c.history.push x, phase, c.latest⟩, .error e) := by
  show feed c x = _
  rw [feed, htick]

/-- Whatever its answer is, a sample goes into the history and moves the phase on. Only an output
that is ready changes the most recent one. -/
theorem exists_fst_feed (c : PolyphaseConverter) (x : Float32) :
    ∃ y, (Converter.feed c x).1 = ⟨c.bank, c.history.push x, c.phase.tick.1, y⟩ ∧
      ((Converter.feed c x).2 ≠ .ok true → y = c.latest) := by
  rcases htick : c.phase.tick with ⟨phase, e | due | s⟩
  · exact ⟨c.latest, by rw [feed_of_tick_error htick], fun _ => rfl⟩
  · exact ⟨c.latest, by rw [feed_of_not_due htick], fun _ => rfl⟩
  · cases hy : interpolate c.bank (c.history.push x) s with
    | error e => exact ⟨c.latest, by rw [feed_of_interpolate_error htick hy], fun _ => rfl⟩
    | ok y =>
      rw [feed_of_due htick hy]
      exact ⟨y, rfl, fun h => absurd rfl h⟩

@[simp]
theorem bank_feed (c : PolyphaseConverter) (x : Float32) :
    (Converter.feed c x).1.bank = c.bank := by
  obtain ⟨y, hfeed, -⟩ := exists_fst_feed c x
  rw [hfeed]

@[simp]
theorem history_feed (c : PolyphaseConverter) (x : Float32) :
    (Converter.feed c x).1.history = c.history.push x := by
  obtain ⟨y, hfeed, -⟩ := exists_fst_feed c x
  rw [hfeed]

@[simp]
theorem phase_feed (c : PolyphaseConverter) (x : Float32) :
    (Converter.feed c x).1.phase = c.phase.tick.1 := by
  obtain ⟨y, hfeed, -⟩ := exists_fst_feed c x
  rw [hfeed]

theorem latest_feed (h : (Converter.feed c x).2 ≠ .ok true) :
    (Converter.feed c x).1.latest = c.latest := by
  obtain ⟨y, hfeed, hy⟩ := exists_fst_feed c x
  rw [hfeed, hy h]

/-- A sample changes neither the bank nor the step. -/
theorem reset_feed (c : PolyphaseConverter) (x : Float32) :
    Converter.reset (Converter.feed c x).1 = Converter.reset c := by
  simp

end

/-- A converter on a given bank from a clock rate down to a sample rate. -/
def ofBank (bank : Bank Float32) (clock sample : Float) : PolyphaseConverter :=
  start bank (Phase.stepOf (Ratio.of clock sample))

/-- A converter from a clock rate down to a sample rate that keeps what lies below the passband, on
a bank of the catalogue. -/
def withCatalogue (c : Catalogue) (clock sample passband : Float) :
    Catalogue × Except SpecFault PolyphaseConverter :=
  match c.request clock sample passband with
  | (c', .ok entry) => (c', .ok (ofBank entry.bank clock sample))
  | (c', .error e) => (c', .error e)

section

variable {c c' : Catalogue} {clock sample passband : Float}

theorem withCatalogue_eq_ok {entry : Entry}
    (h : c.request clock sample passband = (c', .ok entry)) :
    withCatalogue c clock sample passband = (c', .ok (ofBank entry.bank clock sample)) := by
  rw [withCatalogue, h]

theorem withCatalogue_eq_error {f : SpecFault}
    (h : c.request clock sample passband = (c', .error f)) :
    withCatalogue c clock sample passband = (c', .error f) := by
  rw [withCatalogue, h]

end

/-- A converter from a clock rate down to a sample rate that keeps what lies below the passband. -/
def ofRates (clock sample passband : Float) : Except SpecFault PolyphaseConverter :=
  (withCatalogue Catalogue.empty clock sample passband).2

end PolyphaseConverter

end SignalPath
