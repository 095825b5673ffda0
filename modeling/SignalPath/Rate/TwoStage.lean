import SignalPath.Rate.Polyphase

/-!
# Conversion in two stages

Two polyphase converters in a row, over a rate between the clock and the sample rate. The first has
much room between the passband and half the rate in between, so that its filter is short although it
runs on every clock cycle; the second has a long filter but a low input rate.
-/

namespace SignalPath

/-- The rates of a conversion in two stages. -/
structure Plan (α : Type) where
  /-- The rate of the input. -/
  clock : α
  /-- The rate between the stages. -/
  between : α
  /-- The rate of the output. -/
  sample : α
  /-- Both stages keep what lies below this frequency. -/
  passband : α

namespace Plan

section

variable {α : Type} [Add α] [Sub α] [Mul α] [Div α] [LT α] [LE α] [DecidableLT α] [DecidableLE α]
  [OfScientific α] [Transcendental α]

/-- The passband for a sample rate: up to 20 kHz for a rate above 44 kHz, and 45 percent of a lower
rate. -/
@[specialize]
def passbandFor (sample : α) : α :=
  if (44000.0 : α) < sample then 20000.0 else sample * 0.45

/-- The smaller of two values, or the one that is a number. -/
@[specialize]
def smaller (x y : α) : α :=
  if x < y then x else if isNumber y then y else x

/-- The rate between the stages: the one with the least work for both, but not above the clock. -/
@[specialize]
def rateBetween (clock sample : α) : α :=
  let passband := passbandFor sample
  let least := 2.0 * passband
    + Transcendental.sqrt (2.0 * passband * clock * (sample - 2.0 * passband) / sample)
  smaller least clock

/-- The plan for a pair of rates. -/
@[specialize]
def ofRates (clock sample : α) : Except RateError (Plan α) := do
  checkRates clock sample
  return ⟨clock, rateBetween clock sample, sample, passbandFor sample⟩

end

/-- What is noted when a plan is carried out. -/
def summary (p : Plan Float) : String :=
  "two-pass resampler: " ++ Decimal.shortest p.clock ++ " -> " ++ Decimal.shortest p.between
    ++ " -> " ++ Decimal.shortest p.sample ++ " Hz, passband " ++ Decimal.shortest p.passband
    ++ " Hz"

/-- The banks for both stages. If there is none for the second stage, the one for the first has been
published all the same. -/
def request (p : Plan Float) (c : Catalogue) : Catalogue × Except SpecFault (Entry × Entry) :=
  match c.request p.clock p.between p.passband with
  | (c', .error e) => (c', .error e)
  | (c', .ok first) =>
    match c'.request p.between p.sample p.passband with
    | (c'', .error e) => (c'', .error e)
    | (c'', .ok second) => (c'', .ok (first, second))

end Plan

/-- Two converters, the second of which takes the output of the first. -/
structure TwoStageConverter where
  /-- From the clock rate to the rate in between. -/
  first : PolyphaseConverter
  /-- From the rate in between to the sample rate. -/
  second : PolyphaseConverter

namespace TwoStageConverter

/-- Takes one input sample. The second stage takes one only if the first stage has one ready. -/
def feed : TwoStageConverter → Float32 → TwoStageConverter × Except ConverterFault Bool
  | ⟨first, second⟩, x =>
    match first.feed x with
    | (first, .ok true) =>
      let (second, ready) := second.feed first.latest
      (⟨first, second⟩, ready)
    | (first, .ok false) => (⟨first, second⟩, .ok false)
    | (first, .error e) => (⟨first, second⟩, .error e)

instance : Converter TwoStageConverter where
  feed := feed
  output c := c.second.latest
  reset c := ⟨Converter.reset c.first, Converter.reset c.second⟩

/-! ## What a sample does -/

section

variable {c : TwoStageConverter} {x : Float32} {first : PolyphaseConverter}

@[simp]
theorem output_eq (c : TwoStageConverter) : Converter.output c = c.second.latest := rfl

@[simp]
theorem reset_eq (c : TwoStageConverter) :
    Converter.reset c = ⟨Converter.reset c.first, Converter.reset c.second⟩ := rfl

/-- An output of the first stage is taken by the second one, which answers. -/
theorem feed_of_first_ready (h : Converter.feed c.first x = (first, .ok true)) :
    Converter.feed c x =
      (⟨first, (Converter.feed c.second first.latest).1⟩,
        (Converter.feed c.second first.latest).2) := by
  show feed c x = _
  rw [feed, show c.first.feed x = (first, .ok true) from h]
  rfl

/-- Without an output of the first stage the second one is left alone. -/
theorem feed_of_first_not_ready (h : Converter.feed c.first x = (first, .ok false)) :
    Converter.feed c x = (⟨first, c.second⟩, .ok false) := by
  show feed c x = _
  rw [feed, show c.first.feed x = (first, .ok false) from h]

/-- If the first stage fails, so do both, and the second one is left alone. -/
theorem feed_of_first_error {e : ConverterFault}
    (h : Converter.feed c.first x = (first, .error e)) :
    Converter.feed c x = (⟨first, c.second⟩, .error e) := by
  show feed c x = _
  rw [feed, show c.first.feed x = (first, .error e) from h]

theorem latest_feed (h : (Converter.feed c x).2 ≠ .ok true) :
    (Converter.feed c x).1.second.latest = c.second.latest := by
  rcases hfirst : Converter.feed c.first x with ⟨first, e | ready⟩
  · rw [feed_of_first_error hfirst]
  · cases ready with
    | false => rw [feed_of_first_not_ready hfirst]
    | true =>
      rw [feed_of_first_ready hfirst] at h ⊢
      exact PolyphaseConverter.latest_feed h

/-- A sample changes neither the banks nor the steps. -/
theorem reset_feed (c : TwoStageConverter) (x : Float32) :
    Converter.reset (Converter.feed c x).1 = Converter.reset c := by
  have hreset := PolyphaseConverter.reset_feed c.first x
  rw [reset_eq, reset_eq, ← hreset]
  rcases hfirst : Converter.feed c.first x with ⟨first, e | ready⟩
  · rw [feed_of_first_error hfirst]
  · cases ready with
    | false => rw [feed_of_first_not_ready hfirst]
    | true => rw [feed_of_first_ready hfirst, PolyphaseConverter.reset_feed]

end

/-- The converter for a plan on the banks for its stages. -/
def ofBanks (p : Plan Float) (first second : Bank Float32) : TwoStageConverter :=
  ⟨.ofBank first p.clock p.between, .ofBank second p.between p.sample⟩

/-- A converter from a clock rate down to a sample rate, on banks of the catalogue. -/
def withCatalogue (c : Catalogue) (clock sample : Float) :
    Catalogue × Except SpecFault TwoStageConverter :=
  match Plan.ofRates clock sample with
  | .error e => (c, .error (.rates e))
  | .ok p =>
    match p.request c with
    | (c', .ok (first, second)) => (c', .ok (ofBanks p first.bank second.bank))
    | (c', .error e) => (c', .error e)

section

variable {c c' : Catalogue} {clock sample : Float} {p : Plan Float}

theorem withCatalogue_of_refused {e : RateError} (h : Plan.ofRates clock sample = .error e) :
    withCatalogue c clock sample = (c, .error (.rates e)) := by
  rw [withCatalogue, h]

theorem withCatalogue_eq_ok {first second : Entry} (hp : Plan.ofRates clock sample = .ok p)
    (h : p.request c = (c', .ok (first, second))) :
    withCatalogue c clock sample = (c', .ok (ofBanks p first.bank second.bank)) := by
  rw [withCatalogue, hp]
  simp only [h]

theorem withCatalogue_eq_error {f : SpecFault} (hp : Plan.ofRates clock sample = .ok p)
    (h : p.request c = (c', .error f)) : withCatalogue c clock sample = (c', .error f) := by
  rw [withCatalogue, hp]
  simp only [h]

end

/-- A converter from a clock rate down to a sample rate. -/
def ofRates (clock sample : Float) : Except SpecFault TwoStageConverter :=
  (withCatalogue Catalogue.empty clock sample).2

end TwoStageConverter

end SignalPath
