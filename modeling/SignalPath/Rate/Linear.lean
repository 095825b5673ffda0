import SignalPath.Rate.Converter

/-!
# Linear conversion

The fastest converter: an output sample lies on the straight line between the two input samples
around it. It does not limit the band, so high frequencies alias.
-/

namespace SignalPath

/-- A converter that interpolates between neighbouring input samples. -/
structure LinearConverter where
  /-- The input sample before the current one. -/
  previous : Float32
  /-- Where the next output sample lies. -/
  phase : Phase
  /-- The most recent output sample. -/
  latest : Float32

namespace LinearConverter

/-- A fresh converter with the given step. -/
def start (step : Int) : LinearConverter := ⟨0.0, Phase.start step, 0.0⟩

/-- A converter from a clock rate down to a sample rate. -/
def ofRates (clock sample : Float) : Except RateError LinearConverter := do
  checkRates clock sample
  return start (Phase.stepOf (Ratio.of clock sample))

/-- The point of the line from `a` to `b` that is `s` phase units behind `a`. -/
def between (a b : Float32) (s : Int) : Float32 :=
  a + ofInt s * (b - a) / 1024.0

/-- Takes one input sample. -/
def feed (c : LinearConverter) (x : Float32) : LinearConverter × Except ConverterFault Bool :=
  match c.phase.tick with
  | (phase, .ok (some s)) =>
    ({ previous := x, phase, latest := between c.previous x s }, .ok true)
  | (phase, .ok none) => ({ c with previous := x, phase }, .ok false)
  | (phase, .error e) => ({ c with phase }, .error e)

instance : Converter LinearConverter where
  feed := feed
  output c := c.latest
  reset c := start c.phase.step

/-! ## What a sample does -/

section

variable {c : LinearConverter} {x : Float32} {phase : Phase}

@[simp]
theorem output_eq (c : LinearConverter) : Converter.output c = c.latest := rfl

@[simp]
theorem reset_eq (c : LinearConverter) : Converter.reset c = start c.phase.step := rfl

theorem feed_of_due {s : Int} (h : c.phase.tick = (phase, .ok (some s))) :
    Converter.feed c x = (⟨x, phase, between c.previous x s⟩, .ok true) := by
  show feed c x = _
  rw [feed, h]

theorem feed_of_not_due (h : c.phase.tick = (phase, .ok none)) :
    Converter.feed c x = (⟨x, phase, c.latest⟩, .ok false) := by
  show feed c x = _
  rw [feed, h]

theorem feed_of_tick_error {e : ConverterFault} (h : c.phase.tick = (phase, .error e)) :
    Converter.feed c x = ({ c with phase }, .error e) := by
  show feed c x = _
  rw [feed, h]

@[simp]
theorem phase_feed (c : LinearConverter) (x : Float32) :
    (Converter.feed c x).1.phase = c.phase.tick.1 := by
  rcases h : c.phase.tick with ⟨phase, e | due | s⟩
  · rw [feed_of_tick_error h]
  · rw [feed_of_not_due h]
  · rw [feed_of_due h]

end

end LinearConverter

end SignalPath
