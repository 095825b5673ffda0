import SignalPath.Proofs.Rate.Filtering
import SignalPath.Proofs.Rate.Safety
import SignalPath.Rate.TwoStage

/-!
# Two stages in a row

A conversion in two stages is the composition of its stages as functions on streams: the second
stage, on its own, turns the outputs of the first stage into the outputs of both, and an output
comes with the input on which the first stage gave the sample that it belongs to. This holds in any
state of the two stages, whether or not one of them fails. On fresh stages the schedules of both
give the number of outputs. The stages of an accepted conversion to a finite rate never fail.
-/

namespace SignalPath

namespace Converter

variable {σ : Type} [Converter σ]

/-- The output samples among the answers. -/
def samples : List (Except ConverterFault (Option Float32)) → List Float32
  | [] => []
  | .ok (some y) :: rest => y :: samples rest
  | .ok none :: rest => samples rest
  | .error _ :: rest => samples rest

/-- The output samples among answers to inputs with given places, each with the place of its
input. -/
def outputsAt : List Nat → List (Except ConverterFault (Option Float32)) → List (Nat × Float32)
  | m :: places, .ok (some y) :: rest => (m, y) :: outputsAt places rest
  | _ :: places, .ok none :: rest => outputsAt places rest
  | _ :: places, .error _ :: rest => outputsAt places rest
  | [], _ => []
  | _, [] => []

/-- The answers of two converters in a row: those of the second one take the places of the outputs
of the first one, and all other answers are those of the first one. -/
def chain : (first second : List (Except ConverterFault (Option Float32))) →
    List (Except ConverterFault (Option Float32))
  | .ok (some _) :: first, answer :: second => answer :: chain first second
  | .ok none :: first, second => .ok none :: chain first second
  | .error e :: first, second => .error e :: chain first second
  | .ok (some _) :: _, [] => []
  | [], _ => []

theorem map_snd_outputsFrom (as : List (Except ConverterFault (Option Float32))) :
    ∀ m, (outputsFrom m as).map Prod.snd = samples as := by
  induction as with
  | nil => intro m; rfl
  | cons a as ih =>
    intro m
    rcases a with e | ⟨⟩ | y
    · exact ih (m + 1)
    · exact ih (m + 1)
    · exact congrArg (y :: ·) (ih (m + 1))

/-- The outputs of a chain are the outputs among the second answers, each at the place of the output
of the first answers that it belongs to. -/
theorem outputsFrom_chain (first : List (Except ConverterFault (Option Float32))) :
    ∀ second m, second.length = (samples first).length →
      outputsFrom m (chain first second) =
        outputsAt ((outputsFrom m first).map Prod.fst) second := by
  induction first with
  | nil =>
    intro second m hlength
    rw [List.length_eq_zero_iff.mp hlength]
    rfl
  | cons a first ih =>
    intro second m hlength
    rcases a with e | ⟨⟩ | y
    · exact ih second (m + 1) hlength
    · exact ih second (m + 1) hlength
    · cases second with
      | nil => cases hlength
      | cons b second =>
        have hrest := ih second (m + 1) (Nat.succ_inj.mp hlength)
        rcases b with e | ⟨⟩ | z
        · exact hrest
        · exact hrest
        · exact congrArg ((m, z) :: ·) hrest

/-- No output is lost for want of a place. -/
theorem map_snd_outputsAt (as : List (Except ConverterFault (Option Float32))) :
    ∀ places : List Nat, places.length = as.length →
      (outputsAt places as).map Prod.snd = samples as := by
  induction as with
  | nil =>
    intro places hlength
    rw [List.length_eq_zero_iff.mp hlength]
    rfl
  | cons a as ih =>
    intro places hlength
    cases places with
    | nil => cases hlength
    | cons m places =>
      have hrest := ih places (Nat.succ_inj.mp hlength)
      rcases a with e | ⟨⟩ | y
      · exact hrest
      · exact hrest
      · exact congrArg (y :: ·) hrest

/-! ## The most recent output -/

/-- The last output among the answers to the samples since the last reset: 0 after a reset until
there is one, and `y` at first. -/
def lastReported (y : Float32) (s : σ) : List Call → Float32
  | [] => y
  | .feed x :: calls =>
    match next s x with
    | (s', .ok (some z)) => lastReported z s' calls
    | (s', _) => lastReported y s' calls
  | .reset :: calls => lastReported 0.0 (reset s) calls

/-- If samples that are not answered with an output leave the most recent output alone, and a reset
makes it 0, then it is the last one that was answered. -/
theorem output_after (hfeed : ∀ (s : σ) x, (feed s x).2 ≠ .ok true →
      output (feed s x).1 = output s)
    (hreset : ∀ s : σ, output (reset s) = 0.0) (calls : List Call) :
    ∀ s : σ, output (after s calls) = lastReported (output s) s calls := by
  induction calls with
  | nil => intro s; rfl
  | cons call calls ih =>
    intro s
    show output (after (perform s call) calls) = _
    rw [ih]
    cases call with
    | reset => rw [perform, hreset, lastReported]
    | feed x =>
      rw [perform, lastReported]
      rcases hfed : feed s x with ⟨s', e | ready⟩
      · have hkeep : output s' = output s := by simpa [hfed] using hfeed s x
        rw [next_of_error hfed, hkeep]
      · cases ready with
        | false =>
          have hkeep : output s' = output s := by simpa [hfed] using hfeed s x
          rw [next_of_not_ready hfed, hkeep]
        | true => rw [next_of_ready hfed]

end Converter

namespace PolyphaseConverter

open Converter

variable {bank : Bank Float32} {step : Nat}

theorem step_ofBank (bank : Bank Float32) (clock sample : Float) :
    (ofBank bank clock sample).phase.step = Phase.stepOf (Ratio.of clock sample) := rfl

/-- The number of outputs of a fresh converter. -/
theorem length_samples_start (hsized : Sized bank step) (xs : List Float32) :
    (samples (answers (start bank step) xs)).length = 1024 * xs.length ⌈/⌉ step := by
  obtain ⟨hlo, hhi, hlength, hphases⟩ := hsized
  rw [← map_snd_outputsFrom _ 0,
    outputsFrom_of_schedule hlo (answers_start hphases hlength hlo hhi xs), List.length_map,
    List.length_map, List.length_range, Phase.dueBefore_eq_ceilDiv (by omega)]

end PolyphaseConverter

namespace TwoStageConverter

open Converter

/-! ## One sample -/

section

variable {first first' : PolyphaseConverter} {x : Float32}

/-- An output of the first stage is taken by the second one, which answers. -/
theorem next_of_first_ready (h : Converter.feed first x = (first', .ok true))
    (second : PolyphaseConverter) :
    next (⟨first, second⟩ : TwoStageConverter) x =
      (⟨first', (next second (output first')).1⟩, (next second (output first')).2) := by
  have hfeed := feed_of_first_ready (c := ⟨first, second⟩) h
  rw [PolyphaseConverter.output_eq]
  rcases hsecond : Converter.feed second first'.latest with ⟨second', e | ready⟩
  · rw [hsecond] at hfeed
    rw [next_of_error hfeed, next_of_error hsecond]
  · rw [hsecond] at hfeed
    cases ready with
    | false => rw [next_of_not_ready hfeed, next_of_not_ready hsecond]
    | true =>
      rw [next_of_ready hfeed, next_of_ready hsecond]
      rfl

theorem next_of_first_not_ready (h : Converter.feed first x = (first', .ok false))
    (second : PolyphaseConverter) :
    next (⟨first, second⟩ : TwoStageConverter) x = (⟨first', second⟩, .ok none) :=
  next_of_not_ready (feed_of_first_not_ready h)

theorem next_of_first_error {e : ConverterFault} (h : Converter.feed first x = (first', .error e))
    (second : PolyphaseConverter) :
    next (⟨first, second⟩ : TwoStageConverter) x = (⟨first', second⟩, .error e) :=
  next_of_error (feed_of_first_error h)

end

/-! ## Streams -/

/-- In any state, the answers of both stages are those of the first stage, with those of the second
stage on the outputs of the first in their places; and that is also how the stages move on. -/
theorem answers_eq_chain (first second : PolyphaseConverter) (xs : List Float32) :
    answers (⟨first, second⟩ : TwoStageConverter) xs =
        chain (answers first xs) (answers second (samples (answers first xs))) ∧
      after (⟨first, second⟩ : TwoStageConverter) (xs.map .feed) =
        ⟨after first (xs.map .feed), after second ((samples (answers first xs)).map .feed)⟩ := by
  induction xs generalizing first second with
  | nil => exact ⟨rfl, rfl⟩
  | cons x xs ih =>
    -- The second stage moves on only where the first one has an output.
    rw [after_feeds_cons, after_feeds_cons, answers, answers]
    rcases hfeed : Converter.feed first x with ⟨first', e | ready⟩
    · obtain ⟨hanswers, hafter⟩ := ih first' second
      rw [next_of_first_error hfeed, next_of_error hfeed, hanswers, hafter]
      exact ⟨rfl, rfl⟩
    · cases ready with
      | false =>
        obtain ⟨hanswers, hafter⟩ := ih first' second
        rw [next_of_first_not_ready hfeed, next_of_not_ready hfeed, hanswers, hafter]
        exact ⟨rfl, rfl⟩
      | true =>
        obtain ⟨hanswers, hafter⟩ := ih first' (next second (output first')).1
        rw [next_of_first_ready hfeed, next_of_ready hfeed, hanswers, hafter, samples,
          after_feeds_cons]
        exact ⟨rfl, rfl⟩

/-- The outputs of both stages are those of the second stage on the outputs of the first one. -/
theorem composed (s : TwoStageConverter) (xs : List Float32) :
    answers s xs =
        chain (answers s.first xs) (answers s.second (samples (answers s.first xs))) ∧
      samples (answers s xs) = samples (answers s.second (samples (answers s.first xs))) ∧
      outputsFrom 0 (answers s xs) =
        outputsAt ((outputsFrom 0 (answers s.first xs)).map Prod.fst)
          (answers s.second (samples (answers s.first xs))) := by
  obtain ⟨first, second⟩ := s
  dsimp only
  have hlength : (answers second (samples (answers first xs))).length =
      (samples (answers first xs)).length := length_answers _ _
  have houtputs := outputsFrom_chain (answers first xs) _ 0 hlength
  rw [(answers_eq_chain first second xs).1]
  refine ⟨rfl, ?_, houtputs⟩
  -- There are as many places as there are answers of the second stage, so none is cut off.
  rw [← map_snd_outputsFrom _ 0, houtputs, map_snd_outputsAt]
  rw [hlength, List.length_map, ← map_snd_outputsFrom _ 0, List.length_map]

/-- However long a conversion has been used, a reset makes it as good as new. -/
theorem reset_after (s : TwoStageConverter) (calls : List Call) :
    Converter.reset (after s calls) = Converter.reset s := by
  refine after_keeps (I := fun t => Converter.reset t = Converter.reset s) ?_ calls s rfl
  intro t call ht
  cases call with
  | feed x => exact (reset_feed t x).trans ht
  | reset => exact ht

/-! ## Stages that never fail -/

/-- A state between calls: that of each stage is one. -/
structure Sound (first second : Bank Float32) (step step' : Nat) (t : TwoStageConverter) :
    Prop where
  first : PolyphaseConverter.Sound first step t.first
  second : PolyphaseConverter.Sound second step' t.second

section

variable {first second : Bank Float32} {step step' : Nat} {t : TwoStageConverter}

theorem Sound.feed (h : Sound first second step step' t)
    (hfirst : PolyphaseConverter.Sized first step)
    (hsecond : PolyphaseConverter.Sized second step') (x : Float32) :
    (∃ ready, (Converter.feed t x).2 = .ok ready) ∧
      Sound first second step step' (Converter.feed t x).1 := by
  obtain ⟨⟨ready, hready⟩, hfirst'⟩ := h.first.feed hfirst x
  have hfed : Converter.feed t.first x = ((Converter.feed t.first x).1, .ok ready) :=
    Prod.ext rfl hready
  cases ready with
  | false =>
    rw [feed_of_first_not_ready hfed]
    exact ⟨⟨false, rfl⟩, hfirst', h.second⟩
  | true =>
    rw [feed_of_first_ready hfed]
    obtain ⟨hready', hsecond'⟩ := h.second.feed hsecond (Converter.feed t.first x).1.latest
    exact ⟨hready', hfirst', hsecond'⟩

theorem Sound.perform (h : Sound first second step step' t)
    (hfirst : PolyphaseConverter.Sized first step)
    (hsecond : PolyphaseConverter.Sized second step') (call : Call) :
    Sound first second step step' (Converter.perform t call) := by
  cases call with
  | feed x => exact (h.feed hfirst hsecond x).2
  | reset => exact ⟨h.first.perform hfirst .reset, h.second.perform hsecond .reset⟩

theorem faultless_start (hfirst : PolyphaseConverter.Sized first step)
    (hsecond : PolyphaseConverter.Sized second step') :
    Faultless (⟨.start first step, .start second step'⟩ : TwoStageConverter) :=
  faultless_of_keeps (I := Sound first second step step')
    (fun _ call h => h.perform hfirst hsecond call)
    (fun _ x h => (h.feed hfirst hsecond x).1) ⟨hfirst.sound_start, hsecond.sound_start⟩

end

/-! ## Fresh conversions -/

/-- Two fresh stages answer every sample, and the second one has as many outputs as its schedule
gives for the outputs of the first one. -/
theorem fresh_stages {first second : Bank Float32} {step step' : Nat}
    (hfirst : PolyphaseConverter.Sized first step)
    (hsecond : PolyphaseConverter.Sized second step') (xs : List Float32) :
    (∀ a ∈ answers (⟨.start first step, .start second step'⟩ : TwoStageConverter) xs,
        ∃ y, a = .ok y) ∧
      (outputsFrom 0 (answers (⟨.start first step, .start second step'⟩ : TwoStageConverter)
        xs)).length = 1024 * (1024 * xs.length ⌈/⌉ step) ⌈/⌉ step' := by
  refine ⟨(faultless_start hfirst hsecond).exists_ok_of_mem_answers xs, ?_⟩
  obtain ⟨-, houtputs, -⟩ := composed ⟨.start first step, .start second step'⟩ xs
  have hlength := congrArg List.length (map_snd_outputsFrom
    (answers (⟨.start first step, .start second step'⟩ : TwoStageConverter) xs) 0)
  rw [List.length_map] at hlength
  rw [hlength, houtputs, PolyphaseConverter.length_samples_start hsecond,
    PolyphaseConverter.length_samples_start hfirst]

section

variable {c c' : Catalogue} {p : Plan Float} {clock sample : Float} {t : TwoStageConverter}

/-- The banks of an accepted plan have dimensions that the stages can run. -/
theorem of_request_eq_ok (hc : c.Reached) {first second : Entry}
    (h : p.request c = (c', .ok (first, second))) :
    (first.bank.length < historySize ∧ 0 < first.bank.phases) ∧
      (second.bank.length < historySize ∧ 0 < second.bank.phases) := by
  have hfits : ∀ {d : Catalogue} {clock sample : Float} {spec : Spec Float}, d.Reached →
      Spec.checked clock sample p.passband = .ok spec →
      (d.obtain spec).2.bank.length < historySize ∧ 0 < (d.obtain spec).2.bank.phases := by
    intro d clock sample spec hd hspec
    obtain ⟨hlength, hphases⟩ := hd.bank_dimensions spec
    obtain ⟨-, -, ⟨-, hlength'⟩, -⟩ := Spec.of_checked_eq_ok hspec
    exact ⟨hlength ▸ hlength', hphases ▸ spec.phases_pos⟩
  cases hspec : Spec.checked p.clock p.between p.passband with
  | error f =>
    rw [Plan.request_of_first_error c hspec] at h
    cases h
  | ok spec =>
    cases hspec' : Spec.checked p.between p.sample p.passband with
    | error f =>
      rw [Plan.request_of_second_error c hspec hspec'] at h
      cases h
    | ok spec' =>
      rw [Plan.request_of_ok c hspec hspec'] at h
      cases h
      exact ⟨hfits hc hspec, hfits (hc.obtain spec) hspec'⟩

/-- An accepted conversion starts on banks that its stages can run. -/
theorem of_withCatalogue_eq_ok (hc : c.Reached)
    (h : withCatalogue c clock sample = (c', .ok t)) :
    ∃ first second : Bank Float32,
      t = ⟨.ofBank first clock (Plan.rateBetween clock sample),
        .ofBank second (Plan.rateBetween clock sample) sample⟩ ∧
      (first.length < historySize ∧ 0 < first.phases) ∧
      (second.length < historySize ∧ 0 < second.phases) := by
  cases hrates : checkRates clock sample with
  | error e =>
    rw [withCatalogue_of_refused (Plan.ofRates_eq_error hrates)] at h
    cases h
  | ok _ =>
    have hplan := Plan.ofRates_eq_ok hrates
    rcases hrequest : Plan.request _ c with ⟨c'', f | ⟨first, second⟩⟩
    · rw [withCatalogue_eq_error hplan hrequest] at h
      cases h
    · rw [withCatalogue_eq_ok hplan hrequest] at h
      cases h
      exact ⟨first.bank, second.bank, rfl, of_request_eq_ok hc hrequest⟩

/-- The rate between the stages of an accepted conversion to a finite rate is finite, so that both
steps leave room in their registers and no call makes the conversion fail. -/
theorem faultless_of_accepted (hc : c.Reached) (hsample : sample.isFinite = true)
    (h : withCatalogue c clock sample = (c', .ok t)) : Faultless t := by
  obtain ⟨first, second, rfl, ⟨hlength, hphases⟩, hlength', hphases'⟩ :=
    of_withCatalogue_eq_ok hc h
  obtain ⟨-, ⟨spec, hfirst⟩, spec', hsecond⟩ :=
    (withCatalogue_ok_iff c).mp ⟨_, congrArg Prod.snd h⟩
  have hbetween := Spec.clock_finite hsecond hsample
  obtain ⟨hlo, hhi⟩ := Spec.stepOf_bounds hfirst hbetween
  obtain ⟨hlo', hhi'⟩ := Spec.stepOf_bounds hsecond hsample
  obtain ⟨step, hstep⟩ := Int.eq_ofNat_of_zero_le (Int.le_trans (by decide) hlo)
  obtain ⟨step', hstep'⟩ := Int.eq_ofNat_of_zero_le (Int.le_trans (by decide) hlo')
  rw [hstep] at hlo hhi
  rw [hstep'] at hlo' hhi'
  rw [PolyphaseConverter.ofBank, PolyphaseConverter.ofBank, hstep, hstep']
  exact faultless_start ⟨by omega, by omega, hlength, hphases⟩
    ⟨by omega, by omega, hlength', hphases'⟩

/-! ## The composition -/

/-- An accepted conversion is the composition of its stages in every state that samples and resets
lead to: it answers a stream as the second stage answers the outputs of the first one, each output
at the input that the first stage had its sample at, and has the last of them as its most recent
output. A reset makes it as good as new, and a new one never fails and gives as many outputs as the
steps of its stages say. -/
theorem stages_compose (hc : c.Reached) (h : withCatalogue c clock sample = (c', .ok t))
    (calls : List Call) (s : TwoStageConverter) (hs : s = after t calls) (xs : List Float32) :
    (answers s xs =
        chain (answers s.first xs) (answers s.second (samples (answers s.first xs))) ∧
      samples (answers s xs) = samples (answers s.second (samples (answers s.first xs))) ∧
      outputsFrom 0 (answers s xs) =
        outputsAt ((outputsFrom 0 (answers s.first xs)).map Prod.fst)
          (answers s.second (samples (answers s.first xs)))) ∧
    (output s = lastReported 0.0 t calls ∧ Converter.reset s = t) ∧
    ∀ step step' : Nat, t.first.phase.step = step → t.second.phase.step = step' →
      (1024 ≤ step ∧ step ≤ 2147482624) → (1024 ≤ step' ∧ step' ≤ 2147482624) →
      (∀ a ∈ answers t xs, ∃ y, a = .ok y) ∧
      (outputsFrom 0 (answers t xs)).length =
        1024 * (1024 * xs.length ⌈/⌉ step) ⌈/⌉ step' := by
  obtain ⟨first, second, ht, ⟨hlength, hphases⟩, hlength', hphases'⟩ :=
    of_withCatalogue_eq_ok hc h
  refine ⟨?_, ⟨?_, ?_⟩, ?_⟩
  · exact composed s xs
  · rw [hs, output_after (fun _ _ => latest_feed) (fun _ => rfl), ht]
    rfl
  · rw [hs, reset_after, ht]
    rfl
  · rintro step step' hstep hstep' ⟨hlo, hhi⟩ ⟨hlo', hhi'⟩
    have hfresh : t = ⟨.start first step, .start second step'⟩ := by
      rw [ht] at hstep hstep'
      rw [ht, ← hstep, ← hstep']
      rfl
    rw [hfresh]
    exact fresh_stages ⟨hlo, hhi, hlength, hphases⟩ ⟨hlo', hhi', hlength', hphases'⟩ xs

/-- From the clock of a PAL machine to 44.1 kHz. -/
theorem accepted_pal :
    ∃ c' t, withCatalogue Catalogue.empty 985248.0 44100.0 = (c', .ok t) ∧
      t.first.phase.step = 10035 ∧ t.second.phase.step = 2334 := by
  have hfirst : ∃ spec, Plan.firstSpec 985248.0 44100.0 = .ok spec :=
    (Spec.checked_eq_ok_iff (by decide +kernel) (by decide +kernel) (by decide +kernel)).mpr
      (by decide +kernel)
  have hsecond : ∃ spec, Plan.secondSpec 985248.0 44100.0 = .ok spec :=
    (Spec.checked_eq_ok_iff (by decide +kernel) (by decide +kernel) (by decide +kernel)).mpr
      (by decide +kernel)
  obtain ⟨t, ht⟩ :=
    (withCatalogue_ok_iff Catalogue.empty).mpr ⟨by decide, hfirst, hsecond⟩
  have haccepted : withCatalogue Catalogue.empty 985248.0 44100.0 =
      ((withCatalogue Catalogue.empty 985248.0 44100.0).1, .ok t) := by
    rw [← ht]
  refine ⟨_, t, haccepted, ?_⟩
  obtain ⟨first, second, rfl, -⟩ := of_withCatalogue_eq_ok .empty haccepted
  constructor
  · rw [PolyphaseConverter.step_ofBank]
    decide +kernel
  · rw [PolyphaseConverter.step_ofBank]
    decide +kernel

/-- After a sample and a reset, hundred more samples give five outputs. -/
theorem stages_compose_pal :
    ∃ c' t, withCatalogue Catalogue.empty 985248.0 44100.0 = (c', .ok t) ∧
      Converter.reset (after t [.feed 1.0]) = t ∧
      output (after t [.feed 1.0, .reset]) = lastReported 0.0 t [.feed 1.0, .reset] ∧
      (outputsFrom 0 (answers t (List.replicate 100 0.5))).length = 5 := by
  obtain ⟨c', t, haccepted, hstep, hstep'⟩ := accepted_pal
  have hcompose := fun calls =>
    stages_compose .empty haccepted calls _ rfl (List.replicate 100 0.5)
  obtain ⟨-, ⟨-, hreset⟩, hfresh⟩ := hcompose [.feed 1.0]
  obtain ⟨-, ⟨houtput, -⟩, -⟩ := hcompose [.feed 1.0, .reset]
  refine ⟨c', t, haccepted, hreset, houtput, ?_⟩
  rw [(hfresh 10035 2334 hstep hstep' (by decide) (by decide)).2, List.length_replicate]
  rfl

end

end TwoStageConverter

end SignalPath
