import SignalPath.Rate.TwoStage

/-!
# Which stage of a conversion refuses

A plan is refused by the check of its rates, by its first stage or by its second stage, and the
checks of the stages do not depend on the catalogue. A specification refuses its rates or its
passband only; all other faults are about the size of a filter.
-/

namespace SignalPath

theorem bind_eq_error_iff {ε α β : Type} {x : Except ε α} {k : α → Except ε β} {f : ε} :
    x >>= k = .error f ↔ x = .error f ∨ ∃ a, x = .ok a ∧ k a = .error f := by
  cases x with
  | error g =>
    constructor
    · intro h
      cases h
      exact Or.inl rfl
    · rintro (h | ⟨a, h, -⟩)
      · cases h
        rfl
      · cases h
  | ok a =>
    constructor
    · intro h
      exact Or.inr ⟨a, rfl, h⟩
    · rintro (h | ⟨a', h, h'⟩)
      · cases h
      · cases h
        exact h'

theorem bind_eq_ok_iff {ε α β : Type} {x : Except ε α} {k : α → Except ε β} {b : β} :
    x >>= k = .ok b ↔ ∃ a, x = .ok a ∧ k a = .ok b := by
  cases x with
  | error g => exact iff_of_false (fun h => by cases h) fun ⟨a, h, _⟩ => by cases h
  | ok a =>
    constructor
    · intro h
      exact ⟨a, rfl, h⟩
    · rintro ⟨a', h, h'⟩
      cases h
      exact h'

theorem exists_ok_iff {ε α : Type} {x : Except ε α} :
    (∃ a, x = .ok a) ↔ ∀ f, x ≠ .error f := by
  cases x with
  | error g => exact iff_of_false (fun ⟨a, h⟩ => by cases h) fun h => h g rfl
  | ok a => exact iff_of_true ⟨a, rfl⟩ fun f h => by cases h

namespace Spec

section

variable {α : Type} [Mul α] [Whole α] {n : Int} {ratio : α} {length : { n : Nat // n % 2 = 1 }}

theorem lengthOf_eq_ok_iff : lengthOf n ratio = .ok length ↔
    length.val = (wholeWord (ofInt n * ratio) + 1) / 2 * 2 + 1 ∧
      wholeWord (ofInt n * ratio) < largestWord := by
  unfold lengthOf
  dsimp only
  split
  · rename_i hword
    rw [Except.ok.injEq, Subtype.ext_iff, eq_comm]
    exact ⟨fun h => ⟨h, hword⟩, fun h => h.1⟩
  · rename_i hword
    exact iff_of_false (fun h => by cases h) fun h => hword h.2

variable [Add α] [Sub α] [Div α] [Neg α] [LT α] [DecidableLT α] [OfScientific α]
  {clock sample passband : α}

theorem order_eq_ok_iff : order sample passband = .ok n ↔
    n = crossings sample passband + crossings sample passband % 2 ∧ n ≤ registerMax := by
  unfold order
  dsimp only
  split
  · rename_i heven
    rw [Except.ok.injEq, eq_comm]
    exact ⟨fun h => ⟨h, h ▸ heven⟩, fun h => h.1⟩
  · rename_i heven
    exact iff_of_false (fun h => by cases h) fun h => heven (h.1 ▸ h.2)

variable [LE α] [DecidableLE α] [Transcendental α]

/-- What an accepted specification has passed. -/
theorem checked_eq_ok_iff_derive {spec : Spec α} : checked clock sample passband = .ok spec ↔
    checkRates clock sample = .ok () ∧ (0.0 < passband ∧ passband < sample / 2.0) ∧
      derive clock sample passband = .ok spec ∧ spec.length < historySize := by
  unfold checked
  cases checkRates clock sample with
  | error e => exact iff_of_false (fun h => by cases h) fun h => by cases h.1
  | ok _ =>
    dsimp only
    by_cases hband : 0.0 < passband ∧ passband < sample / 2.0
    · rw [if_pos hband]
      cases derive clock sample passband with
      | error e => exact iff_of_false (fun h => by cases h) fun h => by cases h.2.2.1
      | ok derived =>
        dsimp only
        constructor
        · intro h
          split at h
          · cases h
            exact ⟨rfl, hband, rfl, by assumption⟩
          · cases h
        · rintro ⟨-, -, hspec, hlength⟩
          cases hspec
          exact if_pos hlength
    · rw [if_neg hband]
      exact iff_of_false (fun h => by cases h) fun h => hband h.2.1

end

end Spec

namespace Spec

variable {clock sample passband : Float} {e : RateError}

theorem order_ne_rates : order sample passband ≠ .error (.rates e) := by
  intro h
  unfold order at h
  dsimp only at h
  split at h
  · cases h
  · cases h

theorem lengthOf_ne_rates (n : Int) (ratio : Float) : lengthOf n ratio ≠ .error (.rates e) := by
  intro h
  unfold lengthOf at h
  dsimp only at h
  split at h
  · cases h
  · cases h

theorem ofRatio_ne_rates (ratio : Ratio Float) :
    ofRatio ratio sample passband ≠ .error (.rates e) := by
  intro h
  rcases bind_eq_error_iff.mp h with ho | ⟨n, -, h⟩
  · exact order_ne_rates ho
  · rcases bind_eq_error_iff.mp h with hl | ⟨m, -, h⟩
    · exact lengthOf_ne_rates _ _ hl
    · cases h

/-- A specification refuses what `checkRates` refuses, and a passband outside the band. -/
theorem checked_eq_rates_iff :
    checked clock sample passband = .error (.rates e) ↔
      checkRates clock sample = .error e ∨
        checkRates clock sample = .ok () ∧ e = .passbandOutsideBand ∧
          ¬ (0.0 < passband ∧ passband < sample / 2.0) := by
  unfold checked
  cases hrates : checkRates clock sample with
  | error f =>
    constructor
    · intro h
      cases h
      exact Or.inl rfl
    · rintro (h | ⟨h, -⟩)
      · cases h
        rfl
      · cases h
  | ok u =>
    dsimp only
    by_cases hband : 0.0 < passband ∧ passband < sample / 2.0
    · rw [if_pos hband]
      constructor
      · intro h
        cases hderive : derive clock sample passband with
        | ok spec =>
          rw [hderive] at h
          dsimp only at h
          split at h
          · cases h
          · cases h
        | error f =>
          rw [hderive] at h
          cases h
          exact absurd hderive (ofRatio_ne_rates _)
      · rintro (h | ⟨-, -, h⟩)
        · cases h
        · exact absurd hband h
    · rw [if_neg hband]
      constructor
      · intro h
        cases h
        exact Or.inr ⟨rfl, rfl, hband⟩
      · rintro (h | ⟨-, rfl, -⟩)
        · cases h
        · rfl

/-- The length of the filter for a conversion, whether a converter can run it or not. Only lengths
that do not fit a word are cut off. -/
def lengthFor (clock sample passband : Float) : Nat :=
  let n := crossings sample passband
  (wholeWord (ofInt (n + n % 2) * (clock / sample)) + 1) / 2 * 2 + 1

theorem lengthOf_of_lt {n : Int} {ratio : Float} (h : wholeWord (ofInt n * ratio) < largestWord) :
    lengthOf n ratio = .ok ⟨(wholeWord (ofInt n * ratio) + 1) / 2 * 2 + 1, by omega⟩ := by
  rw [lengthOf]
  exact dif_pos h

theorem lengthOf_of_not_lt {n : Int} {ratio : Float}
    (h : ¬ wholeWord (ofInt n * ratio) < largestWord) : lengthOf n ratio = .error .overflow := by
  rw [lengthOf]
  exact dif_neg h

/-- The order of the filter for each output sample, before its fraction is dropped. -/
def scaledOrder (clock sample passband : Float) : Float :=
  ofInt (crossings sample passband + crossings sample passband % 2) * (clock / sample)

theorem lengthFor_eq : lengthFor clock sample passband =
    (wholeWord (scaledOrder clock sample passband) + 1) / 2 * 2 + 1 :=
  rfl

/-- The dimensions for a conversion, whether a converter can run it or not. -/
def dimensions (clock sample passband : Float) : Spec Float where
  length := lengthFor clock sample passband
  phases := phasesOf (clock / sample)
  ratio := Ratio.of clock sample
  shape := kaiserShape
  length_odd := by
    rw [lengthFor_eq]
    omega
  phases_pos := Nat.lt_of_lt_of_le Nat.zero_lt_one (Nat.le_max_right _ _)

theorem order_of_lt (h : crossings sample passband < registerMax) :
    order sample passband = .ok (crossings sample passband + crossings sample passband % 2) := by
  have hodd : registerMax = 2147483647 := rfl
  rw [order, if_pos (by omega)]

/-- If the number of crossings is not cut off, the scaled order decides. -/
theorem derive_of_lt (h : crossings sample passband < registerMax) :
    derive clock sample passband =
      if wholeWord (scaledOrder clock sample passband) < largestWord then
        .ok (dimensions clock sample passband)
      else .error .overflow := by
  rw [derive, ofRatio, order_of_lt h]
  show lengthOf _ (clock / sample) >>= _ = _
  split
  · rename_i hword
    rw [lengthOf_of_lt hword]
    rfl
  · rename_i hword
    rw [lengthOf_of_not_lt hword]
    rfl

theorem checked_of_derive_ok {spec : Spec Float} (hrates : checkRates clock sample = .ok ())
    (hband : 0.0 < passband ∧ passband < sample / 2.0)
    (hderive : derive clock sample passband = .ok spec) :
    checked clock sample passband =
      if spec.length < historySize then .ok spec else .error (.tooLong spec.length) := by
  rw [checked, hrates]
  dsimp only
  rw [if_pos hband, hderive]

theorem checked_of_derive_error {f : SpecFault} (hrates : checkRates clock sample = .ok ())
    (hband : 0.0 < passband ∧ passband < sample / 2.0)
    (hderive : derive clock sample passband = .error f) :
    checked clock sample passband = .error f := by
  rw [checked, hrates]
  dsimp only
  rw [if_pos hband, hderive]

/-- With rates and a passband that are not refused the length decides. -/
theorem checked_eq_ok_iff (hrates : checkRates clock sample = .ok ())
    (hband : 0.0 < passband ∧ passband < sample / 2.0)
    (hcrossings : crossings sample passband < registerMax) :
    (∃ spec, checked clock sample passband = .ok spec) ↔
      lengthFor clock sample passband < historySize := by
  have hlargest : historySize < largestWord := by decide
  by_cases hword : wholeWord (scaledOrder clock sample passband) < largestWord
  · rw [checked_of_derive_ok hrates hband ((derive_of_lt hcrossings).trans (if_pos hword))]
    by_cases hlength : lengthFor clock sample passband < historySize
    · exact iff_of_true ⟨_, if_pos hlength⟩ hlength
    · refine iff_of_false ?_ hlength
      rintro ⟨spec, h⟩
      have herror := (if_neg hlength).symm.trans h
      cases herror
  · rw [checked_of_derive_error hrates hband ((derive_of_lt hcrossings).trans (if_neg hword))]
    refine iff_of_false ?_ ?_
    · rintro ⟨spec, h⟩
      cases h
    · intro hlength
      rw [lengthFor_eq] at hlength
      omega

end Spec

theorem Catalogue.request_ok (c : Catalogue) {clock sample passband : Float} {spec : Spec Float}
    (h : Spec.checked clock sample passband = .ok spec) :
    c.request clock sample passband = ((c.obtain spec).1, .ok (c.obtain spec).2) := by
  rw [Catalogue.request, h]

theorem Catalogue.request_error (c : Catalogue) {clock sample passband : Float} {f : SpecFault}
    (h : Spec.checked clock sample passband = .error f) :
    c.request clock sample passband = (c, .error f) := by
  rw [Catalogue.request, h]

section

variable {p : Plan Float} {f : SpecFault} {first second : Spec Float}

theorem Plan.request_of_first_error (c : Catalogue)
    (h : Spec.checked p.clock p.between p.passband = .error f) : p.request c = (c, .error f) := by
  rw [Plan.request, c.request_error h]

theorem Plan.request_of_second_error (c : Catalogue)
    (h : Spec.checked p.clock p.between p.passband = .ok first)
    (h' : Spec.checked p.between p.sample p.passband = .error f) :
    p.request c = ((c.obtain first).1, .error f) := by
  rw [Plan.request, c.request_ok h]
  dsimp only
  rw [Catalogue.request_error _ h']

theorem Plan.request_of_ok (c : Catalogue)
    (h : Spec.checked p.clock p.between p.passband = .ok first)
    (h' : Spec.checked p.between p.sample p.passband = .ok second) :
    p.request c = (((c.obtain first).1.obtain second).1,
      .ok ((c.obtain first).2, ((c.obtain first).1.obtain second).2)) := by
  rw [Plan.request, c.request_ok h]
  dsimp only
  rw [Catalogue.request_ok _ h']

end

/-- A plan fails in its first stage, or in its second stage after the first. -/
theorem Plan.request_error_iff (p : Plan Float) (c : Catalogue) (f : SpecFault) :
    (p.request c).2 = .error f ↔
      Spec.checked p.clock p.between p.passband = .error f ∨
        (∃ spec, Spec.checked p.clock p.between p.passband = .ok spec) ∧
          Spec.checked p.between p.sample p.passband = .error f := by
  cases hfirst : Spec.checked p.clock p.between p.passband with
  | error g =>
    rw [request_of_first_error c hfirst]
    constructor
    · intro h
      cases h
      exact Or.inl rfl
    · rintro (h | ⟨⟨spec, h⟩, -⟩)
      · cases h
        rfl
      · cases h
  | ok spec =>
    cases hsecond : Spec.checked p.between p.sample p.passband with
    | error g =>
      rw [request_of_second_error c hfirst hsecond]
      constructor
      · intro h
        cases h
        exact Or.inr ⟨⟨spec, rfl⟩, rfl⟩
      · rintro (h | ⟨-, h⟩)
        · cases h
        · cases h
          rfl
    | ok spec' =>
      rw [request_of_ok c hfirst hsecond]
      constructor
      · intro h
        cases h
      · rintro (h | ⟨-, h⟩)
        · cases h
        · cases h

theorem Plan.ofRates_eq_error {clock sample : Float} {e : RateError}
    (h : checkRates clock sample = .error e) : ofRates clock sample = .error e := by
  rw [ofRates, h]
  rfl

theorem Plan.ofRates_eq_ok {clock sample : Float} (h : checkRates clock sample = .ok ()) :
    ofRates clock sample = .ok ⟨clock, rateBetween clock sample, sample, passbandFor sample⟩ := by
  rw [ofRates, h]
  rfl

/-- The dimensions of the first stage of a plan. -/
def Plan.firstSpec (clock sample : Float) : Except SpecFault (Spec Float) :=
  Spec.checked clock (rateBetween clock sample) (passbandFor sample)

/-- The dimensions of the second stage. -/
def Plan.secondSpec (clock sample : Float) : Except SpecFault (Spec Float) :=
  Spec.checked (rateBetween clock sample) sample (passbandFor sample)

theorem Plan.firstSpec_of_ok {clock sample : Float} {p : Plan Float}
    (h : ofRates clock sample = .ok p) :
    firstSpec clock sample = Spec.checked p.clock p.between p.passband := by
  cases hrates : checkRates clock sample with
  | error e =>
    rw [ofRates_eq_error hrates] at h
    cases h
  | ok _ =>
    rw [ofRates_eq_ok hrates] at h
    cases h
    rfl

namespace TwoStageConverter

variable {clock sample : Float}

theorem withCatalogue_of_error (c : Catalogue) {e : RateError}
    (h : checkRates clock sample = .error e) :
    (withCatalogue c clock sample).2 = .error (.rates e) := by
  rw [withCatalogue_of_refused (Plan.ofRates_eq_error h)]

theorem withCatalogue_of_ok (c : Catalogue) (f : SpecFault) {p : Plan Float}
    (h : Plan.ofRates clock sample = .ok p) :
    (withCatalogue c clock sample).2 = .error f ↔ (p.request c).2 = .error f := by
  rcases hrequest : p.request c with ⟨c', e | ⟨first, second⟩⟩
  · rw [withCatalogue_eq_error h hrequest]
    constructor
    · intro heq
      cases heq
      rfl
    · intro heq
      cases heq
      rfl
  · rw [withCatalogue_eq_ok h hrequest]
    exact iff_of_false (fun heq => by cases heq) fun heq => by cases heq

/-- A conversion in two stages fails in the check of its rates or in a stage of its plan. -/
theorem withCatalogue_error_iff (c : Catalogue) (f : SpecFault) :
    (withCatalogue c clock sample).2 = .error f ↔
      (∃ e, checkRates clock sample = .error e ∧ f = .rates e) ∨
        checkRates clock sample = .ok () ∧
          (Plan.firstSpec clock sample = .error f ∨
            (∃ spec, Plan.firstSpec clock sample = .ok spec) ∧
              Plan.secondSpec clock sample = .error f) := by
  cases hrates : checkRates clock sample with
  | error e =>
    rw [withCatalogue_of_error c hrates]
    constructor
    · intro h
      cases h
      exact Or.inl ⟨e, rfl, rfl⟩
    · rintro (⟨e', h, rfl⟩ | ⟨h, -⟩)
      · cases h
        rfl
      · cases h
  | ok u =>
    rw [withCatalogue_of_ok c f (Plan.ofRates_eq_ok hrates), Plan.request_error_iff]
    constructor
    · intro h
      exact Or.inr ⟨rfl, h⟩
    · rintro (⟨e, h, -⟩ | ⟨-, h⟩)
      · cases h
      · exact h

theorem withCatalogue_ok_iff (c : Catalogue) :
    (∃ t, (withCatalogue c clock sample).2 = .ok t) ↔
      checkRates clock sample = .ok () ∧
        (∃ spec, Plan.firstSpec clock sample = .ok spec) ∧
        ∃ spec, Plan.secondSpec clock sample = .ok spec := by
  rw [exists_ok_iff]
  constructor
  · intro h
    obtain ⟨u, hrates⟩ := exists_ok_iff.mpr fun e he =>
      h (.rates e) ((withCatalogue_error_iff c _).mpr (Or.inl ⟨e, he, rfl⟩))
    have hfirst := exists_ok_iff.mpr fun f hf =>
      h f ((withCatalogue_error_iff c f).mpr (Or.inr ⟨hrates, Or.inl hf⟩))
    exact ⟨hrates, hfirst, exists_ok_iff.mpr fun f hf =>
      h f ((withCatalogue_error_iff c f).mpr (Or.inr ⟨hrates, Or.inr ⟨hfirst, hf⟩⟩))⟩
  · rintro ⟨hrates, hfirst, hsecond⟩ f hf
    rcases (withCatalogue_error_iff c f).mp hf with ⟨e, herror, -⟩ | ⟨-, herror | ⟨-, herror⟩⟩
    · rw [hrates] at herror
      cases herror
    · exact exists_ok_iff.mp hfirst f herror
    · exact exists_ok_iff.mp hsecond f herror

end TwoStageConverter

end SignalPath
