import SignalPath.Proofs.Rate.Answers
import SignalPath.Proofs.Rate.Schedule
import SignalPath.Proofs.Rate.Window
import SignalPath.Rate.Polyphase

/-!
# What a polyphase converter computes

Over a stream without end in either direction, the filter bank is one long filter: place `p` of the
filter, counted in phases from the start of the stream, is row `p % phases` on the samples before
sample `p / phases`. An output interpolates between the two places around it. A converter with its
ring, its phase and its step from the last row to the first computes just that.
-/

namespace SignalPath.PolyphaseConverter

/-- The stream that begins with some samples and is silent before them. -/
def streamOf (xs : List Float32) (t : Int) : Float32 :=
  if 0 ≤ t then xs.getD t.toNat 0.0 else 0.0

/-- The response of the filter at place `p` of a stream. -/
def placeResponse (bank : Bank Float32) (hphases : 0 < bank.phases) (x : Int → Float32)
    (p : Nat) : Float32 :=
  let samples := Array.ofFn fun i : Fin bank.length =>
    x ((p / bank.phases : Nat) - (bank.length : Int) + i)
  let row := bank.rows.get ⟨p % bank.phases, Nat.mod_lt p hphases⟩
  Convolution.convolve samples row.toArray

/-- Output number `k` of a stream, for a step in phase units: it lies `k * step` units after the
start of the stream, and interpolates between the places of the filter below and above it. -/
def outputAt (bank : Bank Float32) (hphases : 0 < bank.phases) (x : Int → Float32)
    (step k : Nat) : Float32 :=
  let place := k * step * bank.phases
  let below := placeResponse bank hphases x (place / 1024)
  let above := placeResponse bank hphases x (place / 1024 + 1)
  below + ofInt (place % 1024 : Nat) * (above - below) / 1024.0

section

variable {bank : Bank Float32} {history : History Float32} {x : Int → Float32} {m : Nat}

/-- A row of the bank, on the samples before the newest one `x m`. -/
theorem response_of_lt (hphases : 0 < bank.phases) (hlength : bank.length < historySize)
    (hh : history.Holds x (m + 1 : Nat)) {row : Nat} (hrow : row < bank.phases) :
    response bank history row = .ok (placeResponse bank hphases x (m * bank.phases + row)) := by
  have hdiv : (m * bank.phases + row) / bank.phases = m := by
    rw [Nat.mul_comm, Nat.mul_add_div hphases, Nat.div_eq_of_lt hrow, Nat.add_zero]
  have hmod : (m * bank.phases + row) % bank.phases = row := by
    rw [Nat.mul_add_mod_self_right, Nat.mod_eq_of_lt hrow]
  have hwindow := hh.window?_eq (show bank.length + 1 ≤ historySize by omega)
  rw [response_of_ne_phases (by omega) hwindow (Bank.row?_natCast hrow)]
  simp only [placeResponse, hdiv, hmod]
  congr 4
  funext i
  congr 1
  push_cast
  omega

/-- The row after the last one is the first row on the samples up to the newest one. -/
theorem response_first_row (hphases : 0 < bank.phases) (hlength : bank.length < historySize)
    (hh : history.Holds x (m + 1 : Nat)) :
    response bank history bank.phases =
      .ok (placeResponse bank hphases x (m * bank.phases + bank.phases)) := by
  have hdiv : (m * bank.phases + bank.phases) / bank.phases = m + 1 := by
    rw [← Nat.succ_mul, Nat.mul_div_cancel _ hphases]
  have hmod : (m * bank.phases + bank.phases) % bank.phases = 0 := by
    rw [← Nat.succ_mul, Nat.mul_mod_left]
  have hwindow := hh.window?_eq (show bank.length + 0 ≤ historySize by omega)
  rw [response_phases hwindow (Bank.row?_natCast hphases)]
  simp only [placeResponse, hdiv, hmod]
  congr 4

/-- An interpolation between two rows is one between two places of the long filter. -/
theorem interpolate_eq (hphases : 0 < bank.phases) (hlength : bank.length < historySize)
    (hh : history.Holds x (m + 1 : Nat)) {step k : Nat} (hk : k * step / 1024 = m) :
    interpolate bank history (k * step % 1024 : Nat) = .ok (outputAt bank hphases x step k) := by
  have hplace : k * step * bank.phases =
      1024 * (m * bank.phases) + k * step % 1024 * bank.phases := by
    rw [← Nat.mul_assoc, ← Nat.add_mul, ← hk, Nat.div_add_mod]
  have hrow : k * step % 1024 * bank.phases / 1024 < bank.phases := by
    rw [Nat.div_lt_iff_lt_mul (by decide), Nat.mul_comm]
    exact Nat.mul_lt_mul_of_pos_left (Nat.mod_lt _ (by decide)) hphases
  have hdiv : k * step * bank.phases / 1024 =
      m * bank.phases + k * step % 1024 * bank.phases / 1024 := by
    rw [hplace, Nat.mul_add_div (by decide)]
  have hmod : k * step * bank.phases % 1024 = k * step % 1024 * bank.phases % 1024 := by
    rw [hplace, Nat.mul_add_mod]
  simp only [outputAt, hdiv, hmod]
  generalize hs : k * step % 1024 * bank.phases = place at hrow
  have hbelow := response_of_lt hphases hlength hh hrow
  -- The row above is one of the bank, or stands for the first one on newer samples.
  have habove : response bank history ((place / 1024 : Nat) + 1 : Nat) =
      .ok (placeResponse bank hphases x (m * bank.phases + place / 1024 + 1)) := by
    rcases Nat.lt_or_eq_of_le (Nat.succ_le_of_lt hrow) with h | h
    · exact response_of_lt hphases hlength hh h
    · rw [Nat.add_assoc, ← Nat.succ_eq_add_one, h]
      exact response_first_row hphases hlength hh
  have hplace' : ((k * step % 1024 : Nat) : Int) * bank.phases = (place : Nat) := by
    rw [← hs, Int.natCast_mul]
  have hquot : ((k * step % 1024 : Nat) : Int) * bank.phases / phaseUnit =
      (place / 1024 : Nat) := by
    rw [hplace']
    rfl
  have hrest : ((k * step % 1024 : Nat) : Int) * bank.phases % phaseUnit =
      (place % 1024 : Nat) := by
    rw [hplace']
    rfl
  rw [← hquot] at hbelow
  rw [Int.natCast_add, ← hquot] at habove
  rw [interpolate_eq_ok hbelow habove, hrest]

end

/-! ## Whole runs -/

/-- The state of a converter before input `m` of a stream. -/
structure Ready (bank : Bank Float32) (step : Nat) (x : Int → Float32) (m : Nat)
    (s : PolyphaseConverter) : Prop where
  /-- The filter bank never changes. -/
  bank_eq : s.bank = bank
  /-- The history has seen the stream up to the input. -/
  holds : s.history.Holds x m
  /-- The phase keeps to the schedule. -/
  phase_eq : s.phase = Phase.after step m

section

variable {bank : Bank Float32} {step m : Nat} {x : Int → Float32} {c : PolyphaseConverter}

theorem Ready.feed (hc : Ready bank step x m c) (hlo : 1024 ≤ step) (hhi : step ≤ 2147482624) :
    Ready bank step x (m + 1) (Converter.feed c (x m)).1 where
  bank_eq := by rw [bank_feed, hc.bank_eq]
  holds := by
    rw [history_feed]
    exact hc.holds.push
  phase_eq := by rw [phase_feed, hc.phase_eq, Phase.tick_after hlo hhi]

/-- One sample of the stream is answered as the filter demands, and the converter is ready for the
next one. -/
theorem Ready.next (hc : Ready bank step x m c) (hphases : 0 < bank.phases)
    (hlength : bank.length < historySize) (hlo : 1024 ≤ step) (hhi : step ≤ 2147482624) :
    ∃ c', Converter.next c (x m) =
        (c', .ok (Converter.scheduled step (outputAt bank hphases x step) m)) ∧
      Ready bank step x (m + 1) c' := by
  obtain rfl : c.bank = bank := hc.bank_eq
  have htick := Phase.tick_after hlo hhi m
  rw [← hc.phase_eq] at htick
  refine ⟨(Converter.feed c (x m)).1, ?_, hc.feed hlo hhi⟩
  by_cases hdue : Phase.dueBefore step m * step / 1024 = m
  · have hpush : (c.history.push (x m)).Holds x (m + 1 : Nat) := hc.holds.push
    rw [Phase.dueAt, if_pos hdue] at htick
    have hfeed := feed_of_due htick (interpolate_eq hphases hlength hpush hdue)
    rw [Converter.next_of_ready hfeed, Converter.scheduled_of_due hdue, hfeed]
    rfl
  · rw [Phase.dueAt, if_neg hdue] at htick
    have hfeed := feed_of_not_due (x := x m) htick
    rw [Converter.next_of_not_ready hfeed, Converter.scheduled_of_not_due hdue, hfeed]

end

variable {bank : Bank Float32} {step : Nat}

/-- A fresh converter is ready for the first sample of any stream that is silent before it. -/
theorem ready_start (hstep : 0 < step) (xs : List Float32) :
    Ready bank step (streamOf xs) 0 (start bank step) where
  bank_eq := rfl
  holds := History.holds_filled fun t ht => if_neg (by omega)
  phase_eq := Phase.start_eq_after hstep

theorem streamOf_natCast {xs : List Float32} {i : Nat} (hi : i < xs.length) :
    streamOf xs i = xs[i] := by
  rw [streamOf, if_pos (by omega), Int.toNat_natCast, List.getD_eq_getElem?_getD,
    List.getElem?_eq_getElem hi]
  rfl

/-- The answers to a whole stream, on a fresh converter. -/
theorem answers_start (hphases : 0 < bank.phases) (hlength : bank.length < historySize)
    (hlo : 1024 ≤ step) (hhi : step ≤ 2147482624) (xs : List Float32) :
    Converter.answers (start bank step) xs =
      (List.range' 0 xs.length).map fun m =>
        .ok (Converter.scheduled step (outputAt bank hphases (streamOf xs) step) m) := by
  refine Converter.answers_eq (I := Ready bank step (streamOf xs))
    (x := fun m => streamOf xs (m : Nat)) (fun m c hc => hc.next hphases hlength hlo hhi) xs 0 _
    (ready_start (by omega) xs) ?_
  intro i hi
  rw [Nat.zero_add]
  exact (streamOf_natCast hi).symm

/-- A fresh or reset converter never fails on a stream. Its output number `k` comes with input
number `k * step / 1024`, and is the long filter's. -/
theorem outputs_eq_filter (hphases : 0 < bank.phases) (hlength : bank.length < historySize)
    (hlo : 1024 ≤ step) (hhi : step ≤ 2147482624) (s : PolyphaseConverter)
    (hs : s = start bank step ∨
      ∃ d : PolyphaseConverter, d.bank = bank ∧ d.phase.step = step ∧ s = Converter.reset d)
    (xs : List Float32) :
    (∀ a ∈ Converter.answers s xs, ∃ y, a = .ok y) ∧
    ∀ k, (Converter.outputsFrom 0 (Converter.answers s xs))[k]? =
      if k * step / 1024 < xs.length then
        some (k * step / 1024, outputAt bank hphases (streamOf xs) step k)
      else none := by
  have hstart : s = start bank step := by
    rcases hs with rfl | ⟨d, rfl, hd, rfl⟩
    · rfl
    · rw [reset_eq, hd]
  rw [hstart]
  exact Converter.outputs_of_schedule hlo (answers_start hphases hlength hlo hhi xs)

/-- Two rows of three coefficients, at a step of two and a half inputs. -/
def halfBand : Bank Float32 where
  length := 3
  phases := 2
  rows := #v[#v[0.25, 0.5, 0.25], #v[0.0, 0.5, 0.5]]

theorem outputs_halfBand :
    (∀ a ∈ Converter.answers (start halfBand 2560) [1.0, 2.0, 3.0, 4.0], ∃ y, a = .ok y) ∧
    (Converter.outputsFrom 0 (Converter.answers (start halfBand 2560) [1.0, 2.0, 3.0, 4.0]))[1]? =
      some (2, outputAt halfBand (by decide) (streamOf [1.0, 2.0, 3.0, 4.0]) 2560 1) := by
  obtain ⟨hok, houtputs⟩ := outputs_eq_filter (show 0 < halfBand.phases by decide)
    (show halfBand.length < historySize by decide) (show 1024 ≤ 2560 by decide) (by decide) _
    (Or.inl rfl) [1.0, 2.0, 3.0, 4.0]
  exact ⟨hok, houtputs 1⟩

end SignalPath.PolyphaseConverter
