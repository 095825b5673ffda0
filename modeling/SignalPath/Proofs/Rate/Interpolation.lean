import SignalPath.Proofs.Rate.Filtering
import SignalPath.Rate.Linear

/-!
# A linear converter interpolates its input

Output number `k` of a linear converter lies `k * step` phase units after the start of the stream,
on the line between the two input samples around that place. The sample that the converter keeps
back is always the latest one, also after inputs that give no output; and the output that it shows
is that of the last place that has been passed.
-/

namespace SignalPath

namespace LinearConverter

open PolyphaseConverter (streamOf streamOf_natCast)

/-- The point of a stream at the place of output number `k`, for a step in phase units. -/
def pointAt (x : Int → Float32) (step k : Nat) : Float32 :=
  let place := k * step
  let before := x ((place / 1024 : Nat) - 1)
  let behind := x (place / 1024 : Nat)
  before + ofInt (place % 1024 : Nat) * (behind - before) / 1024.0

/-- The state of a converter before input `m` of a stream. -/
structure Ready (step : Nat) (x : Int → Float32) (m : Nat) (c : LinearConverter) : Prop where
  previous_eq : c.previous = x (m - 1)
  phase_eq : c.phase = Phase.after step m
  /-- The last output that has been due is shown. -/
  latest_eq : ∀ k, Phase.dueBefore step m = k + 1 → c.latest = pointAt x step k

section

variable {step m : Nat} {x : Int → Float32} {c : LinearConverter}

theorem Ready.feed_of_due (hc : Ready step x m c) (hlo : 1024 ≤ step) (hhi : step ≤ 2147482624)
    (hdue : Phase.dueBefore step m * step / 1024 = m) :
    Converter.feed c (x m) =
      (⟨x m, Phase.after step (m + 1), pointAt x step (Phase.dueBefore step m)⟩, .ok true) := by
  have htick := Phase.tick_after hlo hhi m
  rw [← hc.phase_eq, Phase.dueAt, if_pos hdue] at htick
  rw [LinearConverter.feed_of_due htick, between, hc.previous_eq, pointAt, hdue]

theorem Ready.feed_of_not_due (hc : Ready step x m c) (hlo : 1024 ≤ step)
    (hhi : step ≤ 2147482624) (hdue : ¬ Phase.dueBefore step m * step / 1024 = m) :
    Converter.feed c (x m) = (⟨x m, Phase.after step (m + 1), c.latest⟩, .ok false) := by
  have htick := Phase.tick_after hlo hhi m
  rw [← hc.phase_eq, Phase.dueAt, if_neg hdue] at htick
  exact LinearConverter.feed_of_not_due htick

theorem Ready.feed (hc : Ready step x m c) (hlo : 1024 ≤ step) (hhi : step ≤ 2147482624) :
    Ready step x (m + 1) (Converter.feed c (x m)).1 := by
  have hplace : ((m + 1 : Nat) : Int) - 1 = m := by omega
  by_cases hdue : Phase.dueBefore step m * step / 1024 = m
  · rw [hc.feed_of_due hlo hhi hdue]
    refine ⟨by rw [hplace], rfl, ?_⟩
    intro k hk
    rw [Phase.dueBefore_succ hlo, if_pos hdue] at hk
    rw [Nat.succ_inj.mp hk]
  · rw [hc.feed_of_not_due hlo hhi hdue]
    refine ⟨by rw [hplace], rfl, ?_⟩
    intro k hk
    rw [Phase.dueBefore_succ hlo, if_neg hdue] at hk
    exact hc.latest_eq k hk

theorem Ready.next (hc : Ready step x m c) (hlo : 1024 ≤ step) (hhi : step ≤ 2147482624) :
    ∃ c', Converter.next c (x m) = (c', .ok (Converter.scheduled step (pointAt x step) m)) ∧
      Ready step x (m + 1) c' := by
  refine ⟨(Converter.feed c (x m)).1, ?_, hc.feed hlo hhi⟩
  by_cases hdue : Phase.dueBefore step m * step / 1024 = m
  · have hfeed := hc.feed_of_due hlo hhi hdue
    rw [Converter.next_of_ready hfeed, Converter.scheduled_of_due hdue, hfeed]
    rfl
  · have hfeed := hc.feed_of_not_due hlo hhi hdue
    rw [Converter.next_of_not_ready hfeed, Converter.scheduled_of_not_due hdue, hfeed]

theorem ready_start (hstep : 0 < step) (xs : List Float32) :
    Ready step (streamOf xs) 0 (start step) where
  previous_eq := rfl
  phase_eq := Phase.start_eq_after hstep
  latest_eq k hk := by
    rw [Phase.dueBefore_zero hstep] at hk
    cases hk

end

/-- A fresh or reset converter never fails on a stream. Its output number `k` comes with input
number `k * step / 1024` and is the point of the stream at its place. Until the next output comes it
is the one that is shown. -/
theorem outputs_on_line {step : Nat} (hlo : 1024 ≤ step) (hhi : step ≤ 2147482624)
    (s : LinearConverter)
    (hs : s = start step ∨ ∃ d : LinearConverter, d.phase.step = step ∧ s = Converter.reset d)
    (xs : List Float32) :
    (∀ a ∈ Converter.answers s xs, ∃ y, a = .ok y) ∧
    (∀ k, (Converter.outputsFrom 0 (Converter.answers s xs))[k]? =
      if k * step / 1024 < xs.length then
        some (k * step / 1024, pointAt (streamOf xs) step k)
      else none) ∧
    Converter.output s = 0.0 ∧
    ∀ k n, k * step / 1024 < n → n ≤ (k + 1) * step / 1024 → n ≤ xs.length →
      Converter.output (Converter.after s ((xs.take n).map .feed)) =
        pointAt (streamOf xs) step k := by
  have hstart : s = start step := by
    rcases hs with rfl | ⟨d, hd, rfl⟩
    · rfl
    · rw [← hd]
      rfl
  subst hstart
  have hready := ready_start (show 0 < step by omega) xs
  have hstream : ∀ i (hi : i < xs.length), xs[i] = streamOf xs (0 + i : Nat) := by
    intro i hi
    rw [Nat.zero_add]
    exact (streamOf_natCast hi).symm
  obtain ⟨hok, houtputs⟩ := Converter.outputs_of_schedule hlo
    (Converter.answers_eq (x := fun m => streamOf xs (m : Nat))
      (fun m s hs => hs.next hlo hhi) xs 0 _ hready hstream)
  refine ⟨hok, houtputs, rfl, fun k n hlast hnext hn => ?_⟩
  have hafter := Converter.after_feeds (x := fun m => streamOf xs (m : Nat))
    (fun m s hs => hs.feed hlo hhi) (xs.take n) 0 _ hready fun i hi => by
      rw [List.getElem_take]
      exact hstream i (by rw [List.length_take] at hi; omega)
  rw [List.length_take, Nat.min_eq_left hn, Nat.zero_add] at hafter
  rw [output_eq]
  refine hafter.latest_eq k ?_
  have hbefore := (Phase.lt_dueBefore_iff (by omega)).mpr hlast
  have hbehind := mt (Phase.lt_dueBefore_iff (by omega)).mp (Nat.not_lt.mpr hnext)
  omega

/-- At one and a half inputs for each output, the third input gives none. -/
theorem outputs_on_line_1536 :
    (1024 ≤ 1536 ∧ 1536 ≤ 2147482624) ∧
    (Converter.outputsFrom 0 (Converter.answers (start 1536) [100.0, 200.0, 300.0, 400.0]))[2]? =
      some (3, pointAt (streamOf [100.0, 200.0, 300.0, 400.0]) 1536 2) ∧
    Converter.output (Converter.after (start 1536) [.feed 100.0, .feed 200.0, .feed 300.0]) =
      pointAt (streamOf [100.0, 200.0, 300.0, 400.0]) 1536 1 := by
  obtain ⟨-, houtputs, -, hshown⟩ := outputs_on_line (show 1024 ≤ 1536 by decide) (by decide) _
    (Or.inl rfl) [100.0, 200.0, 300.0, 400.0]
  exact ⟨by decide, houtputs 2, hshown 1 3 (by decide) (by decide) (by decide)⟩

end LinearConverter

end SignalPath
