import SignalPath.Proofs.Rate.Schedule
import SignalPath.Rate.Converter

/-!
# Runs of a converter

A converter is fed a list of samples and answers each of them. `answers_eq` turns an invariant that
one sample preserves into the answers of a whole run, and `outputs_of_schedule` says where the
outputs are if these answers keep to the schedule of a step. A caller may also reset the converter
between samples; `after_keeps` is the induction over what a caller does, and `Faultless` says that
none of it makes the converter fail.
-/

namespace SignalPath.Converter

variable {σ : Type} [Converter σ]

/-- The answers to samples in order. A fault does not end the run. -/
def answers (s : σ) : List Float32 → List (Except ConverterFault (Option Float32))
  | [] => []
  | x :: xs => (next s x).2 :: answers (next s x).1 xs

/-- The output samples among the answers, each with the number of the input that it came with. The
first answer is that to input `m`. -/
def outputsFrom (m : Nat) : List (Except ConverterFault (Option Float32)) → List (Nat × Float32)
  | [] => []
  | .ok (some y) :: rest => (m, y) :: outputsFrom (m + 1) rest
  | .ok none :: rest => outputsFrom (m + 1) rest
  | .error _ :: rest => outputsFrom (m + 1) rest

/-- If an invariant `I m` of the state before input `m` fixes the answer to that input and leads to
the invariant before the next one, it fixes the answers to a whole run. -/
theorem answers_eq {I : Nat → σ → Prop} {x : Nat → Float32} {answer : Nat → Option Float32}
    (hstep : ∀ m s, I m s → ∃ s', next s (x m) = (s', .ok (answer m)) ∧ I (m + 1) s') :
    ∀ (xs : List Float32) (m : Nat) (s : σ), I m s → (∀ i (hi : i < xs.length), xs[i] = x (m + i)) →
      answers s xs = (List.range' m xs.length).map fun m => .ok (answer m) := by
  intro xs
  induction xs with
  | nil => intro m s _ _; rfl
  | cons a xs ih =>
    intro m s hs hx
    obtain ⟨s', hnext, hs'⟩ := hstep m s hs
    have ha : a = x m := hx 0 (by simp)
    have hrest : ∀ i (hi : i < xs.length), xs[i] = x (m + 1 + i) := by
      intro i hi
      rw [Nat.add_assoc, Nat.add_comm 1 i]
      exact hx (i + 1) (by simpa using hi)
    rw [answers, ha, hnext, ih (m + 1) s' hs' hrest]
    rfl

@[simp]
theorem length_answers (s : σ) (xs : List Float32) : (answers s xs).length = xs.length := by
  induction xs generalizing s with
  | nil => rfl
  | cons x xs ih => simp [answers, ih]

theorem outputsFrom_map_ok (answer : Nat → Option Float32) (n : Nat) : ∀ m,
    outputsFrom m ((List.range' m n).map fun m => .ok (answer m)) =
      (List.range' m n).filterMap fun m => (answer m).map (m, ·) := by
  induction n with
  | zero => intro m; rfl
  | succ n ih =>
    intro m
    rw [List.range'_succ, List.map_cons, List.filterMap_cons]
    cases h : answer m with
    | none => rw [outputsFrom, ih (m + 1)]; rfl
    | some y => rw [outputsFrom, ih (m + 1)]; rfl

/-! ## Answers on a schedule -/

/-- The answer to input `m` on the schedule of a step: the next output, if it is due. Output number
`k` is `f k`. -/
def scheduled (step : Nat) (f : Nat → Float32) (m : Nat) : Option Float32 :=
  if Phase.dueBefore step m * step / 1024 = m then some (f (Phase.dueBefore step m)) else none

section

variable {step : Nat} {f : Nat → Float32} {as : List (Except ConverterFault (Option Float32))}
  {n : Nat}

theorem scheduled_of_due {m : Nat} (h : Phase.dueBefore step m * step / 1024 = m) :
    scheduled step f m = some (f (Phase.dueBefore step m)) :=
  if_pos h

theorem scheduled_of_not_due {m : Nat} (h : ¬ Phase.dueBefore step m * step / 1024 = m) :
    scheduled step f m = none :=
  if_neg h

/-- There is no fault among answers on a schedule. -/
theorem exists_ok_of_schedule (h : as = (List.range' 0 n).map fun m => .ok (scheduled step f m)) :
    ∀ a ∈ as, ∃ y, a = .ok y := by
  intro a ha
  rw [h] at ha
  obtain ⟨m, -, rfl⟩ := List.mem_map.mp ha
  exact ⟨_, rfl⟩

theorem outputsFrom_of_schedule (hlo : 1024 ≤ step)
    (h : as = (List.range' 0 n).map fun m => .ok (scheduled step f m)) :
    outputsFrom 0 as =
      (List.range (Phase.dueBefore step n)).map fun k => (k * step / 1024, f k) := by
  rw [h, outputsFrom_map_ok, ← Phase.filterMap_due hlo, ← List.range_eq_range']
  congr 1
  funext m
  unfold scheduled
  split <;> rfl

/-- If the answers keep to the schedule of a step, there is no fault among them, and output number
`k` comes with input number `k * step / 1024`. -/
theorem outputs_of_schedule (hlo : 1024 ≤ step)
    (h : as = (List.range' 0 n).map fun m => .ok (scheduled step f m)) :
    (∀ a ∈ as, ∃ y, a = .ok y) ∧
    ∀ k, (outputsFrom 0 as)[k]? =
      if k * step / 1024 < n then some (k * step / 1024, f k) else none := by
  refine ⟨exists_ok_of_schedule h, ?_⟩
  intro k
  rw [outputsFrom_of_schedule hlo h]
  by_cases hk : k * step / 1024 < n
  · have hplace := (Phase.lt_dueBefore_iff (by omega)).mpr hk
    simp [hk, hplace]
  · have hplace := mt (Phase.lt_dueBefore_iff (by omega)).mp hk
    simp [hk, hplace]

end

/-! ## Samples and resets -/

/-- What a caller does with a converter. -/
inductive Call where
  | feed (x : Float32)
  | reset

/-- The converter after a call. A fault leaves what was stored when it arose. -/
def perform (s : σ) : Call → σ
  | .feed x => (feed s x).1
  | .reset => reset s

/-- The converter after calls in order. -/
def after (s : σ) (calls : List Call) : σ := calls.foldl perform s

theorem after_feeds_cons (s : σ) (x : Float32) (xs : List Float32) :
    after s ((x :: xs).map .feed) = after (next s x).1 (xs.map .feed) := by
  rw [fst_next]
  rfl

/-- An invariant that one sample of a stream preserves holds after a run of samples. -/
theorem after_feeds {I : Nat → σ → Prop} {x : Nat → Float32}
    (hfeed : ∀ m s, I m s → I (m + 1) (feed s (x m)).1) :
    ∀ (xs : List Float32) (m : Nat) (s : σ), I m s → (∀ i (hi : i < xs.length), xs[i] = x (m + i)) →
      I (m + xs.length) (after s (xs.map .feed)) := by
  intro xs
  induction xs with
  | nil => intro m s hs _; exact hs
  | cons a xs ih =>
    intro m s hs hx
    obtain rfl : a = x m := hx 0 (by simp)
    have hrest : ∀ i (hi : i < xs.length), xs[i] = x (m + 1 + i) := by
      intro i hi
      rw [Nat.add_assoc, Nat.add_comm 1 i]
      exact hx (i + 1) (by simpa using hi)
    rw [List.length_cons, Nat.add_comm xs.length, ← Nat.add_assoc]
    exact ih (m + 1) _ (hfeed m s hs) hrest

/-- No sample that comes after any calls makes the converter fail. -/
def Faultless (s : σ) : Prop := ∀ calls x, ∃ ready, (feed (after s calls) x).2 = .ok ready

/-- What every call keeps holds after any calls. -/
theorem after_keeps {I : σ → Prop} (hcall : ∀ s call, I s → I (perform s call))
    (calls : List Call) : ∀ s, I s → I (after s calls) := by
  induction calls with
  | nil => intro s hs; exact hs
  | cons call calls ih => intro s hs; exact ih (perform s call) (hcall s call hs)

/-- Under an invariant that excludes faults there are none. -/
theorem faultless_of_keeps {I : σ → Prop} (hcall : ∀ s call, I s → I (perform s call))
    (hfeed : ∀ s x, I s → ∃ ready, (feed s x).2 = .ok ready) {s : σ} (hs : I s) : Faultless s :=
  fun calls x => hfeed _ x (after_keeps hcall calls s hs)

theorem Faultless.feed {s : σ} (h : Faultless s) (x : Float32) :
    Faultless (Converter.feed s x).1 :=
  fun calls y => h (.feed x :: calls) y

theorem Faultless.exists_answer {s : σ} (h : Faultless s) (x : Float32) :
    ∃ y, (next s x).2 = .ok y := by
  obtain ⟨ready, hready⟩ : ∃ ready, (Converter.feed s x).2 = .ok ready := h [] x
  have hfeed : Converter.feed s x = ((Converter.feed s x).1, .ok ready) := Prod.ext rfl hready
  cases ready with
  | false => exact ⟨_, congrArg Prod.snd (next_of_not_ready hfeed)⟩
  | true => exact ⟨_, congrArg Prod.snd (next_of_ready hfeed)⟩

/-- There is no fault among the answers of a converter that never fails. -/
theorem Faultless.exists_ok_of_mem_answers {s : σ} (h : Faultless s) (xs : List Float32) :
    ∀ a ∈ answers s xs, ∃ y, a = .ok y := by
  induction xs generalizing s with
  | nil => simp [answers]
  | cons x xs ih =>
    rw [answers, List.forall_mem_cons, fst_next]
    exact ⟨h.exists_answer x, ih (h.feed x)⟩

end SignalPath.Converter
