import Mathlib
import SignalPath.Lowpass.Convolution

/-!
# A convolution is a dot product

`convolve` forms all products and then adds them up, lane by lane. A processor with registers of
eight lanes does not see the products as one list. It goes through both lists at once: while there
are sixteen samples left it takes two registers full of each list, then one more if there are eight,
and what remains one by one. `walk?` is that walk. It asks for a part of a list each time, and fails
if the list does not have it.

The walk never fails, and adds up the same products in the same order as `convolve` whatever the
numbers are, rounded ones too. Where the order of a sum does not matter the result is the dot product
of the two lists, up to the end of the shorter one.
-/

namespace SignalPath.Convolution

section

variable {α : Type} {xs ys : List α} {terms : Array α} {start stop : Nat}

/-- The part of a list from `start` up to `stop`, if the list reaches that far. -/
def slice? (xs : List α) (start stop : Nat) : Option (List α) :=
  if start ≤ stop ∧ stop ≤ xs.length then some (xs.extract start stop) else none

/-- A register full of elements from `start` on, if the list has that many. -/
def register? (xs : List α) (start : Nat) : Option (Fin 8 → α) :=
  if h : start + 8 ≤ xs.length then some fun i => xs[start + i] else none

theorem slice?_zero (h : stop ≤ xs.length) : slice? xs 0 stop = some (xs.take stop) := by
  simp [slice?, h]

theorem slice?_length (h : start ≤ xs.length) :
    slice? xs start xs.length = some (xs.drop start) := by
  simp [slice?, h]

theorem register?_of_le (h : start + 8 ≤ xs.length) :
    register? xs start = some fun i : Fin 8 => xs[start + i] :=
  dif_pos h

/-- How far a walk through two lists has come. -/
structure Walk (α : Type) where
  /-- The samples that are left. -/
  samples : List α
  /-- The coefficients that are left. -/
  coefficients : List α
  /-- The sum of the even rounds in each lane. -/
  even : Fin 8 → α
  /-- The sum of the odd rounds in each lane. -/
  odd : Fin 8 → α

/-- The walk without the first elements of both lists. -/
def Walk.drop? (w : Walk α) (count : Nat) : Option (Walk α) := do
  let samples ← slice? w.samples count w.samples.length
  let coefficients ← slice? w.coefficients count w.coefficients.length
  return { w with samples, coefficients }

theorem Walk.drop?_of_le {w : Walk α} {count : Nat} (hleft : count ≤ w.samples.length)
    (hright : count ≤ w.coefficients.length) :
    w.drop? count =
      some ⟨w.samples.drop count, w.coefficients.drop count, w.even, w.odd⟩ := by
  rw [drop?, slice?_length hleft, slice?_length hright]
  rfl

variable [Mul α]

/-- Two lists of one length and the products of their elements. -/
structure Products (xs ys : List α) (terms : Array α) : Prop where
  length_left : xs.length = terms.size
  length_right : ys.length = terms.size
  toList_eq : terms.toList = List.zipWith (· * ·) xs ys

theorem Products.mul_eq (h : Products xs ys terms) {j : Nat} (hj : j < terms.size)
    (hleft : j < xs.length) (hright : j < ys.length) : xs[j] * ys[j] = terms[j] := by
  have hterm : terms.toList[j]? = some (xs[j] * ys[j]) := by
    simp [h.toList_eq, hleft, hright]
  simpa [hj] using hterm.symm

theorem products_take (samples coefficients : Array α) :
    Products (samples.toList.take (min samples.size coefficients.size))
      (coefficients.toList.take (min samples.size coefficients.size))
      (Array.zipWith (· * ·) samples coefficients) where
  length_left := by simp
  length_right := by simp
  toList_eq := by
    rw [Array.toList_zipWith, List.zipWith_eq_zipWith_take_min]
    simp

variable [Add α] {w w' : Walk α}

namespace Walk

/-- Multiplies a register full of samples from `start` on with one of coefficients, and adds the
products to the sums of the lanes. -/
def accumulate? (w : Walk α) (start : Nat) (sums : Fin 8 → α) : Option (Fin 8 → α) := do
  let samples ← register? w.samples start
  let coefficients ← register? w.coefficients start
  return fun i => sums i + samples i * coefficients i

/-- An even round. -/
def evenRound? (w : Walk α) : Option (Walk α) := do
  let even ← w.accumulate? 0 w.even
  { w with even }.drop? 8

/-- An even round and an odd one. -/
def bothRounds? (w : Walk α) : Option (Walk α) := do
  let even ← w.accumulate? 0 w.even
  let odd ← w.accumulate? 8 w.odd
  { w with even, odd }.drop? 16

/-- An even round if there are still samples for one. -/
def lastRound? (w : Walk α) : Option (Walk α) :=
  if 8 ≤ w.samples.length then w.evenRound? else some w

theorem length_lt_of_bothRounds (hlength : 16 ≤ w.samples.length)
    (h : w.bothRounds? = some w') : w'.samples.length < w.samples.length := by
  simp only [bothRounds?, drop?, slice?_length hlength, Option.bind_eq_bind, Option.bind_some,
    Option.bind_eq_some_iff] at h
  obtain ⟨even, -, odd, -, coefficients, -, hw'⟩ := h
  cases hw'
  simp only [List.length_drop]
  omega

/-- Goes on while there are samples for both rounds. -/
def run? (w : Walk α) : Option (Walk α) :=
  if _ : 16 ≤ w.samples.length then
    match _ : w.bothRounds? with
    | some w' => w'.run?
    | none => none
  else some w
termination_by w.samples.length
decreasing_by exact length_lt_of_bothRounds (by assumption) (by assumption)

theorem run?_of_bothRounds (hlength : 16 ≤ w.samples.length) (h : w.bothRounds? = some w') :
    w.run? = w'.run? := by
  rw [run?, dif_pos hlength]
  split
  · rename_i heq
    cases h.symm.trans heq
    rfl
  · rename_i heq
    cases h.symm.trans heq

theorem run?_of_length_lt (hlength : w.samples.length < 16) : w.run? = some w := by
  rw [run?, dif_neg (by omega)]

theorem evenRound?_eq {even : Fin 8 → α} (heven : w.accumulate? 0 w.even = some even)
    (hleft : 8 ≤ w.samples.length) (hright : 8 ≤ w.coefficients.length) :
    w.evenRound? = some ⟨w.samples.drop 8, w.coefficients.drop 8, even, w.odd⟩ := by
  rw [evenRound?, heven]
  exact drop?_of_le hleft hright

theorem bothRounds?_eq {even odd : Fin 8 → α} (heven : w.accumulate? 0 w.even = some even)
    (hodd : w.accumulate? 8 w.odd = some odd) (hleft : 16 ≤ w.samples.length)
    (hright : 16 ≤ w.coefficients.length) :
    w.bothRounds? = some ⟨w.samples.drop 16, w.coefficients.drop 16, even, odd⟩ := by
  rw [bothRounds?, heven, hodd]
  exact drop?_of_le hleft hright

end Walk

/-- Full registers add eight products to the sums of the lanes. -/
theorem Products.accumulate?_eq (h : Products xs ys terms) {a b : Nat}
    (hleft : w.samples = xs.drop a) (hright : w.coefficients = ys.drop a) (sums : Fin 8 → α)
    (hfit : a + b + 8 ≤ terms.size) :
    w.accumulate? b sums = some fun i => sums i + terms[a + b + i] := by
  have hxs := h.length_left
  have hys := h.length_right
  have hsamples : register? w.samples b = some fun i : Fin 8 => xs[a + b + i] := by
    rw [register?_of_le (by simp [hleft]; omega)]
    simp only [hleft, List.getElem_drop, Nat.add_assoc]
  have hcoefficients : register? w.coefficients b = some fun i : Fin 8 => ys[a + b + i] := by
    rw [register?_of_le (by simp [hright]; omega)]
    simp only [hright, List.getElem_drop, Nat.add_assoc]
  rw [Walk.accumulate?, hsamples, hcoefficients]
  refine congrArg some (funext fun i => ?_)
  rw [h.mul_eq]

variable [OfScientific α]

/-- The sum of eight lanes: of the lower four and of the upper four, which are then added. -/
def across (lane : Fin 8 → α) : α :=
  (lane 0 + lane 1 + lane 2 + lane 3) + (lane 4 + lane 5 + lane 6 + lane 7)

namespace Walk

/-- The start of a walk that goes up to the end of the shorter list. -/
def start? (samples coefficients : Array α) : Option (Walk α) := do
  let common := min samples.size coefficients.size
  let samples ← slice? samples.toList 0 common
  let coefficients ← slice? coefficients.toList 0 common
  return { samples, coefficients, even := fun _ => 0.0, odd := fun _ => 0.0 }

/-- Adds up the lanes, and then the products of what is left. -/
def total (w : Walk α) : α :=
  (w.samples.zip w.coefficients).foldl (fun sum p => sum + p.1 * p.2)
    (across fun i => w.even i + w.odd i)

end Walk

/-- The sum of the products of samples and coefficients, by a walk through both lists. -/
def walk? (samples coefficients : Array α) : Option α := do
  let start ← Walk.start? samples coefficients
  let rounds ← start.run?
  let rest ← rounds.lastRound?
  return rest.total

/-! ## What a walk has added up -/

omit [Mul α] in
theorem sum_eq_foldl (terms : Array α) :
    sum terms = (terms.toList.drop (8 * (terms.size / 8))).foldl (· + ·) (lanes terms) := by
  rw [sum, Array.foldl_eq_foldl_extract, ← Array.foldl_toList, Array.toList_extract,
    List.extract_eq_take_drop, List.take_of_length_le (by simp)]

/-- A walk after a number of rounds, of which the even ones come first. -/
def Walk.after (xs ys : List α) (terms : Array α) (rounds : Nat) (h : 8 * rounds ≤ terms.size) :
    Walk α where
  samples := xs.drop (8 * rounds)
  coefficients := ys.drop (8 * rounds)
  even := fun i => every16 terms i ((rounds + 1) / 2) (by omega)
  odd := fun i => every16 terms (8 + i) (rounds / 2) (by omega)

namespace Products

variable (h : Products xs ys terms) {k : Nat}

include h

theorem length_after (rounds : Nat) (hrounds : 8 * rounds ≤ terms.size) :
    (Walk.after xs ys terms rounds hrounds).samples.length = terms.size - 8 * rounds ∧
      (Walk.after xs ys terms rounds hrounds).coefficients.length = terms.size - 8 * rounds := by
  simp [Walk.after, h.length_left, h.length_right]

theorem evenRound?_after (hk : 8 * (2 * k + 1) ≤ terms.size) :
    (Walk.after xs ys terms (2 * k) (by omega)).evenRound? =
      some (Walk.after xs ys terms (2 * k + 1) hk) := by
  obtain ⟨hleft, hright⟩ := h.length_after (2 * k) (by omega)
  have heven : ∀ i, 8 * (2 * k) + 0 + i = 16 * k + i := by omega
  rw [Walk.evenRound?_eq (h.accumulate?_eq rfl rfl _ (by omega)) (by omega) (by omega)]
  simp only [Walk.after, List.drop_drop, heven, ← Nat.mul_succ, Nat.succ_eq_add_one,
    show (2 * k + 1) / 2 = k by omega, show (2 * k + 1 + 1) / 2 = k + 1 by omega,
    show 2 * k / 2 = k by omega, every16]

theorem bothRounds?_after (hk : 8 * (2 * (k + 1)) ≤ terms.size) :
    (Walk.after xs ys terms (2 * k) (by omega)).bothRounds? =
      some (Walk.after xs ys terms (2 * (k + 1)) hk) := by
  obtain ⟨hleft, hright⟩ := h.length_after (2 * k) (by omega)
  have heven : ∀ i, 8 * (2 * k) + 0 + i = 16 * k + i := by omega
  have hodd : ∀ i, 8 * (2 * k) + 8 + i = 16 * k + (8 + i) := by omega
  rw [Walk.bothRounds?_eq (h.accumulate?_eq rfl rfl _ (by omega))
    (h.accumulate?_eq rfl rfl _ (by omega)) (by omega) (by omega)]
  simp only [Walk.after, List.drop_drop, heven, hodd, every16,
    show 8 * (2 * k) + 16 = 8 * (2 * (k + 1)) by omega, show (2 * k + 1) / 2 = k by omega,
    show 2 * k / 2 = k by omega, show (2 * (k + 1) + 1) / 2 = k + 1 by omega,
    show 2 * (k + 1) / 2 = k + 1 by omega]

theorem run?_after (hk : 8 * (2 * k) ≤ terms.size) :
    (Walk.after xs ys terms (2 * k) hk).run? =
      some (Walk.after xs ys terms (2 * (terms.size / 16)) (by omega)) := by
  -- By induction on how many times there are still samples for both rounds.
  obtain ⟨count, hcount⟩ : ∃ count, terms.size / 16 = k + count :=
    Nat.exists_eq_add_of_le (by omega)
  have hleft := (h.length_after (2 * k) hk).1
  induction count generalizing k with
  | zero =>
    rw [Walk.run?_of_length_lt (by omega)]
    simp only [hcount, Nat.add_zero]
  | succ count ih =>
    rw [Walk.run?_of_bothRounds (by omega) (h.bothRounds?_after (by omega)),
      ih (by omega) (by omega) (h.length_after _ _).1]

theorem lastRound?_after :
    (Walk.after xs ys terms (2 * (terms.size / 16)) (by omega)).lastRound? =
      some (Walk.after xs ys terms (terms.size / 8) (by omega)) := by
  have hleft := (h.length_after (2 * (terms.size / 16)) (by omega)).1
  rw [Walk.lastRound?]
  split
  · rw [h.evenRound?_after (by omega)]
    simp only [show terms.size / 8 = 2 * (terms.size / 16) + 1 by omega]
  · simp only [show terms.size / 8 = 2 * (terms.size / 16) by omega]

theorem total_after :
    (Walk.after xs ys terms (terms.size / 8) (by omega)).total = sum terms := by
  have hrest : ((xs.drop (8 * (terms.size / 8))).zip (ys.drop (8 * (terms.size / 8)))).map
      (fun p => p.1 * p.2) = terms.toList.drop (8 * (terms.size / 8)) := by
    rw [h.toList_eq, List.drop_zipWith, List.map_zip_eq_zipWith]
    rfl
  have hlanes : across (fun i => every16 terms i ((terms.size / 8 + 1) / 2) (by omega) +
      every16 terms (8 + i) (terms.size / 8 / 2) (by omega)) = lanes terms := by
    simp only [show (terms.size / 8 + 1) / 2 = (terms.size + 8) / 16 by omega,
      show terms.size / 8 / 2 = terms.size / 16 by omega]
    rfl
  rw [sum_eq_foldl, ← hrest, List.foldl_map, ← hlanes]
  rfl

end Products

theorem start?_eq (samples coefficients : Array α) :
    Walk.start? samples coefficients =
      some (Walk.after (samples.toList.take (min samples.size coefficients.size))
        (coefficients.toList.take (min samples.size coefficients.size))
        (Array.zipWith (· * ·) samples coefficients) 0 (by omega)) := by
  rw [Walk.start?, slice?_zero (by simp), slice?_zero (by simp)]
  rfl

/-- The walk never fails. It adds the same numbers in the same order. -/
theorem walk?_eq_convolve (samples coefficients : Array α) :
    walk? samples coefficients = some (convolve samples coefficients) := by
  have h := products_take samples coefficients
  rw [walk?, start?_eq]
  simp only [Option.bind_eq_bind, Option.bind_some]
  rw [h.run?_after (k := 0) (by omega)]
  simp only [Option.bind_some, h.lastRound?_after, h.total_after]
  rfl

end

/-! ## The order of the products does not matter -/

section

open Finset

theorem sum_octets {M : Type} [AddCommMonoid M] (f : ℕ → M) (m : ℕ) :
    ∑ q ∈ range m, ∑ i ∈ range 8, f (8 * q + i) = ∑ j ∈ range (8 * m), f j := by
  induction m with
  | zero => simp
  | succ m ih => rw [sum_range_succ, ih, Nat.mul_succ, sum_range_add]

theorem sum_even_add_sum_odd {M : Type} [AddCommMonoid M] (f : ℕ → M) (m : ℕ) :
    ∑ k ∈ range ((m + 1) / 2), f (2 * k) + ∑ k ∈ range (m / 2), f (2 * k + 1) =
      ∑ q ∈ range m, f q := by
  induction m with
  | zero => simp
  | succ m ih =>
    rw [sum_range_succ f, ← ih]
    obtain ⟨k, hk | hk⟩ := m.even_or_odd'
    · rw [show (m + 1 + 1) / 2 = k + 1 by omega, show (m + 1) / 2 = k by omega,
        show m / 2 = k by omega, sum_range_succ, hk, add_right_comm]
    · rw [show (m + 1 + 1) / 2 = k + 1 by omega, show (m + 1) / 2 = k + 1 by omega,
        show m / 2 = k by omega, sum_range_succ (fun k => f (2 * k + 1)), hk, add_assoc]

variable {K : Type} [Field K] {terms : Array K}

theorem ofScientific_zero : (0.0 : K) = 0 := by
  rw [← NNRat.cast_ofScientific, show (OfScientific.ofScientific 0 true 1 : ℚ≥0) = 0 by norm_num,
    NNRat.cast_zero]

theorem every16_eq_sum {first count : ℕ} (h : 16 * count + first < terms.size + 16) :
    every16 terms first count h = ∑ k ∈ range count, terms.getD (16 * k + first) 0 := by
  induction count with
  | zero => simp [every16, ofScientific_zero]
  | succ count ih =>
    have hlast : 16 * count + first < terms.size := by omega
    rw [every16, ih, sum_range_succ]
    simp [hlast]

/-- A lane has every eighth of the terms in full registers. -/
theorem lane_eq_sum {i : ℕ} (h : i < 8) :
    lane terms i h = ∑ q ∈ range (terms.size / 8), terms.getD (8 * q + i) 0 := by
  rw [← sum_even_add_sum_odd, lane, every16_eq_sum, every16_eq_sum]
  congr 1
  · rw [show (terms.size / 8 + 1) / 2 = (terms.size + 8) / 16 by omega]
    refine sum_congr rfl fun k _ => ?_
    rw [show 16 * k + i = 8 * (2 * k) + i by omega]
  · rw [show terms.size / 8 / 2 = terms.size / 16 by omega]
    refine sum_congr rfl fun k _ => ?_
    rw [show 16 * k + (8 + i) = 8 * (2 * k + 1) + i by omega]

theorem lanes_eq_sum : lanes terms = ∑ j ∈ range (8 * (terms.size / 8)), terms.getD j 0 := by
  rw [← sum_octets, sum_comm]
  simp only [lanes, lane_eq_sum, sum_range_succ, sum_range_zero]
  ring

theorem foldl_add (init : K) (l : List K) : l.foldl (· + ·) init = init + l.sum := by
  calc l.foldl (· + ·) init
    _ = l.foldl (· + ·) (init + 0) := by rw [add_zero]
    _ = init + l.foldl (· + ·) 0 := List.foldl_assoc
    _ = init + l.sum := by rw [List.sum_eq_foldl]

theorem sum_take {m : ℕ} (h : m ≤ terms.size) :
    (terms.toList.take m).sum = ∑ j ∈ range m, terms.getD j 0 := by
  induction m with
  | zero => simp
  | succ m ih =>
    have hlast : m < terms.size := by omega
    rw [List.sum_take_succ _ _ (by simpa using hlast), ih hlast.le, sum_range_succ]
    simp [hlast]

theorem sum_eq_sum : sum terms = ∑ j ∈ range terms.size, terms.getD j 0 := by
  have hall := List.sum_take_add_sum_drop terms.toList (8 * (terms.size / 8))
  rw [sum_take (by omega)] at hall
  rw [sum_eq_foldl, foldl_add, lanes_eq_sum, hall, ← sum_take le_rfl,
    List.take_of_length_le (by simp)]

/-- The walk through both lists never fails, and its result is that of the convolution, the sum of
the products of samples and coefficients at the same place, up to the end of the shorter list. -/
theorem convolve_is_dot_product (samples coefficients : Array K) :
    walk? samples coefficients = some (convolve samples coefficients) ∧
      convolve samples coefficients =
        ∑ i : Fin (min samples.size coefficients.size),
          samples[i.castLE (Nat.min_le_left _ _)] * coefficients[i.castLE (Nat.min_le_right _ _)] := by
  refine ⟨walk?_eq_convolve samples coefficients, ?_⟩
  rw [convolve, sum_eq_sum, Array.size_zipWith, sum_range]
  refine sum_congr rfl fun i _ => ?_
  have hlt : i.val < min samples.size coefficients.size := i.isLt
  have hterm : i.val < (Array.zipWith (· * ·) samples coefficients).size := by
    rwa [Array.size_zipWith]
  rw [Array.getD_eq_getD_getElem?, Array.getElem?_eq_getElem hterm]
  simp

end

end SignalPath.Convolution
