import SignalPath.Rate.History

/-!
# The history holds the latest samples

A stream is a function on all integers, so that it has samples before its start. `Holds` says that a
history, whatever place of the ring it has reached, has the latest samples of the stream in a row
before the place where the next sample goes; the mirrored cells are what keeps them in a row.
-/

namespace SignalPath.History

variable {α : Type}

/-- The history holds the samples of the stream `x` before sample number `t`. -/
structure Holds (h : History α) (x : Int → α) (t : Int) : Prop where
  /-- The second copy of the ring repeats the first one. -/
  mirror : ∀ i < historySize, h.cells[i]? = h.cells[i + historySize]?
  /-- The samples before the next one are the latest of the stream. -/
  latest : ∀ j, 1 ≤ j → j ≤ historySize → h.cells[h.next + historySize - j]? = some (x (t - j))

/-- A filled history holds a stream that has not begun. -/
theorem holds_filled {a : α} {x : Int → α} (hx : ∀ t < 0, x t = a) : (filled a).Holds x 0 where
  mirror i hi := by
    rw [filled, Vector.getElem?_replicate, Vector.getElem?_replicate, if_pos (by omega),
      if_pos (by omega)]
  latest j hj hj' := by
    rw [filled, Vector.getElem?_replicate, if_pos (by simp only; omega), hx (0 - j) (by omega)]

/-- The cells after a sample went in: it is found at its place and one ring size further on. -/
theorem getElem?_push (h : History α) (a : α) (i : Nat) :
    (h.push a).cells[i]? =
      if i = h.next ∨ i = h.next + historySize then some a else h.cells[i]? := by
  obtain ⟨cells, next, next_lt⟩ := h
  simp only [push, Vector.getElem?_set]
  by_cases h1 : next + historySize = i
  · simp [h1.symm]
  · by_cases h2 : next = i
    · simp [h2]
    · rw [if_neg h1, if_neg h2, if_neg (by omega)]

theorem next_push (h : History α) (a : α) :
    (h.push a).next = if h.next + 1 = historySize then 0 else h.next + 1 := by
  obtain ⟨cells, next, next_lt⟩ := h
  simp only [push]
  split
  · rename_i hend
    rw [hend, Nat.mod_self]
  · exact Nat.mod_eq_of_lt (by omega)

/-- Taking the next sample of the stream leads from one moment to the next. -/
theorem Holds.push {h : History α} {x : Int → α} {t : Int} (hh : h.Holds x t) :
    (h.push (x t)).Holds x (t + 1) where
  mirror i hi := by
    rw [getElem?_push, getElem?_push, hh.mirror i hi]
    have := h.next_lt
    by_cases hnext : i = h.next
    · rw [if_pos (by omega), if_pos (by omega)]
    · rw [if_neg (by omega), if_neg (by omega)]
  latest j hj hj' := by
    have hlt := h.next_lt
    rw [getElem?_push, next_push]
    by_cases hnew : j = 1
    · rw [if_pos (by split <;> omega)]
      subst hnew
      congr 2
      omega
    · have hold := hh.latest (j - 1) (by omega) (by omega)
      rw [show t - ((j - 1 : Nat) : Int) = t + 1 - j by omega] at hold
      rw [if_neg (by split <;> omega), ← hold]
      -- Where the ring starts anew, the same sample is read from the other copy.
      split
      · rw [show 0 + historySize - j = historySize - j by omega,
          hh.mirror (historySize - j) (by omega)]
        congr 1
        omega
      · congr 1
        omega

/-- A window onto the history is a stretch of the stream. -/
theorem Holds.window?_eq {h : History α} {x : Int → α} {t : Int} (hh : h.Holds x t)
    {length back : Nat} (hfit : length + back ≤ historySize) :
    h.window? length back = some (Array.ofFn fun i : Fin length => x (t - back - length + i)) := by
  have hlt := h.next_lt
  rw [window?, if_pos hfit]
  refine congrArg some (Array.ext_getElem? ?_)
  intro i
  rw [Array.getElem?_extract, Array.getElem?_ofFn]
  by_cases hi : i < length
  · have hold := hh.latest (length + back - i) (by omega) (by omega)
    rw [dif_pos hi, if_pos (by simp; omega), Vector.getElem?_toArray,
      show h.next + historySize - (length + back) + i
        = h.next + historySize - (length + back - i) by omega, hold]
    congr 2
    show t - ((length + back - i : Nat) : Int) = t - back - length + (i : Int)
    omega
  · rw [dif_neg hi, if_neg (by omega)]

end SignalPath.History
