import SignalPath.Lowpass.Spec

/-!
# History of input samples

A converter looks back at its latest input samples. They are kept in a ring that holds every sample
twice, one ring size apart, so that the latest samples always lie in a row somewhere.
-/

namespace SignalPath

/-- The latest samples of a stream. -/
structure History (α : Type) where
  /-- The ring and its copy behind it. -/
  cells : Vector α (2 * historySize)
  /-- Where the next sample goes. -/
  next : Nat
  /-- The next sample goes into the first copy of the ring. -/
  next_lt : next < historySize

namespace History

variable {α : Type}

/-- A history in which every sample has one value. -/
def filled (x : α) : History α := ⟨Vector.replicate _ x, 0, by decide⟩

/-- Takes a sample and forgets the oldest one. -/
def push : History α → α → History α
  | ⟨cells, next, next_lt⟩, x =>
    have size : 2 * historySize = historySize + historySize := Nat.two_mul _
    { cells := (cells.set next x (by omega)).set (next + historySize) x (by omega)
      next := (next + 1) % historySize
      next_lt := Nat.mod_lt _ (by decide) }

/-- The `length` samples, oldest first, after which `back` more have come, if all of them are still
kept. -/
def window? (h : History α) (length back : Nat) : Option (Array α) :=
  if length + back ≤ historySize then
    let first := h.next + historySize - (length + back)
    some (h.cells.toArray.extract first (first + length))
  else none

end History

end SignalPath
