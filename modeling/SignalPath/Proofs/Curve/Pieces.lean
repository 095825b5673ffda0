import Mathlib.Tactic.FieldSimp
import Mathlib.Tactic.LinearCombination
import SignalPath.Proofs.Curve.Rise

/-!
# The pieces of a spline

The cubic of a span goes through both knots of the span. So the pieces of a spline meet at the
knots, and it does not matter that a knot between two spans belongs to the piece below it: from a
knot on, the spline is the one that is joined from the spans above.
-/

namespace SignalPath

namespace Span

section

variable (s : Span Rat) (l r : Rat)

/-- The cubic of a span, by the share of the width. -/
theorem cubic_value (h : 0 < s.width) (t : Rat) :
    (s.cubic l r).value (s.left.x + s.width * t) =
      s.left.y + s.width * (l * t + (3 * s.secant - 2 * l - r) * t ^ 2 +
        (l + r - 2 * s.secant) * t ^ 3) := by
  have hone : (1.0 : Rat) = 1 := by norm_num
  have htwo : (2.0 : Rat) = 2 := by norm_num
  simp only [cubic, Cubic.value, hone, htwo]
  field_simp
  ring

/-- The slope of that cubic. -/
theorem cubic_slope (h : 0 < s.width) (t : Rat) :
    (s.cubic l r).slope (s.left.x + s.width * t) =
      l + 2 * (3 * s.secant - 2 * l - r) * t + 3 * (l + r - 2 * s.secant) * t ^ 2 := by
  have hone : (1.0 : Rat) = 1 := by norm_num
  have htwo : (2.0 : Rat) = 2 := by norm_num
  have hthree : (3.0 : Rat) = 3 := by norm_num
  simp only [cubic, Cubic.slope, hone, htwo, hthree]
  field_simp
  ring

theorem right_eq_left_add_width : s.right.x = s.left.x + s.width * 1 := by
  rw [width]
  ring

theorem secant_mul_width (h : 0 < s.width) : s.secant * s.width = s.right.y - s.left.y :=
  div_mul_cancel₀ _ h.ne'

@[simp]
theorem cubic_value_left (h : 0 < s.width) : (s.cubic l r).value s.left.x = s.left.y := by
  have hvalue := s.cubic_value l r h 0
  simpa using hvalue

@[simp]
theorem cubic_value_right (h : 0 < s.width) : (s.cubic l r).value s.right.x = s.right.y := by
  have hsecant := s.secant_mul_width h
  rw [right_eq_left_add_width, cubic_value _ _ _ h]
  linear_combination hsecant

end

end Span

namespace Spline

section

variable {p q r k : Knot Rat} {knots : List (Knot Rat)} {s : Span Rat} {l x : Rat}

theorem increasing_cons_cons_iff : increasing (p :: q :: knots) = true ↔
    p.x < q.x ∧ increasing (q :: knots) = true := by
  rw [increasing, Bool.and_eq_true, decide_eq_true_iff]

theorem pairwise_of_increasing (h : increasing knots = true) :
    knots.Pairwise fun j k => j.x < k.x := by
  induction knots with
  | nil => exact List.Pairwise.nil
  | cons p knots ih =>
    cases knots with
    | nil => exact List.pairwise_singleton _ _
    | cons q knots =>
      obtain ⟨hpq, hrest⟩ := increasing_cons_cons_iff.mp h
      have hpairwise := ih hrest
      refine List.pairwise_cons.mpr ⟨fun k hk => ?_, hpairwise⟩
      rcases List.mem_cons.mp hk with rfl | hk
      · exact hpq
      · exact hpq.trans ((List.pairwise_cons.mp hpairwise).1 k hk)

theorem le_of_increasing (h : increasing (p :: knots) = true) (hk : k ∈ p :: knots) :
    p.x ≤ k.x := by
  rcases List.mem_cons.mp hk with rfl | hk
  · exact le_rfl
  · exact ((List.pairwise_cons.mp (pairwise_of_increasing h)).1 k hk).le

/-- The slope at the upper end of the first span of a spline. -/
def slopeAbove (s : Span Rat) : List (Span Rat) → Rat
  | [] => s.secant
  | t :: _ => s.slopeBetween t

/-- Over its first span a spline is the cubic of that span. -/
theorem value_join_of_le (rest : List (Span Rat)) (h : x ≤ s.right.x) :
    (join l s rest).value x = (s.cubic l (slopeAbove s rest)).value x := by
  cases rest with
  | nil => rfl
  | cons t rest => exact value_cons_of_le h

/-- From the second knot on a spline is the one over the other spans. -/
theorem value_join_of_ge (hpq : p.x < q.x) (hqr : q.x < r.x) (rest : List (Span Rat))
    (h : q.x ≤ x) :
    (join l ⟨p, q⟩ (⟨q, r⟩ :: rest)).value x =
      (join (Span.slopeBetween ⟨p, q⟩ ⟨q, r⟩) ⟨q, r⟩ rest).value x := by
  rcases h.eq_or_lt with rfl | hlt
  · -- Both cubics go through the knot.
    rw [value_join_of_le _ le_rfl, value_join_of_le _ hqr.le]
    have hleft := Span.cubic_value_right ⟨p, q⟩ l (slopeAbove ⟨p, q⟩ (⟨q, r⟩ :: rest))
      (sub_pos.mpr hpq)
    have hright := Span.cubic_value_left ⟨q, r⟩ (Span.slopeBetween ⟨p, q⟩ ⟨q, r⟩)
      (slopeAbove ⟨q, r⟩ rest) (sub_pos.mpr hqr)
    exact hleft.trans hright.symm
  · exact value_cons_of_lt hlt

end

end Spline

end SignalPath
