import Mathlib
import SignalPath.Proofs.Curve.Monotone

/-!
# Splines are smooth

Where two pieces of a spline meet, both go through the knot with the same slope. So whichever of
them the lookup takes there, the spline is differentiable, and its slope is continuous. The lookup
itself takes the piece between the two knots around its argument, and goes on with the outer pieces
outside the knots.
-/

namespace SignalPath

namespace Cubic

theorem hasDerivAt_value (p : Cubic Rat) (x : Rat) : HasDerivAt p.value (p.slope x) x := by
  have hdistance : HasDerivAt (fun y => y - p.origin) 1 x := (hasDerivAt_id x).sub_const _
  have hvalue := ((((hdistance.const_mul p.a).add_const p.b).mul hdistance).add_const p.c).mul
    hdistance |>.add_const p.d
  refine hvalue.congr_deriv ?_
  rw [slope_eq_polarSlope, polarSlope]
  simp only [Pi.mul_apply]
  ring

theorem continuous_slope (p : Cubic Rat) : Continuous p.slope := by
  unfold slope
  fun_prop

end Cubic

namespace Span

variable (s : Span Rat) (l r : Rat)

@[simp]
theorem cubic_slope_left (h : 0 < s.width) : (s.cubic l r).slope s.left.x = l := by
  have hslope := s.cubic_slope l r h 0
  simpa using hslope

@[simp]
theorem cubic_slope_right (h : 0 < s.width) : (s.cubic l r).slope s.right.x = r := by
  rw [right_eq_left_add_width, cubic_slope _ _ _ h]
  ring

end Span

namespace Spline

/-- All cubics of a spline, in order. -/
def cubics (s : Spline Rat) : List (Cubic Rat) := s.inner.map Piece.cubic ++ [s.last]

/-- The number of the cubic that answers for `x`: of the first piece that does not end below `x`,
or of the last cubic. -/
def segment (s : Spline Rat) (x : Rat) : Nat := s.inner.findIdx fun p => !(p.upper < x : Bool)

section

variable {p q r k : Knot Rat} {knots : List (Knot Rat)} {spline : Spline Rat} {s : Span Rat}
  {l x : Rat}

/-! ## Numbers of segments -/

section

variable {a : Piece Rat} {inner : List (Piece Rat)} {last : Cubic Rat}

@[simp]
theorem cubics_cons : cubics ⟨a :: inner, last⟩ = a.cubic :: cubics ⟨inner, last⟩ := rfl

theorem segment_cons_of_le (h : x ≤ a.upper) : segment ⟨a :: inner, last⟩ x = 0 := by
  simp [segment, List.findIdx_cons, not_lt.mpr h]

theorem segment_cons_of_lt (h : a.upper < x) :
    segment ⟨a :: inner, last⟩ x = segment ⟨inner, last⟩ x + 1 := by
  simp [segment, List.findIdx_cons, h]

theorem cubicAt_cons_of_le (h : x ≤ a.upper) : cubicAt ⟨a :: inner, last⟩ x = a.cubic := by
  simp [cubicAt, not_lt.mpr h]

theorem cubicAt_cons_of_lt (h : a.upper < x) :
    cubicAt ⟨a :: inner, last⟩ x = cubicAt ⟨inner, last⟩ x := by
  simp [cubicAt, h]

end

/-- The lookup takes the cubic with that number. -/
theorem getElem?_segment (spline : Spline Rat) (x : Rat) :
    spline.cubics[spline.segment x]? = some (spline.cubicAt x) := by
  obtain ⟨inner, last⟩ := spline
  induction inner with
  | nil => rfl
  | cons a inner ih =>
    rw [cubics_cons]
    rcases le_or_gt x a.upper with h | h
    · rw [segment_cons_of_le h, cubicAt_cons_of_le h, List.getElem?_cons_zero]
    · rw [segment_cons_of_lt h, cubicAt_cons_of_lt h, List.getElem?_cons_succ, ih]

/-- Each cubic of a spline belongs to one span, and neighbours share the slope between them. -/
theorem exists_slopes (l : Rat) (p q : Knot Rat) (knots : List (Knot Rat)) :
    ∃ slope : Nat → Rat, slope 0 = l ∧
      ∀ i (hi : i + 1 < (p :: q :: knots).length),
        (join l ⟨p, q⟩ (Span.chain q knots)).cubics[i]? =
          some (Span.cubic ⟨(p :: q :: knots)[i], (p :: q :: knots)[i + 1]⟩ (slope i)
            (slope (i + 1))) := by
  induction knots generalizing l p q with
  | nil =>
    refine ⟨fun i => if i = 0 then l else Span.secant ⟨p, q⟩, rfl, fun i hi => ?_⟩
    obtain rfl : i = 0 := by simpa using hi
    rfl
  | cons r knots ih =>
    obtain ⟨slope, hzero, hslope⟩ := ih (Span.slopeBetween ⟨p, q⟩ ⟨q, r⟩) q r
    refine ⟨fun i => if i = 0 then l else slope (i - 1), rfl, fun i hi => ?_⟩
    cases i with
    | zero =>
      rw [Span.chain, join, cubics_cons, ← hzero]
      rfl
    | succ i => exact hslope i (Nat.lt_of_succ_lt_succ hi)

theorem cubics_meet (h : increasing (p :: q :: knots) = true) (i : Nat)
    (hi : i + 2 < (p :: q :: knots).length) : ∃ below above,
      (join l ⟨p, q⟩ (Span.chain q knots)).cubics[i]? = some below ∧
      (join l ⟨p, q⟩ (Span.chain q knots)).cubics[i + 1]? = some above ∧
      (below.value (p :: q :: knots)[i + 1].x = (p :: q :: knots)[i + 1].y ∧
        above.value (p :: q :: knots)[i + 1].x = (p :: q :: knots)[i + 1].y) ∧
      below.slope (p :: q :: knots)[i + 1].x = above.slope (p :: q :: knots)[i + 1].x := by
  obtain ⟨slope, -, hslope⟩ := exists_slopes l p q knots
  have hbelow := width_pos h (getElem_mem_chain i (Nat.lt_of_succ_lt hi))
  have habove := width_pos h (getElem_mem_chain (i + 1) hi)
  refine ⟨_, _, hslope i (Nat.lt_of_succ_lt hi), hslope (i + 1) hi, ⟨?_, ?_⟩, ?_⟩
  · exact Span.cubic_value_right _ _ _ hbelow
  · exact Span.cubic_value_left _ _ _ habove
  · exact (Span.cubic_slope_right _ _ _ hbelow).trans (Span.cubic_slope_left _ _ _ habove).symm

theorem length_cubics_join (l : Rat) (s : Span Rat) (rest : List (Span Rat)) :
    (join l s rest).cubics.length = rest.length + 1 := by
  induction rest generalizing l s with
  | nil => rfl
  | cons t rest ih => rw [join, cubics_cons, List.length_cons, ih, List.length_cons]

theorem length_chain (p : Knot Rat) (knots : List (Knot Rat)) :
    (Span.chain p knots).length = knots.length := by
  induction knots generalizing p with
  | nil => rfl
  | cons q knots ih => rw [Span.chain, List.length_cons, ih, List.length_cons]

/-- What is not above all knots is not above all knots but the first. -/
theorem exists_le_of_mem (h : increasing (p :: q :: knots) = true)
    (hhi : ∃ k ∈ p :: q :: knots, x ≤ k.x) : ∃ k ∈ q :: knots, x ≤ k.x := by
  obtain ⟨k, hk, hx⟩ := hhi
  rcases List.mem_cons.mp hk with rfl | hk
  · obtain ⟨hpq, -⟩ := increasing_cons_cons_iff.mp h
    exact ⟨q, List.mem_cons_self, hx.trans hpq.le⟩
  · exact ⟨k, hk, hx⟩

/-- From the first knot to the last the lookup takes a segment whose knots are around its
argument. -/
theorem segment_around (hlo : p.x ≤ x) (hhi : ∃ k ∈ q :: knots, x ≤ k.x) :
    ∃ a b, (p :: q :: knots)[(join l ⟨p, q⟩ (Span.chain q knots)).segment x]? = some a ∧
      (p :: q :: knots)[(join l ⟨p, q⟩ (Span.chain q knots)).segment x + 1]? = some b ∧
      a.x ≤ x ∧ x ≤ b.x := by
  induction knots generalizing p q l with
  | nil =>
    obtain ⟨k, hk, hx⟩ := hhi
    obtain rfl := List.mem_singleton.mp hk
    exact ⟨p, k, rfl, rfl, hlo, hx⟩
  | cons r knots ih =>
    rw [Span.chain, join]
    rcases le_or_gt x q.x with hx | hx
    · rw [segment_cons_of_le hx]
      exact ⟨p, q, rfl, rfl, hlo, hx⟩
    · have hrest : ∃ k ∈ r :: knots, x ≤ k.x := by
        obtain ⟨k, hk, hkx⟩ := hhi
        rcases List.mem_cons.mp hk with rfl | hk
        · exact absurd hkx (not_le.mpr hx)
        · exact ⟨k, hk, hkx⟩
      rw [segment_cons_of_lt hx]
      exact ih hx.le hrest

theorem segment_of_lt (h : x < q.x) :
    (join l ⟨p, q⟩ (Span.chain q knots)).segment x = 0 := by
  cases knots with
  | nil => rfl
  | cons r knots => exact segment_cons_of_le h.le

theorem segment_of_gt (h : ∀ k ∈ q :: knots, k.x < x) :
    (join l ⟨p, q⟩ (Span.chain q knots)).segment x = knots.length := by
  induction knots generalizing p q l with
  | nil => rfl
  | cons r knots ih =>
    obtain ⟨hq, hrest⟩ := List.forall_mem_cons.mp h
    rw [Span.chain, join, segment_cons_of_lt hq, ih hrest, List.length_cons]

theorem value_join_left (hpq : p.x < q.x) (rest : List (Span Rat)) :
    (join l ⟨p, q⟩ rest).value p.x = p.y := by
  rw [value_join_of_le _ hpq.le]
  exact Span.cubic_value_left ⟨p, q⟩ _ _ (sub_pos.mpr hpq)

theorem value_knot (h : increasing (p :: q :: knots) = true) :
    ∀ k ∈ p :: q :: knots, (join l ⟨p, q⟩ (Span.chain q knots)).value k.x = k.y := by
  induction knots generalizing p q l with
  | nil =>
    obtain ⟨hpq, -⟩ := increasing_cons_cons_iff.mp h
    rw [List.forall_mem_cons, List.forall_mem_singleton]
    exact ⟨value_join_left hpq _, Span.cubic_value_right ⟨p, q⟩ _ _ (sub_pos.mpr hpq)⟩
  | cons r knots ih =>
    obtain ⟨hpq, hrest⟩ := increasing_cons_cons_iff.mp h
    obtain ⟨hqr, -⟩ := increasing_cons_cons_iff.mp hrest
    rw [List.forall_mem_cons]
    refine ⟨value_join_left hpq _, fun k hk => ?_⟩
    rw [Span.chain, value_join_of_ge hpq hqr _ (le_of_increasing hrest hk)]
    exact ih hrest k hk

/-! ## The slope -/

theorem slope_join_of_le (rest : List (Span Rat)) (h : x ≤ s.right.x) :
    (join l s rest).slope x = (s.cubic l (slopeAbove s rest)).slope x := by
  cases rest with
  | nil => rfl
  | cons t rest => exact congrArg (Cubic.slope · x) (cubicAt_cons_of_le h)

/-- From the second knot on the slope is that of the spline over the other spans. -/
theorem slope_join_of_ge (hpq : p.x < q.x) (hqr : q.x < r.x) (rest : List (Span Rat))
    (h : q.x ≤ x) :
    (join l ⟨p, q⟩ (⟨q, r⟩ :: rest)).slope x =
      (join (Span.slopeBetween ⟨p, q⟩ ⟨q, r⟩) ⟨q, r⟩ rest).slope x := by
  rcases h.eq_or_lt with rfl | hlt
  · -- Both cubics have the slope that was chosen for the knot.
    rw [slope_join_of_le _ le_rfl, slope_join_of_le _ hqr.le]
    have hleft := Span.cubic_slope_right ⟨p, q⟩ l (slopeAbove ⟨p, q⟩ (⟨q, r⟩ :: rest))
      (sub_pos.mpr hpq)
    have hright := Span.cubic_slope_left ⟨q, r⟩ (Span.slopeBetween ⟨p, q⟩ ⟨q, r⟩)
      (slopeAbove ⟨q, r⟩ rest) (sub_pos.mpr hqr)
    exact hleft.trans hright.symm
  · exact congrArg (Cubic.slope · x) (cubicAt_cons_of_lt hlt)

/-- Two functions with a common derivative where they meet are differentiable as one. -/
theorem hasDerivAt_of_meet {f g h f' : Rat → Rat} {m : Rat}
    (hg : ∀ x ≤ m, f x = g x ∧ HasDerivAt g (f' x) x)
    (hh : ∀ x, m ≤ x → f x = h x ∧ HasDerivAt h (f' x) x) (x : Rat) : HasDerivAt f (f' x) x := by
  have hbelow : ∀ x ≤ m, HasDerivWithinAt f (f' x) (Set.Iic m) x := fun x hx =>
    (hg x hx).2.hasDerivWithinAt.congr (fun y hy => (hg y hy).1) (hg x hx).1
  have habove : ∀ x, m ≤ x → HasDerivWithinAt f (f' x) (Set.Ici m) x := fun x hx =>
    (hh x hx).2.hasDerivWithinAt.congr (fun y hy => (hh y hy).1) (hh x hx).1
  rcases lt_trichotomy x m with hx | rfl | hx
  · exact (hbelow x hx.le).hasDerivAt (Iic_mem_nhds hx)
  · have hboth := (hbelow x le_rfl).union (habove x le_rfl)
    rwa [Set.Iic_union_Ici, hasDerivWithinAt_univ] at hboth
  · exact (habove x hx.le).hasDerivAt (Ici_mem_nhds hx)

theorem hasDerivAt_join (h : increasing (p :: q :: knots) = true) (x : Rat) :
    HasDerivAt (join l ⟨p, q⟩ (Span.chain q knots)).value
      ((join l ⟨p, q⟩ (Span.chain q knots)).slope x) x := by
  -- Up to the second knot the spline is its first cubic, and from there on it is the spline over
  -- the other spans.
  induction knots generalizing p q l x with
  | nil => exact Cubic.hasDerivAt_value _ x
  | cons r knots ih =>
    obtain ⟨hpq, hrest⟩ := increasing_cons_cons_iff.mp h
    obtain ⟨hqr, -⟩ := increasing_cons_cons_iff.mp hrest
    rw [Span.chain]
    refine hasDerivAt_of_meet (m := q.x) (fun x hx => ⟨value_join_of_le _ hx, ?_⟩)
      (fun x hx => ⟨value_join_of_ge hpq hqr _ hx, ?_⟩) x
    · rw [slope_join_of_le _ hx]
      exact Cubic.hasDerivAt_value _ x
    · rw [slope_join_of_ge hpq hqr _ hx]
      exact ih hrest x

theorem continuous_slope_join (h : increasing (p :: q :: knots) = true) :
    Continuous (join l ⟨p, q⟩ (Span.chain q knots)).slope := by
  induction knots generalizing p q l with
  | nil => exact Cubic.continuous_slope _
  | cons r knots ih =>
    obtain ⟨hpq, hrest⟩ := increasing_cons_cons_iff.mp h
    obtain ⟨hqr, -⟩ := increasing_cons_cons_iff.mp hrest
    have hpieces : (join l ⟨p, q⟩ (Span.chain q (r :: knots))).slope = fun x =>
        if x ≤ q.x then (Span.cubic ⟨p, q⟩ l (Span.slopeBetween ⟨p, q⟩ ⟨q, r⟩)).slope x
        else (join (Span.slopeBetween ⟨p, q⟩ ⟨q, r⟩) ⟨q, r⟩ (Span.chain r knots)).slope x := by
      funext x
      rw [Span.chain]
      split_ifs with hx
      · exact slope_join_of_le _ hx
      · exact slope_join_of_ge hpq hqr _ (not_le.mp hx).le
    rw [hpieces]
    refine (Cubic.continuous_slope _).if_le (ih hrest) continuous_id continuous_const ?_
    intro x hx
    obtain rfl : x = q.x := hx
    rw [← slope_join_of_ge (l := l) hpq hqr _ le_rfl, slope_join_of_le _ le_rfl]
    rfl

/-- A spline goes through its knots, and so do the two cubics at a knot, with the same slope. From
the first knot to the last the lookup takes a cubic whose knots are around its argument, and outside
them the first or the last one. So the spline is differentiable everywhere, and its slope, which is
its derivative, is continuous. -/
theorem smooth_through_knots (h : ofKnots knots = .ok spline) :
    (∀ k ∈ knots, spline.value k.x = k.y) ∧
    spline.cubics.length + 1 = knots.length ∧
    (∀ i (hi : i + 2 < knots.length), ∃ below above,
      spline.cubics[i]? = some below ∧ spline.cubics[i + 1]? = some above ∧
      (below.value knots[i + 1].x = knots[i + 1].y ∧ above.value knots[i + 1].x = knots[i + 1].y) ∧
      below.slope knots[i + 1].x = above.slope knots[i + 1].x) ∧
    (∀ x, spline.cubics[spline.segment x]? = some (spline.cubicAt x) ∧
      ((∃ k ∈ knots, k.x ≤ x) → (∃ k ∈ knots, x ≤ k.x) → ∃ a b,
        knots[spline.segment x]? = some a ∧ knots[spline.segment x + 1]? = some b ∧
        a.x ≤ x ∧ x ≤ b.x) ∧
      ((∀ k ∈ knots, x < k.x) → spline.segment x = 0) ∧
      ((∀ k ∈ knots, k.x < x) → spline.segment x + 2 = knots.length)) ∧
    (∀ x, HasDerivAt spline.value (spline.slope x) x) ∧ Continuous spline.slope := by
  obtain ⟨p, q, rest, rfl, hincreasing, rfl⟩ := ofKnots_eq_ok h
  refine ⟨value_knot hincreasing, ?_, cubics_meet hincreasing,
    fun x => ⟨getElem?_segment _ x, ?_, ?_, ?_⟩, hasDerivAt_join hincreasing,
    continuous_slope_join hincreasing⟩
  · rw [length_cubics_join, length_chain, List.length_cons, List.length_cons]
  · rintro ⟨k, hk, hlo⟩ hhi
    exact segment_around ((le_of_increasing hincreasing hk).trans hlo)
      (exists_le_of_mem hincreasing hhi)
  · intro hbelow
    exact segment_of_lt (hbelow q (List.mem_cons_of_mem _ List.mem_cons_self))
  · intro habove
    rw [segment_of_gt fun k hk => habove k (List.mem_cons_of_mem _ hk), List.length_cons,
      List.length_cons]

/-- At the upper end of a plateau, and on the steep rise behind it. -/
theorem smooth_through_plateau :
    ∃ spline, ofKnots plateau = .ok spline ∧ spline.value 3 = 2 ∧
      HasDerivAt spline.value (spline.slope 3) 3 ∧
      ∃ a b, plateau[spline.segment (7 / 2)]? = some a ∧
        plateau[spline.segment (7 / 2) + 1]? = some b ∧ a.x ≤ 7 / 2 ∧ 7 / 2 ≤ b.x := by
  have hknots : ofKnots plateau = .ok (through ⟨0, 0⟩ ⟨1, 2⟩ [⟨3, 2⟩, ⟨4, 10⟩]) :=
    ofKnots_of_increasing (by decide)
  obtain ⟨hvalue, -, -, hlookup, hslope, -⟩ := smooth_through_knots hknots
  obtain ⟨-, haround, -⟩ := hlookup (7 / 2)
  exact ⟨_, hknots, hvalue ⟨3, 2⟩ (by simp [plateau]), hslope 3,
    haround ⟨⟨0, 0⟩, by simp [plateau], by norm_num⟩ ⟨⟨4, 10⟩, by simp [plateau], by norm_num⟩⟩

end

end Spline

end SignalPath
