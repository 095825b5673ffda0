import SignalPath.Proofs.Curve.Pieces

/-!
# Splines do not overshoot

Every slope at a knot points the way of the secants on both sides and is at most three times as
steep as either of them; it is zero where they disagree. A cubic whose slopes at both ends keep to
that bound runs one way only, the way of its secant. So between two knots a spline stays between
their values, and a curve that was measured to rise or to fall does so everywhere.
-/

namespace SignalPath

/-- A slope that points the way of a secant and is at most three times as steep. -/
def WithinThrice (secant slope : Rat) : Prop := ∃ k, 0 ≤ k ∧ k ≤ 3 ∧ slope = k * secant

theorem withinThrice_self (secant : Rat) : WithinThrice secant secant :=
  ⟨1, by norm_num, by norm_num, (one_mul _).symm⟩

/-- A harmonic mean of two secants that point the same way, with weights of at least `sum`, is
bounded by either of them. -/
theorem withinThrice_mean {m n p q sum : Rat} (hsame : 0 < m * n) (hsum : 0 < sum) (hp : sum ≤ p)
    (hq : 0 ≤ q) : WithinThrice m (3 * sum / (p / m + q / n)) := by
  have hm : m ≠ 0 := left_ne_zero_of_mul hsame.ne'
  have hn : n ≠ 0 := right_ne_zero_of_mul hsame.ne'
  -- The second term is positive next to the first, and only adds to the divisor.
  have hquotient : 0 < m / n := by
    rw [← mul_div_mul_right _ _ hn]
    exact div_pos hsame (mul_self_pos.mpr hn)
  have hdivisor := mul_nonneg hq hquotient.le
  refine ⟨3 * sum / (p + q * (m / n)), div_nonneg (by linarith) (by linarith), ?_, ?_⟩
  · rw [div_le_iff₀ (by linarith)]
    linarith
  · rw [show p / m + q / n = (p + q * (m / n)) / m by field_simp, div_div_eq_mul_div,
      div_mul_eq_mul_div]

namespace Span

variable {s t : Span Rat} {l r x y : Rat}

/-! ## The slope between two spans -/

theorem slopeBetween_comm (s t : Span Rat) : s.slopeBetween t = t.slopeBetween s := by
  unfold slopeBetween
  dsimp only
  rw [mul_comm s.secant, add_comm s.width, add_comm (_ / s.secant)]

theorem slopeBetween_withinThrice_left (hs : 0 < s.width) (ht : 0 < t.width) :
    WithinThrice s.secant (s.slopeBetween t) := by
  have hzero : (0.0 : Rat) = 0 := by norm_num
  have hthree : (3.0 : Rat) = 3 := by norm_num
  unfold slopeBetween
  rw [hzero, hthree]
  split_ifs with hturn
  · exact ⟨0, le_rfl, by norm_num, (zero_mul _).symm⟩
  · exact withinThrice_mean (not_le.mp hturn) (by linarith) (by linarith) (by linarith)

theorem slopeBetween_withinThrice_right (hs : 0 < s.width) (ht : 0 < t.width) :
    WithinThrice t.secant (s.slopeBetween t) := by
  rw [slopeBetween_comm]
  exact slopeBetween_withinThrice_left ht hs

/-! ## One span -/

/-- A share of the width for every place in a span. -/
theorem exists_share (h : 0 < s.width) (hl : s.left.x ≤ x) (hr : x ≤ s.right.x) :
    ∃ t, x = s.left.x + s.width * t ∧ 0 ≤ t ∧ t ≤ 1 := by
  refine ⟨(x - s.left.x) / s.width, ?_, div_nonneg (sub_nonneg.mpr hl) h.le, ?_⟩
  · rw [mul_div_cancel₀ _ h.ne']
    ring
  · rw [div_le_one₀ h, width]
    linarith

/-- The slope of a cubic whose slopes at the ends are bounded is a mean of four slopes, the extreme
cases, none of which points against the secant. -/
theorem slope_along (h : 0 < s.width) (hleft : WithinThrice s.secant l)
    (hright : WithinThrice s.secant r) (hl : s.left.x ≤ x) (hr : x ≤ s.right.x) :
    ∃ k, 0 ≤ k ∧ (s.cubic l r).slope x = k * s.secant := by
  obtain ⟨a, ha, ha', rfl⟩ := hleft
  obtain ⟨b, hb, hb', rfl⟩ := hright
  obtain ⟨t, rfl, ht, ht'⟩ := exists_share h hl hr
  have hboth := mul_nonneg (mul_nonneg ha hb) (sq_nonneg (1 - 2 * t))
  have hnone := mul_nonneg (mul_nonneg (sub_nonneg.mpr ha') (sub_nonneg.mpr hb'))
    (mul_nonneg ht (sub_nonneg.mpr ht'))
  have hfirst := mul_nonneg (mul_nonneg ha (sub_nonneg.mpr hb')) (sq_nonneg (1 - t))
  have hsecond := mul_nonneg (mul_nonneg (sub_nonneg.mpr ha') hb) (sq_nonneg t)
  refine ⟨(a * b * (1 - 2 * t) ^ 2 + 2 * ((3 - a) * (3 - b) * (t * (1 - t))) +
    a * (3 - b) * (1 - t) ^ 2 + (3 - a) * b * t ^ 2) / 3, by linarith, ?_⟩
  rw [cubic_slope _ _ _ h]
  ring

theorem rise_along (h : 0 < s.width) (hleft : WithinThrice s.secant l)
    (hright : WithinThrice s.secant r) (hl : s.left.x ≤ x) (hxy : x ≤ y) (hr : y ≤ s.right.x) :
    ∃ k, 0 ≤ k ∧ (s.cubic l r).value y - (s.cubic l r).value x = k * s.secant := by
  -- Simpson's rule gives the rise of a cubic exactly.
  obtain ⟨a, ha, hx⟩ := slope_along h hleft hright hl (hxy.trans hr)
  obtain ⟨b, hb, hmid⟩ := slope_along h hleft hright (show s.left.x ≤ (x + y) / 2 by linarith)
    (by linarith)
  obtain ⟨c, hc, hy⟩ := slope_along h hleft hright (hl.trans hxy) hr
  refine ⟨(y - x) * ((a + 4 * b + c) / 6), mul_nonneg (by linarith) (by linarith), ?_⟩
  rw [Cubic.value_sub_value, hx, hmid, hy]
  ring

/-- If the secant points the way of `way`, so does every rise of the cubic. -/
theorem rise_nonneg {way : Rat} (h : 0 < s.width) (hway : 0 ≤ way * s.secant)
    (hleft : WithinThrice s.secant l) (hright : WithinThrice s.secant r) (hl : s.left.x ≤ x)
    (hxy : x ≤ y) (hr : y ≤ s.right.x) :
    0 ≤ way * ((s.cubic l r).value y - (s.cubic l r).value x) := by
  obtain ⟨k, hk, hrise⟩ := rise_along h hleft hright hl hxy hr
  rw [hrise, mul_left_comm]
  exact mul_nonneg hk hway

theorem secant_nonneg (h : 0 < s.width) (hle : s.left.y ≤ s.right.y) : 0 ≤ 1 * s.secant := by
  rw [one_mul]
  exact div_nonneg (sub_nonneg.mpr hle) h.le

theorem secant_nonpos (h : 0 < s.width) (hle : s.right.y ≤ s.left.y) : 0 ≤ -1 * s.secant := by
  rw [neg_one_mul, neg_nonneg]
  exact div_nonpos_of_nonpos_of_nonneg (sub_nonpos.mpr hle) h.le

end Span

namespace Spline

section

variable {p q : Knot Rat} {knots : List (Knot Rat)} {spline : Spline Rat} {s : Span Rat}
  {l x y way : Rat}

/-! ## All spans -/

/-- What holds of all pairs of knots holds of the ends of a span. -/
theorem rel_of_mem_chain {R : Knot Rat → Knot Rat → Prop} (h : (p :: knots).Pairwise R)
    (hs : s ∈ Span.chain p knots) : R s.left s.right := by
  induction knots generalizing p with
  | nil => exact absurd hs List.not_mem_nil
  | cons q knots ih =>
    obtain ⟨hp, hrest⟩ := List.pairwise_cons.mp h
    rcases List.mem_cons.mp hs with rfl | hs
    · exact hp q List.mem_cons_self
    · exact ih hrest hs

theorem left_mem_of_mem_chain (hs : s ∈ Span.chain p knots) : s.left ∈ p :: knots := by
  induction knots generalizing p with
  | nil => exact absurd hs List.not_mem_nil
  | cons q knots ih =>
    rcases List.mem_cons.mp hs with rfl | hs
    · exact List.mem_cons_self
    · exact List.mem_cons_of_mem _ (ih hs)

theorem width_pos (h : increasing (p :: knots) = true) (hs : s ∈ Span.chain p knots) :
    0 < s.width :=
  sub_pos.mpr (rel_of_mem_chain (pairwise_of_increasing h) hs)

theorem le_left (h : increasing (p :: knots) = true) (hs : s ∈ Span.chain p knots) :
    p.x ≤ s.left.x :=
  le_of_increasing h (left_mem_of_mem_chain hs)

theorem getElem_mem_chain (i : Nat) (h : i + 1 < (p :: knots).length) :
    ⟨(p :: knots)[i], (p :: knots)[i + 1]⟩ ∈ Span.chain p knots := by
  induction knots generalizing p i with
  | nil => exact absurd h (by simp)
  | cons q knots ih =>
    cases i with
    | zero => exact List.mem_cons_self
    | succ i => exact List.mem_cons_of_mem _ (ih i (Nat.lt_of_succ_lt_succ h))

/-- Over every span of its knots, both of them included, a spline is a cubic with bounded slopes. -/
theorem exists_cubic (h : increasing (p :: q :: knots) = true)
    (hl : WithinThrice (Span.secant ⟨p, q⟩) l) (hs : s ∈ Span.chain p (q :: knots)) :
    ∃ l' r', WithinThrice s.secant l' ∧ WithinThrice s.secant r' ∧
      ∀ x, s.left.x ≤ x → x ≤ s.right.x →
        (join l ⟨p, q⟩ (Span.chain q knots)).value x = (s.cubic l' r').value x := by
  induction knots generalizing p q l with
  | nil =>
    obtain rfl := List.mem_singleton.mp hs
    exact ⟨l, _, hl, withinThrice_self _, fun x _ hx => value_join_of_le [] hx⟩
  | cons r knots ih =>
    obtain ⟨hpq, hrest⟩ := increasing_cons_cons_iff.mp h
    obtain ⟨hqr, -⟩ := increasing_cons_cons_iff.mp hrest
    have hwidth : 0 < Span.width ⟨p, q⟩ := sub_pos.mpr hpq
    have hwidth' : 0 < Span.width ⟨q, r⟩ := sub_pos.mpr hqr
    rcases List.mem_cons.mp hs with rfl | hs
    · exact ⟨l, _, hl, Span.slopeBetween_withinThrice_left hwidth hwidth',
        fun x _ hx => value_join_of_le _ hx⟩
    · obtain ⟨l', r', hl', hr', hvalue⟩ :=
        ih hrest (Span.slopeBetween_withinThrice_right hwidth hwidth') hs
      refine ⟨l', r', hl', hr', fun x hx hx' => ?_⟩
      exact (value_join_of_ge hpq hqr _ ((le_left hrest hs).trans hx)).trans (hvalue x hx hx')

/-- If all secants point the way of `way`, so does every rise from the first knot to the last. -/
theorem rise_nonneg (h : increasing (p :: q :: knots) = true)
    (hl : WithinThrice (Span.secant ⟨p, q⟩) l)
    (hway : ∀ s ∈ Span.chain p (q :: knots), 0 ≤ way * s.secant) (hlo : p.x ≤ x) (hxy : x ≤ y)
    (hhi : ∃ k ∈ q :: knots, y ≤ k.x) :
    0 ≤ way * ((join l ⟨p, q⟩ (Span.chain q knots)).value y -
      (join l ⟨p, q⟩ (Span.chain q knots)).value x) := by
  induction knots generalizing p q l x with
  | nil =>
    obtain ⟨k, hk, hy⟩ := hhi
    obtain rfl := List.mem_singleton.mp hk
    obtain ⟨hpq, -⟩ := increasing_cons_cons_iff.mp h
    exact Span.rise_nonneg (sub_pos.mpr hpq) (hway _ List.mem_cons_self) hl (withinThrice_self _)
      hlo hxy hy
  | cons r knots ih =>
    obtain ⟨hpq, hrest⟩ := increasing_cons_cons_iff.mp h
    obtain ⟨hqr, -⟩ := increasing_cons_cons_iff.mp hrest
    have hwidth : 0 < Span.width ⟨p, q⟩ := sub_pos.mpr hpq
    have hwidth' : 0 < Span.width ⟨q, r⟩ := sub_pos.mpr hqr
    -- The rise below the second knot, and the one above it.
    have hbelow : ∀ {y}, x ≤ y → y ≤ q.x → 0 ≤ way *
        ((join l ⟨p, q⟩ (Span.chain q (r :: knots))).value y -
          (join l ⟨p, q⟩ (Span.chain q (r :: knots))).value x) := by
      intro y hxy hy
      rw [value_join_of_le _ hy, value_join_of_le _ (hxy.trans hy)]
      exact Span.rise_nonneg hwidth (hway _ List.mem_cons_self) hl
        (Span.slopeBetween_withinThrice_left hwidth hwidth') hlo hxy hy
    have habove : ∀ {x}, q.x ≤ x → x ≤ y → 0 ≤ way *
        ((join l ⟨p, q⟩ (Span.chain q (r :: knots))).value y -
          (join l ⟨p, q⟩ (Span.chain q (r :: knots))).value x) := by
      intro x hx hxy
      rw [Span.chain, value_join_of_ge hpq hqr _ hx, value_join_of_ge hpq hqr _ (hx.trans hxy)]
      refine ih hrest (Span.slopeBetween_withinThrice_right hwidth hwidth')
        (fun s hs => hway s (List.mem_cons_of_mem _ hs)) hx hxy ?_
      obtain ⟨k, hk, hy⟩ := hhi
      rcases List.mem_cons.mp hk with rfl | hk
      · exact ⟨r, List.mem_cons_self, hy.trans hqr.le⟩
      · exact ⟨k, hk, hy⟩
    rcases le_total y q.x with hy | hy
    · exact hbelow hxy hy
    · rcases le_total x q.x with hx | hx
      · linarith [hbelow hx le_rfl, habove le_rfl hy]
      · exact habove hx hxy

/-- Over a span whose secant points the way of `way`, the spline goes that way from the value at one
knot to the value at the other. -/
theorem rise_nonneg_of_mem (h : increasing (p :: q :: knots) = true)
    (hl : WithinThrice (Span.secant ⟨p, q⟩) l) (hs : s ∈ Span.chain p (q :: knots))
    (hway : 0 ≤ way * s.secant) (hlo : s.left.x ≤ x) (hxy : x ≤ y) (hhi : y ≤ s.right.x) :
    0 ≤ way * ((join l ⟨p, q⟩ (Span.chain q knots)).value x - s.left.y) ∧
      0 ≤ way * ((join l ⟨p, q⟩ (Span.chain q knots)).value y -
        (join l ⟨p, q⟩ (Span.chain q knots)).value x) ∧
      0 ≤ way * (s.right.y - (join l ⟨p, q⟩ (Span.chain q knots)).value y) := by
  have hwidth := width_pos h hs
  obtain ⟨l', r', hl', hr', hvalue⟩ := exists_cubic h hl hs
  rw [hvalue x hlo (hxy.trans hhi), hvalue y (hlo.trans hxy) hhi,
    ← s.cubic_value_left l' r' hwidth, ← s.cubic_value_right l' r' hwidth]
  exact ⟨Span.rise_nonneg hwidth hway hl' hr' le_rfl hlo (hxy.trans hhi),
    Span.rise_nonneg hwidth hway hl' hr' hlo hxy hhi,
    Span.rise_nonneg hwidth hway hl' hr' (hlo.trans hxy) hhi le_rfl⟩

theorem ofKnots_of_increasing {r : Knot Rat} (h : increasing (p :: q :: r :: knots) = true) :
    ofKnots (p :: q :: r :: knots) = .ok (through p q (r :: knots)) :=
  if_pos h

theorem ofKnots_eq_ok (h : ofKnots knots = .ok spline) :
    ∃ p q rest, knots = p :: q :: rest ∧ increasing (p :: q :: rest) = true ∧
      spline = join (Span.secant ⟨p, q⟩) ⟨p, q⟩ (Span.chain q rest) := by
  unfold ofKnots at h
  split at h
  · rename_i p q r rest
    split at h
    · rename_i hincreasing
      cases h
      exact ⟨p, q, r :: rest, rfl, hincreasing, rfl⟩
    · cases h
  · cases h

/-- Between two knots a spline runs from the value at one of them to the value at the other and
never turns. So through knots that only rise, or only fall, it does the same from the first knot to
the last. -/
theorem monotone_between_knots (h : ofKnots knots = .ok spline) :
    (∀ i (hi : i + 1 < knots.length) x y, knots[i].x ≤ x → x ≤ y → y ≤ knots[i + 1].x →
      (knots[i].y ≤ knots[i + 1].y → knots[i].y ≤ spline.value x ∧
        spline.value x ≤ spline.value y ∧ spline.value y ≤ knots[i + 1].y) ∧
      (knots[i + 1].y ≤ knots[i].y → knots[i + 1].y ≤ spline.value y ∧
        spline.value y ≤ spline.value x ∧ spline.value x ≤ knots[i].y)) ∧
    ∀ x y, (∃ k ∈ knots, k.x ≤ x) → x ≤ y → (∃ k ∈ knots, y ≤ k.x) →
      (knots.Pairwise (fun j k => j.y ≤ k.y) → spline.value x ≤ spline.value y) ∧
      (knots.Pairwise (fun j k => k.y ≤ j.y) → spline.value y ≤ spline.value x) := by
  obtain ⟨p, q, rest, rfl, hincreasing, rfl⟩ := ofKnots_eq_ok h
  have hself := withinThrice_self (Span.secant ⟨p, q⟩)
  constructor
  · intro i hi x y hlo hxy hhi
    have hs := getElem_mem_chain i hi
    have hwidth := width_pos hincreasing hs
    constructor
    · intro hle
      obtain ⟨hleft, hrise, hright⟩ := rise_nonneg_of_mem hincreasing hself hs
        (Span.secant_nonneg hwidth hle) hlo hxy hhi
      exact ⟨by linarith, by linarith, by linarith⟩
    · intro hle
      obtain ⟨hleft, hrise, hright⟩ := rise_nonneg_of_mem hincreasing hself hs
        (Span.secant_nonpos hwidth hle) hlo hxy hhi
      exact ⟨by linarith, by linarith, by linarith⟩
  · rintro x y ⟨k, hk, hlo⟩ hxy ⟨k', hk', hhi⟩
    have hfirst : p.x ≤ x := (le_of_increasing hincreasing hk).trans hlo
    have hlast : ∃ k ∈ q :: rest, y ≤ k.x := by
      rcases List.mem_cons.mp hk' with rfl | hk'
      · exact ⟨q, List.mem_cons_self,
          hhi.trans (le_of_increasing hincreasing (List.mem_cons_of_mem _ List.mem_cons_self))⟩
      · exact ⟨k', hk', hhi⟩
    constructor
    · intro hknots
      have hrise := rise_nonneg hincreasing hself (fun s hs => Span.secant_nonneg
        (width_pos hincreasing hs) (rel_of_mem_chain hknots hs)) hfirst hxy hlast
      linarith
    · intro hknots
      have hrise := rise_nonneg hincreasing hself (fun s hs => Span.secant_nonpos
        (width_pos hincreasing hs) (rel_of_mem_chain hknots hs)) hfirst hxy hlast
      linarith

end

/-- A slow rise, a plateau and a steep rise. -/
def plateau : List (Knot Rat) := [⟨0, 0⟩, ⟨1, 2⟩, ⟨3, 2⟩, ⟨4, 10⟩]

/-- The spline stays on the plateau, and rises from one side of it to the other. -/
theorem monotone_between_knots_plateau :
    ∃ spline, ofKnots plateau = .ok spline ∧ (2 ≤ spline.value 2 ∧ spline.value 2 ≤ 2) ∧
      spline.value (1 / 2) ≤ spline.value (7 / 2) := by
  have hknots : ofKnots plateau = .ok (through ⟨0, 0⟩ ⟨1, 2⟩ [⟨3, 2⟩, ⟨4, 10⟩]) :=
    ofKnots_of_increasing (by decide)
  obtain ⟨hspans, hwhole⟩ := monotone_between_knots hknots
  obtain ⟨hplateau, -⟩ := hspans 1 (by decide) 2 2 (by decide) le_rfl (by decide)
  obtain ⟨hlo, -, hhi⟩ := hplateau (by decide)
  obtain ⟨hrise, -⟩ := hwhole (1 / 2) (7 / 2) ⟨⟨0, 0⟩, by simp [plateau], by norm_num⟩ (by norm_num)
    ⟨⟨4, 10⟩, by simp [plateau], by norm_num⟩
  exact ⟨_, hknots, ⟨hlo, hhi⟩, hrise (by decide)⟩

end Spline

end SignalPath
