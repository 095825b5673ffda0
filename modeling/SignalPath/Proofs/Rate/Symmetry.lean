import SignalPath.Proofs.Number.Binary32
import SignalPath.Proofs.Rate.Limiting

/-!
# Opposite samples at single precision

The two signs have limits of their own, so that opposite samples do not bend alike. At exact numbers
their magnitudes differ by at most the difference of the limits, as long as neither excess or both
of them are cut off. Single precision is close enough to that for levels that differ by at most 2.
The approximation of the hyperbolic tangent jumps where it is cut off, and it gets there at another
magnitude for each sign: in between, one sign is at its limit and the other one well below it.
-/

namespace SignalPath.Limiter

open Binary32

/-! ## Two limits at exact numbers -/

section

variable {x y l L : Rat}

/-- The difference of the slopes of two chords from the origin. -/
theorem mul_numerator_mul_denominator_sub (x y : Rat) :
    y * (numerator x * denominator y) - x * (numerator y * denominator x) =
      x * y * (y ^ 2 - x ^ 2) *
        (297675 + 13230 * (x ^ 2 + y ^ 2) + 1155 * (x * y) ^ 2) := by
  unfold numerator denominator
  ring

/-- The approximation rises slower than in proportion to its argument. -/
theorem mul_tanh_le (hx : 0 ≤ x) (hxy : x ≤ y) (hy : y < 3) : x * tanh y ≤ y * tanh x := by
  have hsquares : 0 ≤ y ^ 2 - x ^ 2 := sub_nonneg.mpr (pow_le_pow_left₀ hx hxy 2)
  have hproduct : 0 ≤ x * y := mul_nonneg hx (hx.trans hxy)
  rw [tanh_of_lt hy, tanh_of_lt (hxy.trans_lt hy), mul_div_assoc', mul_div_assoc',
    div_le_div_iff₀ (denominator_pos y) (denominator_pos x), mul_assoc, mul_assoc, ← sub_nonneg,
    mul_numerator_mul_denominator_sub]
  positivity

/-- A larger limit does not bend a magnitude further, unless the smaller one cuts it off. -/
theorem bend_le_bend (hl : 28000 < l) (hlL : l ≤ L) (hx : 28000 ≤ x)
    (hcut : x < 28000 + 3 * (l - 28000)) : bend x l ≤ bend x L := by
  have hpos : 0 < l - 28000 := sub_pos.mpr hl
  have hpos' : 0 < L - 28000 := by linarith
  have hexcess : (x - 28000) / (L - 28000) ≤ (x - 28000) / (l - 28000) :=
    div_le_div_of_nonneg_left (by linarith) hpos (by linarith)
  have hcut' : (x - 28000) / (l - 28000) < 3 := by
    rw [div_lt_iff₀ hpos]
    linarith
  have hchords := mul_tanh_le (excess_nonneg (hl.trans_le hlL) hx) hexcess hcut'
  rw [bend_of_ge hl hx, bend_of_ge (hl.trans_le hlL) hx]
  rcases hx.eq_or_lt with rfl | hlt
  · norm_num [tanh]
  · have hdistance : 0 < x - 28000 := sub_pos.mpr hlt
    rw [div_mul_eq_mul_div, div_mul_eq_mul_div, div_le_div_iff₀ hpos' hpos, mul_assoc, mul_assoc,
      mul_le_mul_iff_right₀ hdistance] at hchords
    linarith

/-- A larger limit raises a magnitude by at most the difference of the limits. -/
theorem bend_le_add (hl : 28000 < l) (hlL : l ≤ L) (x : Rat) : bend x L ≤ bend x l + (L - l) := by
  rcases lt_or_ge x 28000 with hx | hx
  · rw [bend_of_lt hx, bend_of_lt hx]
    linarith
  · have hexcess : (x - 28000) / (L - 28000) ≤ (x - 28000) / (l - 28000) :=
      div_le_div_of_nonneg_left (by linarith) (sub_pos.mpr hl) (by linarith)
    have hnonneg := excess_nonneg (hl.trans_le hlL) hx
    have hmono := mul_le_mul_of_nonneg_left (tanh_mono hnonneg hexcess) (sub_nonneg.mpr hl.le)
    have hone := mul_le_mul_of_nonneg_left (tanh_le_one hnonneg) (sub_nonneg.mpr hlL)
    rw [bend_of_ge hl hx, bend_of_ge (hl.trans_le hlL) hx]
    linarith

theorem bend_of_cut (hl : 28000 < l) (hcut : 28000 + 3 * (l - 28000) ≤ x) : bend x l = l := by
  have hexcess : 3 ≤ (x - 28000) / (l - 28000) := by
    rw [le_div_iff₀ (sub_pos.mpr hl)]
    linarith
  rw [bend_of_ge hl (by linarith), tanh_of_ge hexcess]
  ring

/-- The magnitudes of opposite samples, unless the excess of just one of them is cut off. -/
theorem abs_bend_sub_le_one (hcuts : ¬ (42301 ≤ x ∧ x < 42304)) :
    |bend x 32767 - bend x 32768| ≤ 1 := by
  have hupper := bend_le_add (l := 32767) (L := 32768) (by norm_num) (by norm_num) x
  have hlower : bend x 32767 ≤ bend x 32768 := by
    rcases lt_or_ge x 28000 with hx | hx
    · rw [bend_of_lt hx, bend_of_lt hx]
    · rcases lt_or_ge x 42301 with hcut | hcut
      · exact bend_le_bend (by norm_num) (by norm_num) hx (by linarith)
      · have hcut' : 42304 ≤ x := not_lt.mp fun h => hcuts ⟨hcut, h⟩
        rw [bend_of_cut (by norm_num) (by linarith), bend_of_cut (by norm_num) (by linarith)]
        norm_num
  rw [abs_le]
  constructor <;> linarith

/-- Just before its excess is cut off, a negative sample is more than 21 short of its limit. -/
theorem bend_between_cuts (hx : 42301 ≤ x) (hcut : x < 42304) :
    32746.25 ≤ bend x 32768 ∧ bend x 32768 ≤ 32746.5 := by
  have hexcess : (x - 28000) / (32768 - 28000) < 3 := by
    rw [div_lt_iff₀ (by norm_num)]
    linarith
  have hexcess' : 14301 / 4768 ≤ (x - 28000) / (32768 - 28000) := by
    rw [le_div_iff₀ (by norm_num)]
    linarith
  have hlower := tanh_mono (by norm_num) hexcess'
  have hupper := numerator_mul_denominator_le (excess_nonneg (by norm_num) (by linarith))
    hexcess.le le_rfl
  rw [tanh_of_lt (by norm_num)] at hlower
  rw [bend_of_ge (by norm_num) (by linarith)]
  rw [← div_le_div_iff₀ (denominator_pos _) (denominator_pos _), ← tanh_of_lt hexcess] at hupper
  norm_num [numerator, denominator] at hlower hupper ⊢
  constructor <;> linarith

end

/-! ## The approximation at single precision -/

section

variable {s u : Float32} {w z : ℚ}

theorem abs_le_of_bounds {y Y : ℚ} (h : 0 ≤ y) (h' : y ≤ Y) : |y| ≤ Y := by
  rwa [abs_of_nonneg h]

theorem near_tanh_numerator (hs : Near s z (1 / 75000)) (hz : 0 ≤ z) (hz' : z ≤ 9) :
    Near (945.0 + s * (105.0 + s)) (945 + z * (105 + z)) (1 / 525) := by
  have h105 : Near 105.0 105 0 := near_const rfl rfl
  have h945 : Near 945.0 945 0 := near_const rfl rfl
  have hsum : |105 + z| ≤ 114 := abs_le_of_bounds (by linarith) (by linarith)
  have hproduct : z * (105 + z) ≤ 1026 := by nlinarith
  have hinner : Near (105.0 + s) (105 + z) (1 / 55000) := (h105.add hs 7 hsum).mono
  have houter : Near (s * (105.0 + s)) (z * (105 + z)) (1 / 550) :=
    (hs.mul hinner 11 (abs_le_of_bounds hz hz') hsum).mono
  refine (h945.add houter 11 (X := 1971) ?_).mono
  exact abs_le_of_bounds (by positivity) (by linarith)

theorem near_tanh_denominator (hs : Near s z (1 / 75000)) (hz : 0 ≤ z) (hz' : z ≤ 9) :
    Near (945.0 + s * (420.0 + s * 15.0)) (945 + z * (420 + z * 15)) (1 / 98) := by
  have h15 : Near 15.0 15 0 := near_const rfl rfl
  have h420 : Near 420.0 420 0 := near_const rfl rfl
  have h945 : Near 945.0 945 0 := near_const rfl rfl
  have hsum : |420 + z * 15| ≤ 555 := abs_le_of_bounds (by linarith) (by linarith)
  have hproduct : z * (420 + z * 15) ≤ 4995 := by nlinarith
  have hinmost : Near (s * 15.0) (z * 15) (1 / 4800) :=
    (hs.mul h15 8 (abs_le_of_bounds hz hz') (abs_of_pos (by norm_num)).le).mono
  have hinner : Near (420.0 + s * 15.0) (420 + z * 15) (1 / 4100) :=
    (h420.add hinmost 10 hsum).mono
  have houter : Near (s * (420.0 + s * 15.0)) (z * (420 + z * 15)) (1 / 101) :=
    (hs.mul hinner 13 (abs_le_of_bounds hz hz') hsum).mono
  refine (h945.add houter 13 (X := 5940) ?_).mono
  exact abs_le_of_bounds (by positivity) (by linarith)

/-- Below the cut the approximation passes an error of its argument on without magnifying it much,
and adds rounding errors of its own. -/
theorem near_tanh (h : Near u w (1 / 500000)) (hw : 0 ≤ w) (hw' : w < 3)
    (hu : ¬ (3.0 : Float32) ≤ u) : Near (tanh u) (tanh w) (1 / 40000) := by
  have hargument : |w| ≤ 3 := abs_le_of_bounds hw hw'.le
  have hsquare : 0 ≤ w * w := mul_nonneg hw hw
  have hsquare' : w * w ≤ 9 := by nlinarith
  have hs : Near (u * u) (w * w) (1 / 75000) := (h.mul h 4 hargument hargument).mono
  have hfactor : 945 + w * w * (105 + w * w) ≤ 1971 := by nlinarith
  have hnumerator : Near (u * (945.0 + u * u * (105.0 + u * u)))
      (w * (945 + w * w * (105 + w * w))) (1 / 100) :=
    (h.mul (near_tanh_numerator hs hsquare hsquare') 13 hargument
      (abs_le_of_bounds (by positivity) hfactor)).mono
  have hexact : tanh w =
      w * (945 + w * w * (105 + w * w)) / (945 + w * w * (420 + w * w * 15)) := by
    rw [tanh_of_lt hw', numerator, denominator]
    congr 1 <;> ring
  have hone := abs_le_of_bounds (tanh_nonneg hw) (tanh_le_one hw)
  rw [hexact] at hone ⊢
  rw [tanh, if_neg hu]
  refine (hnumerator.div (near_tanh_denominator hs hsquare hsquare') 1 (Y := 945) hone ?_).mono
  exact le_add_of_nonneg_right (by positivity)

end

/-! ## The excess at single precision -/

/-- The distance from the threshold in units of the distance from there to the limit. -/
def excess (x limit : Float32) : Float32 := (x - threshold) / limit / (1.0 - threshold / limit)

/-- A limit, the number from which on the excess is cut off, and the number just before that. -/
structure Edge (limit cut last : Float32) : Prop where
  limit_finite : limit.isFinite = true
  cut_finite : cut.isFinite = true
  last_finite : last.isFinite = true
  limit_bounds : 32767 ≤ rational limit ∧ rational limit ≤ 32768
  /-- The cut is where it is at exact numbers. -/
  cut_eq : rational cut = 28000 + 3 * (rational limit - 28000)
  /-- There is no number between the two. -/
  last_eq : rational last = rational cut - 2 ^ (-8 : ℤ)
  at_cut : (3.0 : Float32) ≤ excess cut limit
  at_last : ¬ (3.0 : Float32) ≤ excess last limit
  /-- An excess that is cut off is bent to the limit without an error. -/
  full : (threshold / limit + (1.0 - threshold / limit) * 1.0) * limit = limit

theorem rational_threshold : rational threshold = 28000 := rfl

theorem rational_positive : rational 32767.0 = 32767 := rfl

theorem rational_positive_cut : rational 42301.0 = 42301 := rfl

theorem rational_negative : rational 32768.0 = 32768 := rfl

theorem rational_negative_cut : rational 42304.0 = 42304 := rfl

theorem edge_positive : Edge 32767.0 42301.0 42300.99609375 where
  limit_finite := by decide
  cut_finite := by decide
  last_finite := by decide
  limit_bounds := by norm_num [rational_positive]
  cut_eq := by norm_num [rational_positive, rational_positive_cut]
  last_eq := by
    have hlast : rational 42300.99609375 = mkRat 10829055 256 := rfl
    norm_num [hlast, rational_positive_cut, Rat.mkRat_eq_div]
  at_cut := by decide
  at_last := by decide
  full := by decide

theorem edge_negative : Edge 32768.0 42304.0 42303.99609375 where
  limit_finite := by decide
  cut_finite := by decide
  last_finite := by decide
  limit_bounds := by norm_num [rational_negative]
  cut_eq := by norm_num [rational_negative, rational_negative_cut]
  last_eq := by
    have hlast : rational 42303.99609375 = mkRat 10829823 256 := rfl
    norm_num [hlast, rational_negative_cut, Rat.mkRat_eq_div]
  at_cut := by decide
  at_last := by decide
  full := by decide

section

variable {limit cut last x y : Float32}

theorem bend_of_quiet (hx : x.isFinite = true) (h : rational x < 28000) : bend x limit = x := by
  have hthreshold : x < threshold := by rwa [lt_iff hx rfl, rational_threshold]
  rw [bend, if_pos hthreshold]

theorem bend_of_loud (hx : x.isFinite = true) (h : 28000 ≤ rational x) :
    bend x limit =
      (threshold / limit + (1.0 - threshold / limit) * tanh (excess x limit)) * limit := by
  have hthreshold : ¬ x < threshold := by
    rw [lt_iff hx rfl, rational_threshold]
    exact not_lt.mpr h
  rw [bend, if_neg hthreshold]
  rfl

namespace Edge

variable (edge : Edge limit cut last)

include edge

theorem limit_gt : 28000 < rational limit := by linarith [edge.limit_bounds.1]

theorem knee_bounds : 5 / 6 ≤ 28000 / rational limit ∧ 28000 / rational limit ≤ 6 / 7 := by
  obtain ⟨hlow, hhigh⟩ := edge.limit_bounds
  have hpos : 0 < rational limit := by linarith
  rw [le_div_iff₀ hpos, div_le_iff₀ hpos]
  constructor <;> linarith

theorem near_knee : Near (threshold / limit) (28000 / rational limit) (2 ^ (-25 : ℤ)) := by
  obtain ⟨hknee, hknee'⟩ := edge.knee_bounds
  have h := (near_const rfl rational_threshold).div (near_const edge.limit_finite rfl) 0
    (abs_le_of_bounds (by linarith) hknee') edge.limit_bounds.1
  exact h.mono

theorem near_headroom :
    Near (1.0 - threshold / limit) (1 - 28000 / rational limit) (1 / 20000000) := by
  obtain ⟨hknee, hknee'⟩ := edge.knee_bounds
  have hone : Near 1.0 1 0 := near_const rfl rfl
  have h := hone.sub edge.near_knee (-2) (X := 1 / 6)
    (abs_le_of_bounds (by linarith) (by linarith))
  exact h.mono

theorem headroom_ge : 2 ^ (-3 : ℤ) ≤ rational (1.0 - threshold / limit) := by
  have hknee := edge.knee_bounds.2
  have hclose := (abs_le.mp edge.near_headroom.close).1
  norm_num at hclose ⊢
  linarith

theorem headroom_pos : 0 < rational (1.0 - threshold / limit) :=
  (zpow_pos two_pos _).trans_le edge.headroom_ge

theorem excess_finite (hx : x.isFinite = true) (h : 28000 ≤ rational x) :
    (x - threshold).isFinite = true ∧ ((x - threshold) / limit).isFinite = true ∧
      (excess x limit).isFinite = true := by
  have hover : (x - threshold).isFinite = true := by
    refine finite_of_rounds_le (sub_rounds hx rfl) hx ?_ ?_
    · rw [rational_threshold]
      linarith
    · rw [rational_threshold]
      linarith
  have hlimit : 2 ^ (14 : ℤ) ≤ rational limit := by
    norm_num
    linarith [edge.limit_bounds.1]
  -- The limit takes 14 powers of two off the largest number, and the headroom puts 3 of them on.
  obtain ⟨hshare, hsmall⟩ := finite_div (k := 114) hover edge.limit_finite hlimit
    (abs_rational_lt hover)
  exact ⟨hover, hshare,
    (finite_div (k := 118) hshare edge.near_headroom.finite edge.headroom_ge hsmall).1⟩

/-- Each of the operations keeps the order, rounding included. -/
theorem excess_mono (hx : x.isFinite = true) (hy : y.isFinite = true) (h : 28000 ≤ rational x)
    (hxy : rational x ≤ rational y) : rational (excess x limit) ≤ rational (excess y limit) := by
  obtain ⟨hover, hshare, hexcess⟩ := edge.excess_finite hx h
  obtain ⟨hover', hshare', hexcess'⟩ := edge.excess_finite hy (h.trans hxy)
  have hlimit : 0 < rational limit := by linarith [edge.limit_gt]
  have hheadroom := edge.headroom_pos
  have hovers : rational (x - threshold) ≤ rational (y - threshold) :=
    rational_le_of_rounds (sub_rounds hx rfl) (sub_rounds hy rfl) hover hover'
      (sub_le_sub_right hxy _)
  have hshares : rational ((x - threshold) / limit) ≤ rational ((y - threshold) / limit) :=
    rational_le_of_rounds (div_rounds hover edge.limit_finite hlimit.ne')
      (div_rounds hover' edge.limit_finite hlimit.ne') hshare hshare'
      (div_le_div_of_nonneg_right hovers hlimit.le)
  exact rational_le_of_rounds (div_rounds hshare edge.near_headroom.finite hheadroom.ne')
    (div_rounds hshare' edge.near_headroom.finite hheadroom.ne') hexcess hexcess'
    (div_le_div_of_nonneg_right hshares hheadroom.le)

theorem lt_last : 2 ^ (15 : ℤ) < rational last := by
  have hlast := edge.last_eq
  norm_num at hlast ⊢
  linarith [edge.cut_eq, edge.limit_bounds.1]

/-- A number before the cut is not above the last one before it. -/
theorem le_last (hlt : rational x < rational cut) : rational x ≤ rational last := by
  rcases lt_or_ge (rational x) (2 ^ (15 : ℤ)) with hsmall | hlarge
  · exact hsmall.le.trans edge.lt_last.le
  · -- From the power of two on the numbers are multiples of the distance between the two.
    obtain ⟨m, hm⟩ := exists_mul_two_zpow (k := -8) hlarge
    obtain ⟨n, hn⟩ := exists_mul_two_zpow (k := -8) (hlarge.trans hlt.le)
    have hspacing : (0 : ℚ) < 2 ^ (-8 : ℤ) := zpow_pos two_pos _
    rw [edge.last_eq]
    rw [hm, hn] at hlt ⊢
    have hmn : (m : ℚ) + 1 ≤ n := by
      exact_mod_cast Int.add_one_le_of_lt (Int.cast_lt.mp ((mul_lt_mul_iff_left₀ hspacing).mp hlt))
    linarith [mul_le_mul_of_nonneg_right hmn hspacing.le]

/-- The excess is cut off from the same number on as at exact numbers. -/
theorem three_le_excess_iff (hx : x.isFinite = true) (h : 28000 ≤ rational x) :
    (3.0 : Float32) ≤ excess x limit ↔ rational cut ≤ rational x := by
  have hlast : 28000 ≤ rational last := le_trans (by norm_num) edge.lt_last.le
  have hcut : 28000 ≤ rational cut := by linarith [edge.cut_eq, edge.limit_gt]
  have hat_cut := edge.at_cut
  have hat_last := edge.at_last
  rw [le_iff rfl (edge.excess_finite edge.cut_finite hcut).2.2] at hat_cut
  rw [le_iff rfl (edge.excess_finite edge.last_finite hlast).2.2] at hat_last
  rw [le_iff rfl (edge.excess_finite hx h).2.2]
  constructor
  · intro hthree
    by_contra! hlt
    exact hat_last (hthree.trans (edge.excess_mono hx edge.last_finite h (edge.le_last hlt)))
  · intro hle
    exact hat_cut.trans (edge.excess_mono edge.cut_finite hx hcut hle)

theorem near_excess (hx : x.isFinite = true) (h : 28000 ≤ rational x)
    (hcut : rational x < rational cut) :
    Near (excess x limit) ((rational x - 28000) / (rational limit - 28000)) (1 / 500000) := by
  obtain ⟨hlow, hhigh⟩ := edge.limit_bounds
  have hpos : 0 < rational limit := by linarith
  have hcut' : rational x ≤ 28000 + 3 * (rational limit - 28000) := edge.cut_eq ▸ hcut.le
  have hshare : (rational x - 28000) / rational limit ≤ 7 / 16 := by
    rw [div_le_iff₀ hpos]
    linarith
  have hexcess : (rational x - 28000) / (rational limit - 28000) ≤ 3 := by
    rw [div_le_iff₀ (sub_pos.mpr edge.limit_gt)]
    linarith
  have hquotient : (rational x - 28000) / rational limit / (1 - 28000 / rational limit) =
      (rational x - 28000) / (rational limit - 28000) := by
    rw [one_sub_div hpos.ne', div_div_div_cancel_right₀ hpos.ne']
  have hnearOver : Near (x - threshold) (rational x - 28000) (2 ^ (-11 : ℤ)) :=
    ((near_const hx rfl).sub (near_const rfl rational_threshold) 14 (X := 15000)
      (abs_le_of_bounds (by linarith) (by linarith))).mono
  have hnearShare : Near ((x - threshold) / limit) ((rational x - 28000) / rational limit)
      (1 / 30000000) :=
    (hnearOver.div (near_const edge.limit_finite rfl) (-1)
      (abs_le_of_bounds (div_nonneg (sub_nonneg.mpr h) hpos.le) hshare) hlow).mono
  have hbounded := abs_le_of_bounds (excess_nonneg edge.limit_gt h) hexcess
  rw [← hquotient] at hbounded ⊢
  exact (hnearShare.div edge.near_headroom 2 (Y := 1 / 7) hbounded
    (by linarith [edge.knee_bounds.2])).mono

theorem bend_of_cut_le (hx : x.isFinite = true) (hcut : rational cut ≤ rational x) :
    bend x limit = limit := by
  have hloud : 28000 ≤ rational x := by linarith [edge.cut_eq, edge.limit_gt]
  have htanh : tanh (excess x limit) = 1.0 :=
    if_pos ((edge.three_le_excess_iff hx hloud).mpr hcut)
  rw [bend_of_loud hx hloud, htanh, edge.full]

/-- The part above the threshold takes its share of the headroom, and the limit scales both. -/
theorem near_share {bent : Float32} {t : ℚ} (hbent : Near bent t (1 / 40000)) (ht : 0 ≤ t)
    (ht' : t ≤ 1) :
    Near ((threshold / limit + (1.0 - threshold / limit) * bent) * limit)
      (28000 + (rational limit - 28000) * t) (1 / 5) := by
  obtain ⟨hlow, hhigh⟩ := edge.limit_bounds
  obtain ⟨hknee, hknee'⟩ := edge.knee_bounds
  have hpos : 0 < rational limit := by linarith
  have hshare : 0 ≤ (1 - 28000 / rational limit) * t := mul_nonneg (by linarith) ht
  have hshare' : (1 - 28000 / rational limit) * t ≤ 1 - 28000 / rational limit :=
    mul_le_of_le_one_right (by linarith) ht'
  have hnearShare : Near ((1.0 - threshold / limit) * bent) ((1 - 28000 / rational limit) * t)
      (1 / 220000) :=
    (edge.near_headroom.mul hbent (-2) (X := 1 / 6)
      (abs_le_of_bounds (by linarith) (by linarith)) (abs_le_of_bounds ht ht')).mono
  have hbounded : |28000 / rational limit + (1 - 28000 / rational limit) * t| ≤ 1 :=
    abs_le_of_bounds (by linarith) (by linarith)
  have hnearSum : Near (threshold / limit + (1.0 - threshold / limit) * bent)
      (28000 / rational limit + (1 - 28000 / rational limit) * t) (1 / 200000) :=
    (edge.near_knee.add hnearShare 1 hbounded).mono
  have hscaled : 28000 + (rational limit - 28000) * t =
      (28000 / rational limit + (1 - 28000 / rational limit) * t) * rational limit := by
    field_simp
  rw [hscaled]
  exact (hnearSum.mul (near_const edge.limit_finite rfl) 16 hbounded
    (abs_le_of_bounds hpos.le hhigh)).mono

theorem near_bend_of_lt_cut (hx : x.isFinite = true) (h : 28000 ≤ rational x)
    (hcut : rational x < rational cut) :
    Near (bend x limit) (bend (rational x) (rational limit)) (1 / 5) := by
  have hexcess := excess_nonneg edge.limit_gt h
  have hexcess' : (rational x - 28000) / (rational limit - 28000) < 3 := by
    rw [div_lt_iff₀ (sub_pos.mpr edge.limit_gt)]
    linarith [edge.cut_eq]
  have hbelow : ¬ (3.0 : Float32) ≤ excess x limit := by
    rw [edge.three_le_excess_iff hx h]
    exact not_le.mpr hcut
  have htanh := near_tanh (edge.near_excess hx h hcut) hexcess hexcess' hbelow
  rw [bend_of_loud hx h, bend_of_ge edge.limit_gt h]
  exact edge.near_share htanh (tanh_nonneg hexcess) (tanh_le_one hexcess)

/-- A single-precision magnitude is bent like an exact one, up to a fifth of a level. -/
theorem near_bend (hx : x.isFinite = true) :
    Near (bend x limit) (bend (rational x) (rational limit)) (1 / 5) := by
  rcases lt_or_ge (rational x) 28000 with hlow | hloud
  · rw [bend_of_lt hlow, bend_of_quiet hx hlow]
    exact (near_const hx rfl).mono
  rcases lt_or_ge (rational x) (rational cut) with hcut | hcut
  · exact edge.near_bend_of_lt_cut hx hloud hcut
  · rw [edge.bend_of_cut_le hx hcut, bend_of_cut edge.limit_gt (by rwa [← edge.cut_eq])]
    exact (near_const edge.limit_finite rfl).mono

theorem rational_bend_bounds (hx : x.isFinite = true) (h : 0 ≤ rational x) :
    0 ≤ rational (bend x limit) ∧ rational (bend x limit) ≤ 65536 := by
  have hclose := abs_le.mp (edge.near_bend hx).close
  have hupper := bend_le_limit edge.limit_gt (rational x)
  refine ⟨?_, by linarith [edge.limit_bounds.2]⟩
  rcases lt_or_ge (rational x) 28000 with hlow | hloud
  · rwa [bend_of_quiet hx hlow]
  · linarith [le_bend edge.limit_gt hloud]

end Edge

/-! ## Levels at single precision -/

theorem level_eq_of_nonneg (hx : x.isFinite = true) (h : 0 ≤ rational x) :
    level x = min 32767 ⌊rational (bend x 32767.0)⌋ := by
  have hsign : ¬ x < 0.0 := by
    rw [lt_iff hx rfl, rational_zero]
    exact not_lt.mpr h
  obtain ⟨hnonneg, hle⟩ := edge_positive.rational_bend_bounds hx h
  rw [level, if_neg hsign]
  exact truncate_of_nonneg (edge_positive.near_bend hx).finite hnonneg hle

theorem level_eq_of_nonpos (hx : x.isFinite = true) (h : rational x ≤ 0) :
    level x = max (-32768) (-⌊rational (bend (-x) 32768.0)⌋) := by
  obtain ⟨hfinite, hneg⟩ := rational_neg hx
  rcases h.eq_or_lt with hzero | hlt
  · -- A zero of either sign counts as positive, and is not bent.
    rw [level_eq_of_nonneg hx hzero.ge, bend_of_quiet hx (by rw [hzero]; norm_num),
      bend_of_quiet hfinite (by rw [hneg, hzero]; norm_num), hneg, hzero]
    norm_num
  · have hsign : x < 0.0 := by rwa [lt_iff hx rfl, rational_zero]
    obtain ⟨hnonneg, hle⟩ := edge_negative.rational_bend_bounds hfinite (by linarith)
    rw [level, if_pos hsign]
    exact truncate_neg_of_nonneg (by decide) (by decide) (edge_negative.near_bend hfinite).finite
      hnonneg hle

theorem abs_floor_sub_le {p q : ℚ} (h : |p - q| ≤ 7 / 5) : |⌊p⌋ - ⌊q⌋| ≤ 2 := by
  obtain ⟨hlow, hhigh⟩ := abs_le.mp h
  have hp := Int.floor_le p
  have hp' := Int.lt_floor_add_one p
  have hq := Int.floor_le q
  have hq' := Int.lt_floor_add_one q
  have hlower : (-3 : ℚ) < ⌊p⌋ - ⌊q⌋ := by linarith
  have hupper : (⌊p⌋ - ⌊q⌋ : ℚ) < 3 := by linarith
  have hlower' : -3 < ⌊p⌋ - ⌊q⌋ := by exact_mod_cast hlower
  have hupper' : ⌊p⌋ - ⌊q⌋ < 3 := by exact_mod_cast hupper
  rw [abs_le]
  omega

section

variable (hx : x.isFinite = true) (hy : y.isFinite = true) (h : 0 ≤ rational x)
  (hxy : rational y = -rational x)

include hx hy h hxy

theorem sum_levels_of_mirror (hcuts : ¬ (42301 ≤ rational x ∧ rational x < 42304)) :
    |level x + level y| ≤ 2 := by
  obtain ⟨hfinite, hneg⟩ := rational_neg hy
  rw [hxy, neg_neg] at hneg
  have hpositive := abs_le.mp (edge_positive.near_bend hx).close
  have hnegative := abs_le.mp (edge_negative.near_bend hfinite).close
  have hbend := abs_le.mp (abs_bend_sub_le_one hcuts)
  rw [rational_positive] at hpositive
  rw [hneg, rational_negative] at hnegative
  have hclose : |rational (bend x 32767.0) - rational (bend (-y) 32768.0)| ≤ 7 / 5 := by
    rw [abs_le]
    constructor <;> linarith
  have hfloors := abs_le.mp (abs_floor_sub_le hclose)
  rw [level_eq_of_nonneg hx h, level_eq_of_nonpos hy (by linarith), abs_le]
  omega

theorem sum_levels_between_cuts (hcut : 42301 ≤ rational x) (hcut' : rational x < 42304) :
    level x + level y = 21 := by
  obtain ⟨hfinite, hneg⟩ := rational_neg hy
  rw [hxy, neg_neg] at hneg
  have hnegative := abs_le.mp (edge_negative.near_bend hfinite).close
  rw [hneg, rational_negative] at hnegative
  obtain ⟨hlow, hhigh⟩ := bend_between_cuts hcut hcut'
  norm_num at hlow hhigh
  have hfloor : ⌊rational (bend (-y) 32768.0)⌋ = 32746 := by
    rw [Int.floor_eq_iff]
    norm_num
    constructor <;> linarith
  have hfull : bend x 32767.0 = 32767.0 :=
    edge_positive.bend_of_cut_le hx (by rwa [rational_positive_cut])
  rw [level_eq_of_nonneg hx h, level_eq_of_nonpos hy (by linarith), hfull, hfloor,
    rational_positive]
  norm_num

end

/-- The levels of a sample and its opposite differ in magnitude by at most 2, unless the magnitude
of the sample is between the cuts of the two signs. There only the positive sample has jumped to its
limit, and the difference is 21. -/
theorem opposite_levels (hx : x.isFinite = true) :
    (42301.0 ≤ x.abs ∧ x.abs < 42304.0 → level x + level (-x) = 21) ∧
    (¬ (42301.0 ≤ x.abs ∧ x.abs < 42304.0) → |level x + level (-x)| ≤ 2) := by
  obtain ⟨habs, hmagnitude⟩ := rational_abs hx
  obtain ⟨hfinite, hneg⟩ := rational_neg hx
  rw [le_iff rfl habs, lt_iff habs rfl, hmagnitude, rational_positive_cut,
    rational_negative_cut]
  rcases le_total 0 (rational x) with h | h
  · rw [abs_of_nonneg h]
    exact ⟨fun hcuts => sum_levels_between_cuts hx hfinite h hneg hcuts.1 hcuts.2,
      sum_levels_of_mirror hx hfinite h hneg⟩
  · have hmirror : rational x = -rational (-x) := by rw [hneg, neg_neg]
    have h' : 0 ≤ rational (-x) := by linarith
    rw [abs_of_nonpos h, ← hneg, add_comm]
    exact ⟨fun hcuts => sum_levels_between_cuts hfinite hx h' hmirror hcuts.1 hcuts.2,
      sum_levels_of_mirror hfinite hx h' hmirror⟩

end

/-- A sample between the cuts, and a negative one beyond both of them. -/
theorem opposite_levels_loud :
    (42302.0 : Float32).isFinite = true ∧
    ((42301.0 : Float32) ≤ (42302.0 : Float32).abs ∧ (42302.0 : Float32).abs < 42304.0) ∧
    level (42302.0 : Float32) + level (-(42302.0 : Float32)) = 21 ∧
    (-50000.0 : Float32).isFinite = true ∧
    ¬ ((42301.0 : Float32) ≤ (-50000.0 : Float32).abs ∧ (-50000.0 : Float32).abs < 42304.0) ∧
    |level (-50000.0 : Float32) + level (-(-50000.0) : Float32)| ≤ 2 := by
  have hbetween : (42302.0 : Float32).isFinite = true := by decide
  have hcuts : (42301.0 : Float32) ≤ (42302.0 : Float32).abs ∧
      (42302.0 : Float32).abs < 42304.0 := by decide
  have hbeyond : (-50000.0 : Float32).isFinite = true := by decide
  have hcuts' : ¬ ((42301.0 : Float32) ≤ (-50000.0 : Float32).abs ∧
      (-50000.0 : Float32).abs < 42304.0) := by decide
  exact ⟨hbetween, hcuts, (opposite_levels hbetween).1 hcuts, hbeyond, hcuts',
    (opposite_levels hbeyond).2 hcuts'⟩

/-- Opposite samples need not have levels that differ by at most 2. -/
theorem opposite_levels_apart :
    ¬ ∀ x : Float32, x.isFinite = true → |level x + level (-x)| ≤ 2 := by
  intro hmirror
  have hfinite : (42302.0 : Float32).isFinite = true := by decide
  have hvalue : rational 42302.0 = 42302 := rfl
  obtain ⟨hfinite', hneg⟩ := rational_neg hfinite
  have hsum : level (42302.0 : Float32) + level (-42302.0 : Float32) = 21 :=
    sum_levels_between_cuts hfinite hfinite' (by norm_num [hvalue]) hneg (by norm_num [hvalue])
      (by norm_num [hvalue])
  have hclose := hmirror 42302.0 hfinite
  rw [hsum] at hclose
  exact absurd hclose (by decide)

end SignalPath.Limiter
