import WardleyMap.Proofs.Geometry.Zeros

/-!
# The place of a rectangle on the map

The corners of a rectangle with finite edges come to lie inside the map, whatever the size of the canvas is:
clamping keeps what is a number in the unit interval. Exchanging the edges of an axis gives the same rectangle
but for the signs of zeros, and so the same size and the same place.
-/

namespace WardleyMap

open Float.Model UnpackedFloat

variable {a b x : Float} {p q : Point}

/-! ### The unit interval -/

structure InUnit (x : Float) : Prop where
  isFinite : x.isFinite = true
  not_lt_zero : ¬x < 0.0
  not_one_lt : ¬1.0 < x

/-- Whatever is a number is clamped into the unit interval, infinities included. -/
theorem inUnit_clampUnit (h : x.isNaN = false) : InUnit (clampUnit x) := by
  unfold clampUnit
  split
  · exact ⟨by decide +kernel, by decide +kernel, by decide +kernel⟩
  · next hlow =>
      split
      · exact ⟨by decide +kernel, by decide +kernel, by decide +kernel⟩
      · next hhigh =>
          refine ⟨?_, hlow, hhigh⟩
          change x.toModel.unpack.isFinite = true
          change x.toModel.unpack.isNaN = false at h
          rw [lt_iff_compare] at hlow hhigh
          cases hx : x.toModel.unpack with
          | zero | finite => rfl
          | notANumber =>
              rw [hx] at h
              cases h
          | infinity s =>
              rw [hx] at hlow hhigh
              cases s with
              | negative => exact absurd rfl hlow
              | positive => exact absurd rfl hhigh

theorem InUnit.lesser (ha : InUnit a) (hb : InUnit b) : InUnit (lesser a b) := by
  rcases lesser_eq_or a b with h | h <;> rwa [h]

theorem InUnit.greater (ha : InUnit a) (hb : InUnit b) : InUnit (greater a b) := by
  rcases greater_eq_or a b with h | h <;> rwa [h]

theorem isFinite_lesser (ha : a.isFinite = true) (hb : b.isFinite = true) : (lesser a b).isFinite = true := by
  rcases lesser_eq_or a b with h | h <;> rwa [h]

theorem isFinite_greater (ha : a.isFinite = true) (hb : b.isFinite = true) : (greater a b).isFinite = true := by
  rcases greater_eq_or a b with h | h <;> rwa [h]

theorem not_lt_of_le (h : a ≤ b) : ¬b < a := by
  rcases le_iff.mp h with hlt | heq
  · exact not_lt_of_lt hlt
  · rw [lt_iff_compare, compare_swap, beq_iff_compare.mp heq]
    decide

theorem not_greater_lt_lesser (ha : a.isFinite = true) (hb : b.isFinite = true) :
    ¬greater a b < lesser a b :=
  not_lt_of_le (lesser_greater_cases (isNaN_of_isFinite ha) (isNaN_of_isFinite hb)).1

/-! ### Positions -/

namespace Position

def Coincides (p q : Position) : Prop :=
  (p.maturity == q.maturity) = true ∧ (p.visibility == q.visibility) = true

structure IsInside (p : Position) : Prop where
  maturity : InUnit p.maturity
  visibility : InUnit p.visibility

/-- The edges of the region between two positions, in the order in which they are written: the top, the left,
the bottom and the right. -/
def edges (first second : Position) : List Float :=
  [greater first.visibility second.visibility, lesser first.maturity second.maturity,
    lesser first.visibility second.visibility, greater first.maturity second.maturity]

theorem inUnit_of_mem_edges {first second : Position} (hfirst : first.IsInside) (hsecond : second.IsInside) :
    ∀ x ∈ first.edges second, InUnit x := by
  intro x hx
  simp only [edges, List.mem_cons, List.not_mem_nil, or_false] at hx
  rcases hx with rfl | rfl | rfl | rfl
  · exact hfirst.visibility.greater hsecond.visibility
  · exact hfirst.maturity.lesser hsecond.maturity
  · exact hfirst.visibility.lesser hsecond.visibility
  · exact hfirst.maturity.greater hsecond.maturity

/-- A finite point is some position, as a canvas without extent does not divide by zero. -/
theorem isNaN_ofPoint (hp : p.IsFinite) (viewport : Viewport) :
    (ofPoint p viewport false).maturity.isNaN = false ∧ (ofPoint p viewport false).visibility.isNaN = false := by
  have hquotient : ∀ {x size : Float}, x.isFinite = true → 0.0 < size → (x / size).isNaN = false :=
    fun hx hsize => isNaN_pack (isNaN_div hx (lt_iff_compare.mp hsize))
  have hone : (1.0 : Float).isFinite = true := by decide +kernel
  refine ⟨?_, ?_⟩
  · change (if 0.0 < viewport.width then p.x / viewport.width else 0.0).isNaN = false
    split
    · next hwidth => exact hquotient hp.1 hwidth
    · decide +kernel
  · change (if 0.0 < viewport.height then 1.0 - p.y / viewport.height else 0.0).isNaN = false
    split
    · next hheight => exact isNaN_pack (isNaN_sub hone (hquotient hp.2 hheight))
    · decide +kernel

theorem ofPoint_true (p : Point) (viewport : Viewport) :
    ofPoint p viewport true = (ofPoint p viewport false).clamped := rfl

theorem isInside_ofPoint (hp : p.IsFinite) (viewport : Viewport) : (ofPoint p viewport true).IsInside := by
  obtain ⟨hmaturity, hvisibility⟩ := isNaN_ofPoint hp viewport
  rw [ofPoint_true]
  exact ⟨inUnit_clampUnit hmaturity, inUnit_clampUnit hvisibility⟩

/-- Zeros of either sign at the point give equal positions, if these are clamped. -/
theorem ofPoint_congr (hp : p.IsFinite) (h : p.Coincides q) (viewport : Viewport) :
    (ofPoint p viewport true).Coincides (ofPoint q viewport true) := by
  have hone : (1.0 : Float).isFinite = true := by decide +kernel
  have hself : ((1.0 : Float) == 1.0) = true := by decide +kernel
  have hzero : ((0.0 : Float) == 0.0) = true := by decide +kernel
  have hmaturity : ((ofPoint p viewport false).maturity == (ofPoint q viewport false).maturity) = true := by
    change ((if 0.0 < viewport.width then p.x / viewport.width else 0.0)
      == (if 0.0 < viewport.width then q.x / viewport.width else 0.0)) = true
    split
    · next hwidth => exact div_congr hp.1 h.1 hwidth
    · exact hzero
  have hvisibility :
      ((ofPoint p viewport false).visibility == (ofPoint q viewport false).visibility) = true := by
    change ((if 0.0 < viewport.height then 1.0 - p.y / viewport.height else 0.0)
      == (if 0.0 < viewport.height then 1.0 - q.y / viewport.height else 0.0)) = true
    split
    · next hheight => exact sub_congr hone hself (div_congr hp.2 h.2 hheight)
    · exact hzero
  rw [ofPoint_true, ofPoint_true]
  exact ⟨clampUnit_congr hmaturity, clampUnit_congr hvisibility⟩

end Position

/-! ### Rectangles -/

namespace Rect

variable {r s : Rect}

structure IsFinite (r : Rect) : Prop where
  x0 : r.x0.isFinite = true
  y0 : r.y0.isFinite = true
  x1 : r.x1.isFinite = true
  y1 : r.y1.isFinite = true

structure Coincides (r s : Rect) : Prop where
  x0 : (r.x0 == s.x0) = true
  y0 : (r.y0 == s.y0) = true
  x1 : (r.x1 == s.x1) = true
  y1 : (r.y1 == s.y1) = true

def flipX (r : Rect) : Rect :=
  ⟨r.x1, r.y0, r.x0, r.y1⟩

def flipY (r : Rect) : Rect :=
  ⟨r.x0, r.y1, r.x1, r.y0⟩

theorem IsFinite.flipX (h : r.IsFinite) : r.flipX.IsFinite :=
  ⟨h.x1, h.y0, h.x0, h.y1⟩

theorem IsFinite.flipY (h : r.IsFinite) : r.flipY.IsFinite :=
  ⟨h.x0, h.y1, h.x1, h.y0⟩

theorem IsFinite.upright (h : r.IsFinite) : r.upright.IsFinite :=
  ⟨isFinite_lesser h.x0 h.x1, isFinite_lesser h.y0 h.y1, isFinite_greater h.x0 h.x1, isFinite_greater h.y0 h.y1⟩

theorem upright_flipX (h : r.IsFinite) : r.flipX.upright.Coincides r.upright := by
  obtain ⟨hlesser, hgreater⟩ := lesser_greater_comm (isNaN_of_isFinite h.x1) (isNaN_of_isFinite h.x0)
  have hupright := h.upright
  exact ⟨hlesser, beq_self (isNaN_of_isFinite hupright.y0), hgreater, beq_self (isNaN_of_isFinite hupright.y1)⟩

theorem upright_flipY (h : r.IsFinite) : r.flipY.upright.Coincides r.upright := by
  obtain ⟨hlesser, hgreater⟩ := lesser_greater_comm (isNaN_of_isFinite h.y1) (isNaN_of_isFinite h.y0)
  have hupright := h.upright
  exact ⟨beq_self (isNaN_of_isFinite hupright.x0), hlesser, beq_self (isNaN_of_isFinite hupright.x1), hgreater⟩

theorem isAtLeast_congr (hr : r.IsFinite) (h : r.upright.Coincides s.upright) (size : Float) :
    r.isAtLeast size = s.isAtLeast size := by
  have hupright := hr.upright
  have hwidth : (r.upright.width == s.upright.width) = true := sub_congr hupright.x1 h.x1 h.x0
  have hheight : (r.upright.height == s.upright.height) = true := sub_congr hupright.y1 h.y1 h.y0
  rw [isAtLeast, isAtLeast, decide_eq_decide.mpr (le_congr_right size hwidth),
    decide_eq_decide.mpr (le_congr_right size hheight)]

theorem IsFinite.corners (h : r.IsFinite) :
    Point.IsFinite ⟨r.upright.x0, r.upright.y0⟩ ∧ Point.IsFinite ⟨r.upright.x1, r.upright.y1⟩ :=
  ⟨⟨h.upright.x0, h.upright.y0⟩, ⟨h.upright.x1, h.upright.y1⟩⟩

theorem Coincides.corners (h : r.Coincides s) :
    Point.Coincides ⟨r.x0, r.y0⟩ ⟨s.x0, s.y0⟩ ∧ Point.Coincides ⟨r.x1, r.y1⟩ ⟨s.x1, s.y1⟩ :=
  ⟨⟨h.x0, h.y0⟩, ⟨h.x1, h.y1⟩⟩

/-- The rectangles have the same place on the map. -/
theorem position_congr (hr : r.IsFinite) (h : r.upright.Coincides s.upright) (viewport : Viewport) :
    (r.topLeft viewport).Coincides (s.topLeft viewport) ∧
      (r.bottomRight viewport).Coincides (s.bottomRight viewport) := by
  obtain ⟨hfirst, hsecond⟩ := hr.corners
  obtain ⟨hfirst', hsecond'⟩ := h.corners
  exact ⟨Position.ofPoint_congr hfirst hfirst' viewport, Position.ofPoint_congr hsecond hsecond' viewport⟩

/-- The corners of a rectangle lie inside the map. -/
theorem isInside_position (hr : r.IsFinite) (viewport : Viewport) :
    (r.topLeft viewport).IsInside ∧ (r.bottomRight viewport).IsInside :=
  ⟨Position.isInside_ofPoint hr.corners.1 viewport, Position.isInside_ofPoint hr.corners.2 viewport⟩

end Rect

end WardleyMap
