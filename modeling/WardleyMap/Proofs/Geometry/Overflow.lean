import WardleyMap.Proofs.Geometry.Bounds

/-!
# Bounds that are too great

The right and the lower edge of requested bounds are sums, and the sum of two finite numbers may be infinite. It is
a number still, and so is its quotient by the size of the canvas, as long as that size is finite: an infinite one
would leave something that is not a number. Clamping brings an infinite quotient back to the edge of the map, so
such bounds have their place inside the map like all others.
-/

namespace WardleyMap

open Float.Model UnpackedFloat

variable {a b : Float}

/-- A sum of finite numbers may overflow, but it is a number. -/
theorem isNaN_add {u v : UnpackedFloat} (hu : u.isFinite = true) (hv : v.isFinite = true) :
    (UnpackedFloat.add .binary64 u v).isNaN = false := by
  cases u with
  | notANumber | infinity => cases hu
  | zero s =>
      cases v with
      | notANumber | infinity => cases hv
      | zero s' => cases s <;> cases s' <;> rfl
      | finite => rfl
  | finite s m e hm =>
      cases v with
      | notANumber | infinity => cases hv
      | zero => rfl
      | finite s' m' e' hm' => exact isNaN_normalize _ _ _

theorem isNaN_sum (ha : a.isFinite = true) (hb : b.isFinite = true) : (a + b).isNaN = false := by
  change (Float.Model.pack (UnpackedFloat.add .binary64 a.toModel.unpack b.toModel.unpack)).unpack.isNaN = false
  exact isNaN_pack (isNaN_add ha hb)

/-- A number over a positive finite one is a number, even if it is infinite. -/
theorem isNaN_div_of_isFinite {u v : UnpackedFloat} (hu : u.isNaN = false) (hv : v.isFinite = true)
    (hpos : (UnpackedFloat.zero .positive).compare v = some .lt) :
    (UnpackedFloat.div .binary64 u v).isNaN = false := by
  cases u with
  | notANumber => cases hu
  | zero | finite => exact isNaN_div rfl hpos
  | infinity s =>
      cases v with
      | notANumber | infinity => cases hv
      | zero | finite => rfl

theorem isNaN_lesser (ha : a.isNaN = false) (hb : b.isNaN = false) : (lesser a b).isNaN = false := by
  rcases lesser_eq_or a b with h | h <;> rwa [h]

theorem isNaN_greater (ha : a.isNaN = false) (hb : b.isNaN = false) : (greater a b).isNaN = false := by
  rcases greater_eq_or a b with h | h <;> rwa [h]

structure Viewport.IsFinite (viewport : Viewport) : Prop where
  width : viewport.width.isFinite = true
  height : viewport.height.isFinite = true

/-- A point of a finite canvas has its place inside the map, however far off it is. -/
theorem Position.isInside_ofPoint_of_isNaN {x y : Float} (hx : x.isNaN = false) (hy : y.isNaN = false)
    {viewport : Viewport} (hviewport : viewport.IsFinite) : (ofPoint ⟨x, y⟩ viewport true).IsInside := by
  have hquotient : ∀ {x size : Float}, x.isNaN = false → size.isFinite = true → 0.0 < size →
      (x / size).isNaN = false := fun hx hsize hpos =>
    isNaN_pack (isNaN_div_of_isFinite hx hsize (lt_iff_compare.mp hpos))
  have hone : (1.0 : Float).isFinite = true := by decide +kernel
  rw [ofPoint_true]
  refine ⟨inUnit_clampUnit ?_, inUnit_clampUnit ?_⟩
  · change (if 0.0 < viewport.width then x / viewport.width else 0.0).isNaN = false
    split
    · next hwidth => exact hquotient hx hviewport.width hwidth
    · decide +kernel
  · change (if 0.0 < viewport.height then 1.0 - y / viewport.height else 0.0).isNaN = false
    split
    · next hheight => exact isNaN_pack (isNaN_sub hone (hquotient hy hviewport.height hheight))
    · decide +kernel

namespace Rect

def ofSize (x y width height : Float) : Rect :=
  ⟨x, y, x + width, y + height⟩

/-- The corners of a rectangle on a finite canvas lie inside the map, even if its other corner is out of the range
of finite numbers. -/
theorem isInside_position_ofSize {x y width height : Float} (hx : x.isFinite = true) (hy : y.isFinite = true)
    (hwidth : width.isFinite = true) (hheight : height.isFinite = true) {viewport : Viewport}
    (hviewport : viewport.IsFinite) :
    ((ofSize x y width height).topLeft viewport).IsInside ∧
      ((ofSize x y width height).bottomRight viewport).IsInside := by
  have hx1 : (x + width).isNaN = false := isNaN_sum hx hwidth
  have hy1 : (y + height).isNaN = false := isNaN_sum hy hheight
  have hx := isNaN_of_isFinite hx
  have hy := isNaN_of_isFinite hy
  exact ⟨Position.isInside_ofPoint_of_isNaN (isNaN_lesser hx hx1) (isNaN_lesser hy hy1) hviewport,
    Position.isInside_ofPoint_of_isNaN (isNaN_greater hx hx1) (isNaN_greater hy hy1) hviewport⟩

end Rect

end WardleyMap
