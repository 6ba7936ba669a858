import WardleyMap.Gesture.Tool
import WardleyMap.Proofs.Geometry.Motion

/-!
# Upright rectangles

Two finite doubles are ordered one way or the other, or they are equal, so the lesser and the greater of them
are the two again. A rectangle that is made upright thus keeps its vertices: whichever way round its corners
were given, on either axis, two opposite vertices of it are where they were (`Rect.isUpright_spans_ofCorners`). Of equal
coordinates nothing more can be said than that they are equal, since zeros have a sign.
-/

namespace WardleyMap

open Float.Model UnpackedFloat

variable {a b : Float} {p q : Point}

/-! ### Comparing numbers -/

theorem isNaN_of_isFinite (h : a.isFinite = true) : a.isNaN = false := by
  change a.toModel.unpack.isFinite = true at h
  change a.toModel.unpack.isNaN = false
  cases ha : a.toModel.unpack with
  | notANumber =>
      rw [ha] at h
      cases h
  | infinity | zero | finite => rfl

/-- Two numbers can always be compared. -/
theorem compare_ne_none {a b : UnpackedFloat} (ha : a.isNaN = false) (hb : b.isNaN = false) :
    a.compare b ≠ none := by
  cases a with
  | notANumber => cases ha
  | infinity s =>
      cases b with
      | notANumber => cases hb
      | infinity s' | zero s' | finite s' => cases s <;> exact Option.some_ne_none _
  | zero s =>
      cases b with
      | notANumber => cases hb
      | infinity s' | finite s' => cases s' <;> exact Option.some_ne_none _
      | zero s' => exact Option.some_ne_none _
  | finite s =>
      cases b with
      | notANumber => cases hb
      | infinity s' | zero s' | finite s' => cases s <;> cases s' <;> exact Option.some_ne_none _

theorem compare_self {a : UnpackedFloat} (ha : a.isNaN = false) : a.compare a = some .eq := by
  -- turned around, the comparison is the same
  have hswap := compare_swap a a
  cases horder : a.compare a with
  | none => exact absurd horder (compare_ne_none ha ha)
  | some order =>
      rw [horder] at hswap
      cases order with
      | lt | gt => exact absurd (Option.some.inj hswap) (by decide)
      | eq => rfl

theorem beq_self (ha : a.isNaN = false) : (a == a) = true :=
  beq_iff_compare.mpr (compare_self ha)

theorem beq_comm : (a == b) = true ↔ (b == a) = true := by
  rw [beq_iff_compare, beq_iff_compare, compare_swap]
  cases b.toModel.unpack.compare a.toModel.unpack with
  | none => decide
  | some order => cases order <;> decide

theorem le_iff : a ≤ b ↔ a < b ∨ (a == b) = true := by
  rw [lt_iff_compare, beq_iff_compare]
  change Float.le a b = true ↔ _
  rw [Float.le, decide_eq_true_iff]
  change UnpackedFloat.le _ _ = true ↔ _
  rw [UnpackedFloat.le]
  cases a.toModel.unpack.compare b.toModel.unpack with
  | none => decide
  | some order => cases order <;> decide

theorem lt_or_gt_or_beq (ha : a.isNaN = false) (hb : b.isNaN = false) :
    a < b ∨ b < a ∨ (a == b) = true := by
  rw [lt_iff_compare, lt_iff_compare, beq_iff_compare, compare_swap a.toModel.unpack]
  cases horder : a.toModel.unpack.compare b.toModel.unpack with
  | none => exact absurd horder (compare_ne_none ha hb)
  | some order => cases order <;> decide

/-- The lesser and the greater of two numbers are the two, in this order or in the other. -/
theorem lesser_greater_cases (ha : a.isNaN = false) (hb : b.isNaN = false) :
    lesser a b ≤ greater a b ∧
      (((lesser a b == a) = true ∧ (greater a b == b) = true) ∨
        ((lesser a b == b) = true ∧ (greater a b == a) = true)) := by
  rcases lt_or_gt_or_beq ha hb with hlt | hgt | heq
  · rw [lesser_of_lt hlt, greater_of_lt hlt]
    exact ⟨le_iff.mpr (.inl hlt), .inl ⟨beq_self ha, beq_self hb⟩⟩
  · rw [lesser_of_gt hgt, greater_of_gt hgt]
    exact ⟨le_iff.mpr (.inl hgt), .inr ⟨beq_self hb, beq_self ha⟩⟩
  · have hself := beq_self hb
    have hba := beq_comm.mp heq
    rcases lesser_eq_or a b with hlesser | hlesser <;> rcases greater_eq_or a b with hgreater | hgreater <;>
      rw [hlesser, hgreater]
    · exact ⟨le_iff.mpr (.inr (beq_self ha)), .inl ⟨beq_self ha, heq⟩⟩
    · exact ⟨le_iff.mpr (.inr heq), .inl ⟨beq_self ha, hself⟩⟩
    · exact ⟨le_iff.mpr (.inr hba), .inr ⟨hself, beq_self ha⟩⟩
    · exact ⟨le_iff.mpr (.inr hself), .inl ⟨hba, hself⟩⟩

/-! ### Vertices -/

namespace Rect

def IsUpright (r : Rect) : Prop :=
  r.x0 ≤ r.x1 ∧ r.y0 ≤ r.y1

/-- The two points are opposite vertices of the rectangle. -/
def Spans (r : Rect) (p q : Point) : Prop :=
  ∃ corner : Corner, (corner.of r).Coincides p ∧ (corner.opposite.of r).Coincides q

theorem isUpright_spans_ofCorners (hp : p.IsFinite) (hq : q.IsFinite) :
    (ofCorners p q).IsUpright ∧ (ofCorners p q).Spans p q := by
  obtain ⟨hx, hxs⟩ := lesser_greater_cases (isNaN_of_isFinite hp.1) (isNaN_of_isFinite hq.1)
  obtain ⟨hy, hys⟩ := lesser_greater_cases (isNaN_of_isFinite hp.2) (isNaN_of_isFinite hq.2)
  refine ⟨⟨hx, hy⟩, ?_⟩
  rcases hxs with ⟨hleft, hright⟩ | ⟨hleft, hright⟩ <;> rcases hys with ⟨htop, hbottom⟩ | ⟨htop, hbottom⟩
  · exact ⟨.topLeft, ⟨hleft, htop⟩, ⟨hright, hbottom⟩⟩
  · exact ⟨.bottomLeft, ⟨hleft, hbottom⟩, ⟨hright, htop⟩⟩
  · exact ⟨.topRight, ⟨hright, htop⟩, ⟨hleft, hbottom⟩⟩
  · exact ⟨.bottomRight, ⟨hright, hbottom⟩, ⟨hleft, htop⟩⟩

end Rect

end WardleyMap
