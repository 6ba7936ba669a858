import WardleyMap.Geometry

/-!
# The order of doubles

Comparing two doubles the other way round gives the opposite result, or none both times. So of two
numbers one of which is less than the other, the lesser and the greater one are known, and neither is
passed over as not being a number.
-/

namespace WardleyMap

open Float.Model UnpackedFloat

theorem compare_magnitude_swap (m m' : Nat) (e e' : Int) :
    (compare e' e).then (compare m' m) = ((compare e e').then (compare m m')).swap := by
  rw [Ordering.swap_then, ← Std.OrientedCmp.eq_swap, ← Std.OrientedCmp.eq_swap]

/-- Comparing two doubles the other way round gives the opposite answer, or none both times. -/
theorem compare_swap (a b : UnpackedFloat) : b.compare a = (a.compare b).map Ordering.swap := by
  cases a with
  | notANumber =>
      cases b with
      | notANumber | infinity | zero | finite => rfl
  | infinity s =>
      cases b with
      | notANumber => cases s <;> rfl
      | infinity s' => cases s <;> cases s' <;> rfl
      | zero | finite => cases s <;> rfl
  | zero s =>
      cases b with
      | notANumber | zero => rfl
      | infinity s' => cases s' <;> rfl
      | finite s' => cases s' <;> rfl
  | finite s m e =>
      cases b with
      | notANumber => rfl
      | infinity s' => cases s' <;> rfl
      | zero => cases s <;> rfl
      | finite s' m' e' =>
          have hswap := compare_magnitude_swap m m' e e'
          cases s with
          | negative =>
              cases s' with
              | negative => exact congrArg (fun order => some order.swap) hswap
              | positive => rfl
          | positive =>
              cases s' with
              | negative => rfl
              | positive => exact congrArg some hswap

variable {a b : Float}

theorem lt_iff_compare : a < b ↔ a.toModel.unpack.compare b.toModel.unpack = some .lt := by
  change Float.lt a b = true ↔ _
  rw [Float.lt, decide_eq_true_iff]
  change UnpackedFloat.lt _ _ = true ↔ _
  rw [UnpackedFloat.lt, beq_iff_eq]

theorem not_lt_of_lt (h : a < b) : ¬b < a := by
  rw [lt_iff_compare] at h ⊢
  rw [compare_swap, h]
  decide

theorem isNaN_left_of_lt (h : a < b) : a.isNaN = false := by
  rw [lt_iff_compare] at h
  change a.toModel.unpack.isNaN = false
  cases ha : a.toModel.unpack with
  | notANumber =>
      rw [ha] at h
      cases h
  | infinity | zero | finite => rfl

theorem isNaN_right_of_lt (h : a < b) : b.isNaN = false := by
  rw [lt_iff_compare, compare_swap] at h
  change b.toModel.unpack.isNaN = false
  cases hb : b.toModel.unpack with
  | notANumber =>
      rw [hb] at h
      cases h
  | infinity | zero | finite => rfl

/-! ### The lesser and the greater of two numbers -/

theorem lesser_of_lt (h : a < b) : lesser a b = a := by
  rw [lesser, isNaN_right_of_lt h, if_neg Bool.false_ne_true, if_pos h]

theorem lesser_of_gt (h : b < a) : lesser a b = b := by
  rw [lesser, isNaN_left_of_lt h, if_neg Bool.false_ne_true, if_neg (not_lt_of_lt h)]

theorem greater_of_lt (h : a < b) : greater a b = b := by
  rw [greater, isNaN_right_of_lt h, if_neg Bool.false_ne_true, if_neg (not_lt_of_lt h)]

theorem greater_of_gt (h : b < a) : greater a b = a := by
  rw [greater, isNaN_left_of_lt h, if_neg Bool.false_ne_true, if_pos h]

theorem lesser_eq_or (a b : Float) : lesser a b = a ∨ lesser a b = b := by
  unfold lesser
  split
  · exact .inl rfl
  · split
    · exact .inl rfl
    · exact .inr rfl

theorem greater_eq_or (a b : Float) : greater a b = a ∨ greater a b = b := by
  unfold greater
  split
  · exact .inl rfl
  · split
    · exact .inl rfl
    · exact .inr rfl

end WardleyMap
