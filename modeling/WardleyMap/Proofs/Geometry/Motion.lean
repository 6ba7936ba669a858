import WardleyMap.Gesture.Drag
import WardleyMap.Proofs.Geometry.Order

/-!
# A pointer that has not moved

A drag counts for nothing if its displacement is zero on both axes. The difference of two equal finite doubles is
a zero, of either sign, and so is what is left of it along one axis: a pointer that is released where it was
pressed has not moved, whether or not the drag keeps to an axis. Of infinite coordinates this cannot be said,
since their difference is not a number.
-/

namespace WardleyMap

open Float.Model UnpackedFloat

/-! ### Differences -/

theorem sub_self_finite (sign : Sign) (m : Nat) (e : Int) (hm : 0 < m) :
    UnpackedFloat.sub .binary64 (.finite sign m e hm) (.finite sign m e hm) = .zero .positive := by
  change UnpackedFloat.normalize _ (_ - _) _ _ = _
  rw [Int.sub_self]
  rfl

/-- Two finite numbers that are equal are zeros, or they are the same. -/
theorem sub_of_compare_eq {a b : UnpackedFloat} (ha : a.isFinite = true)
    (h : a.compare b = some .eq) : ∃ sign, UnpackedFloat.sub .binary64 a b = .zero sign := by
  cases a with
  | notANumber | infinity => cases ha
  | zero sign =>
      cases b with
      | notANumber => cases h
      | infinity sign' => cases sign' <;> cases h
      | finite sign' => cases sign' <;> cases h
      | zero sign' => cases sign <;> cases sign' <;> exact ⟨_, rfl⟩
  | finite sign m e hm =>
      cases b with
      | notANumber => cases sign <;> cases h
      | infinity sign' => cases sign <;> cases sign' <;> cases h
      | zero sign' => cases sign <;> cases h
      | finite sign' m' e' hm' =>
          -- Magnitudes are compared by exponent and then mantissa, in reverse if both are negative.
          have hsame : sign = sign' ∧ (compare e e').then (compare m m') = .eq := by
            cases sign with
            | negative =>
                cases sign' with
                | negative => exact ⟨rfl, Ordering.swap_eq_eq.mp (Option.some.inj h)⟩
                | positive => cases h
            | positive =>
                cases sign' with
                | negative => cases h
                | positive => exact ⟨rfl, Option.some.inj h⟩
          obtain ⟨rfl, hmagnitude⟩ := hsame
          obtain ⟨he, hm⟩ := Ordering.then_eq_eq.mp hmagnitude
          obtain rfl := Int.compare_eq_eq.mp he
          obtain rfl := Nat.compare_eq_eq.mp hm
          exact ⟨.positive, sub_self_finite sign m e hm'⟩

variable {a b : Float}

theorem beq_iff_compare : (a == b) = true ↔ a.toModel.unpack.compare b.toModel.unpack = some .eq := by
  change (a.toModel.unpack.compare b.toModel.unpack == some .eq) = true ↔ _
  rw [beq_iff_eq]

theorem sub_beq_zero (ha : a.isFinite = true) (h : (a == b) = true) : (a - b == 0.0) = true := by
  obtain ⟨sign, hsub⟩ := sub_of_compare_eq ha (beq_iff_compare.mp h)
  change ((pack (UnpackedFloat.sub .binary64 a.toModel.unpack b.toModel.unpack)).unpack.beq _) = true
  rw [hsub]
  cases sign <;> decide +kernel

/-! ### Displacements -/

def Point.IsFinite (p : Point) : Prop :=
  p.x.isFinite = true ∧ p.y.isFinite = true

/-- Both coordinates are equal as numbers, zeros of either sign included. -/
def Point.Coincides (p q : Point) : Prop :=
  (p.x == q.x) = true ∧ (p.y == q.y) = true

theorem Vec.isNonzero_eq_false_iff {v : Vec} :
    v.isNonzero = false ↔ (v.dx == 0.0) = true ∧ (v.dy == 0.0) = true := by
  simp [isNonzero, bne]

theorem Vec.isNonzero_alongAxis {v : Vec} (h : v.isNonzero = false) : v.alongAxis.isNonzero = false := by
  obtain ⟨hdx, hdy⟩ := isNonzero_eq_false_iff.mp h
  have hzero : ((0.0 : Float) == 0.0) = true := by decide +kernel
  unfold alongAxis
  split
  · exact isNonzero_eq_false_iff.mpr ⟨hdx, hzero⟩
  · exact isNonzero_eq_false_iff.mpr ⟨hzero, hdy⟩

theorem Drag.isNonzero_delta {d : Drag} (hfinite : d.current.IsFinite)
    (h : d.current.Coincides d.start) : d.delta.isNonzero = false := by
  have hdelta : (d.current.sub d.start).isNonzero = false :=
    Vec.isNonzero_eq_false_iff.mpr ⟨sub_beq_zero hfinite.1 h.1, sub_beq_zero hfinite.2 h.2⟩
  unfold delta
  dsimp only
  split
  · exact Vec.isNonzero_alongAxis hdelta
  · exact hdelta

end WardleyMap
