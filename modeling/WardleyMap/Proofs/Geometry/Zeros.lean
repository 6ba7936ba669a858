import WardleyMap.Position
import WardleyMap.Proofs.Decimal.Double
import WardleyMap.Proofs.Geometry.Rectangle

/-!
# Zeros of either sign

Two doubles that are equal as numbers are the same double, or they are two zeros whose signs may differ. The
signs of zeros go through the arithmetic of positions, but no comparison sees them. So numbers may be exchanged
for equal ones in all that leads from the bounds of a region to its place on the map, and the place comes
out with equal numbers. That none of them is not a number is shown on the way: only an infinite number could
lead there.
-/

namespace WardleyMap

open Float.Model UnpackedFloat

variable {a b c a' b' : Float}

/-! ### Equal numbers -/

theorem eq_of_unpack_eq (h : a.toModel.unpack = b.toModel.unpack) : a = b := by
  obtain ⟨a, ha⟩ := a
  obtain ⟨b, hb⟩ := b
  have hbits : a.toBitVec = b.toBitVec := (unpack_inj_of_valid ha hb).mp h
  obtain rfl : a = b := UInt64.toBitVec_inj.mp hbits
  rfl

theorem eq_or_zeros_of_beq (h : (a == b) = true) :
    a = b ∨ ∃ s s', a.toModel.unpack = .zero s ∧ b.toModel.unpack = .zero s' := by
  change a.toModel.unpack.beq b.toModel.unpack = true at h
  obtain ⟨-, -, hsame | ⟨ha, hb⟩ | ⟨ha, hb⟩⟩ := (beq_iff_ne_notANumber_and_eq _ _).mp h
  · exact .inl (eq_of_unpack_eq hsame)
  · exact .inr ⟨_, _, ha, hb⟩
  · exact .inr ⟨_, _, ha, hb⟩

theorem beq_of_zeros {s s' : Sign} (ha : a.toModel.unpack = .zero s) (hb : b.toModel.unpack = .zero s') :
    (a == b) = true := by
  rw [beq_iff_compare, ha, hb]
  rfl

theorem beq_trans (hab : (a == b) = true) (hbc : (b == c) = true) : (a == c) = true := by
  rcases eq_or_zeros_of_beq hab with rfl | ⟨s, s', ha, hb⟩
  · exact hbc
  · rcases eq_or_zeros_of_beq hbc with rfl | ⟨t, t', -, hc⟩
    · exact hab
    · exact beq_of_zeros ha hc

theorem isNaN_of_beq (h : (a == b) = true) : a.isNaN = false ∧ b.isNaN = false := by
  change a.toModel.unpack.beq b.toModel.unpack = true at h
  obtain ⟨ha, hb, -⟩ := (beq_iff_ne_notANumber_and_eq _ _).mp h
  change a.toModel.unpack.isNaN = false ∧ b.toModel.unpack.isNaN = false
  rw [← Bool.not_eq_true, ← Bool.not_eq_true, isNaN_iff, isNaN_iff]
  exact ⟨ha, hb⟩

/-! ### Comparing equal numbers -/

theorem compare_congr_left (h : (a == a') = true) (u : UnpackedFloat) :
    a.toModel.unpack.compare u = a'.toModel.unpack.compare u := by
  rcases eq_or_zeros_of_beq h with rfl | ⟨s, s', ha, ha'⟩
  · rfl
  · rw [ha, ha']
    cases u with
    | notANumber | zero => rfl
    | infinity t | finite t => cases t <;> rfl

theorem compare_congr (ha : (a == a') = true) (hb : (b == b') = true) :
    a.toModel.unpack.compare b.toModel.unpack = a'.toModel.unpack.compare b'.toModel.unpack := by
  rw [compare_congr_left ha, compare_swap b.toModel.unpack, compare_congr_left hb, ← compare_swap]

theorem lt_congr (ha : (a == a') = true) (hb : (b == b') = true) : a < b ↔ a' < b' := by
  rw [lt_iff_compare, lt_iff_compare, compare_congr ha hb]

theorem le_congr_right (a : Float) (h : (b == b') = true) : a ≤ b ↔ a ≤ b' := by
  have hcompare : a.toModel.unpack.compare b.toModel.unpack = a.toModel.unpack.compare b'.toModel.unpack := by
    rw [compare_swap b.toModel.unpack, compare_congr_left h, ← compare_swap]
  rw [le_iff, le_iff, lt_iff_compare, lt_iff_compare, beq_iff_compare, beq_iff_compare, hcompare]

theorem lesser_congr (ha : (a == a') = true) (hb : (b == b') = true) :
    (lesser a b == lesser a' b') = true := by
  rw [lesser, lesser, (isNaN_of_beq hb).1, (isNaN_of_beq hb).2, if_neg Bool.false_ne_true,
    if_neg Bool.false_ne_true]
  by_cases hlt : a < b
  · rwa [if_pos hlt, if_pos ((lt_congr ha hb).mp hlt)]
  · rwa [if_neg hlt, if_neg (mt (lt_congr ha hb).mpr hlt)]

theorem greater_congr (ha : (a == a') = true) (hb : (b == b') = true) :
    (greater a b == greater a' b') = true := by
  rw [greater, greater, (isNaN_of_beq hb).1, (isNaN_of_beq hb).2, if_neg Bool.false_ne_true,
    if_neg Bool.false_ne_true]
  by_cases hlt : b < a
  · rwa [if_pos hlt, if_pos ((lt_congr hb ha).mp hlt)]
  · rwa [if_neg hlt, if_neg (mt (lt_congr hb ha).mpr hlt)]

theorem clampUnit_congr (h : (a == b) = true) : (clampUnit a == clampUnit b) = true := by
  have hzero : ((0.0 : Float) == 0.0) = true := by decide +kernel
  have hone : ((1.0 : Float) == 1.0) = true := by decide +kernel
  unfold clampUnit
  by_cases hlow : a < 0.0
  · rwa [if_pos hlow, if_pos ((lt_congr h hzero).mp hlow)]
  · rw [if_neg hlow, if_neg (mt (lt_congr h hzero).mpr hlow)]
    by_cases hhigh : 1.0 < a
    · rwa [if_pos hhigh, if_pos ((lt_congr hone h).mp hhigh)]
    · rwa [if_neg hhigh, if_neg (mt (lt_congr hone h).mpr hhigh)]

/-- Which of two numbers comes first makes no difference to the lesser and the greater of them. -/
theorem lesser_greater_comm (ha : a.isNaN = false) (hb : b.isNaN = false) :
    (lesser a b == lesser b a) = true ∧ (greater a b == greater b a) = true := by
  rcases lt_or_gt_or_beq ha hb with hlt | hgt | heq
  · rw [lesser_of_lt hlt, lesser_of_gt hlt, greater_of_lt hlt, greater_of_gt hlt]
    exact ⟨beq_self ha, beq_self hb⟩
  · rw [lesser_of_gt hgt, lesser_of_lt hgt, greater_of_gt hgt, greater_of_lt hgt]
    exact ⟨beq_self hb, beq_self ha⟩
  · have hself : ∀ {x y : Float}, (x = a ∨ x = b) → (y = a ∨ y = b) → (x == y) = true := by
      rintro x y (rfl | rfl) (rfl | rfl)
      · exact beq_self ha
      · exact heq
      · exact beq_comm.mp heq
      · exact beq_self hb
    exact ⟨hself (lesser_eq_or a b) (lesser_eq_or b a).symm,
      hself (greater_eq_or a b) (greater_eq_or b a).symm⟩

/-! ### Arithmetic with equal numbers -/

/-- A result that is a number is packed as one: the exponent of what is too great is that of infinity, which
has no mantissa. -/
theorem isNaN_pack {u : UnpackedFloat} (h : u.isNaN = false) :
    (Float.Model.pack u).unpack.isNaN = false := by
  change UnpackedFloat.isNaN (UnpackedFloat.unpack .binary64 (UnpackedFloat.pack .binary64 u)) = false
  rw [← Bool.not_eq_true, isNaN_unpack_iff_of_valid valid_pack]
  intro hnan
  have hexponent : @unpackExponent .binary64 (UnpackedFloat.pack .binary64 u) = -1#11 := by
    rw [hnan]
    exact unpackExponent_packComponents
  have hmantissa : @unpackMantissa .binary64 (UnpackedFloat.pack .binary64 u) = 1#52 <<< 51 := by
    rw [hnan]
    exact unpackMantissa_packComponents
  have hinfinity : ∀ s, UnpackedFloat.pack .binary64 u = packedInfinity .binary64 s → False := by
    intro s hpack
    rw [hpack] at hmantissa
    exact absurd (unpackMantissa_packComponents.symm.trans hmantissa) (by decide)
  cases u with
  | notANumber => cases h
  | infinity s => exact hinfinity s rfl
  | zero s => exact absurd (unpackExponent_packComponents.symm.trans hexponent) (by decide)
  | finite s m e hm =>
      unfold UnpackedFloat.pack at hexponent hinfinity
      dsimp only at hexponent hinfinity
      split at hexponent
      · next hgreat => exact hinfinity s (if_pos hgreat)
      · next hsmall =>
          split at hexponent
          · have hbits := congrArg BitVec.toNat (unpackExponent_packComponents.symm.trans hexponent)
            change (BitVec.ofNat 11 _).toNat = 2047 at hbits
            rw [BitVec.toNat_ofNat] at hbits
            have hlimit : (2 : Nat) ^ Format.binary64.exponentBits = 2048 := rfl
            omega
          · exact absurd (unpackExponent_packComponents.symm.trans hexponent) (by decide)

theorem isNaN_roundWithAccuracy (s : Sign) (m : Nat) (e : Int) (accuracy : Accuracy) :
    (roundWithAccuracy .binary64 s m e accuracy).isNaN = false := by
  unfold roundWithAccuracy
  dsimp only
  split <;> rfl

theorem isNaN_normalize (m e : Int) (s : Sign) :
    (UnpackedFloat.normalize .binary64 m e s).isNaN = false := by
  unfold UnpackedFloat.normalize
  split
  · exact isNaN_roundWithAccuracy _ _ _ _
  · rfl
  · exact isNaN_roundWithAccuracy _ _ _ _

/-- Two results are the same, or they are zeros. -/
def SameButZeros (u v : UnpackedFloat) : Prop :=
  u = v ∨ ∃ s s', u = .zero s ∧ v = .zero s'

theorem SameButZeros.beq_pack {u v : UnpackedFloat} (h : SameButZeros u v) (hu : u.isNaN = false) :
    (Float.ofModel (Float.Model.pack u) == Float.ofModel (Float.Model.pack v)) = true := by
  rcases h with rfl | ⟨s, s', rfl, rfl⟩
  · exact beq_self (isNaN_pack hu)
  · exact @beq_of_zeros _ _ s s' unpack_packedZero unpack_packedZero

/-- What a number differs from a finite number by is a number. -/
theorem isNaN_sub {u v : UnpackedFloat} (hu : u.isFinite = true) (hv : v.isNaN = false) :
    (UnpackedFloat.sub .binary64 u v).isNaN = false := by
  cases u with
  | notANumber | infinity => cases hu
  | zero s =>
      cases v with
      | notANumber => cases hv
      | infinity | finite => rfl
      | zero s' => cases s <;> cases s' <;> rfl
  | finite s m e hm =>
      cases v with
      | notANumber => cases hv
      | infinity | zero => rfl
      | finite s' m' e' hm' => exact isNaN_normalize _ _ _

theorem sameButZeros_zero_sub (s s' : Sign) (v : UnpackedFloat) :
    SameButZeros (UnpackedFloat.sub .binary64 (.zero s) v) (UnpackedFloat.sub .binary64 (.zero s') v) := by
  cases v with
  | notANumber | infinity | finite => exact .inl rfl
  | zero t => cases s <;> cases s' <;> cases t <;> exact .inr ⟨_, _, rfl, rfl⟩

theorem sameButZeros_sub_zero {u : UnpackedFloat} (hu : u.isFinite = true) (s s' : Sign) :
    SameButZeros (UnpackedFloat.sub .binary64 u (.zero s)) (UnpackedFloat.sub .binary64 u (.zero s')) := by
  cases u with
  | notANumber | infinity => cases hu
  | finite => exact .inl rfl
  | zero t => cases s <;> cases s' <;> cases t <;> exact .inr ⟨_, _, rfl, rfl⟩

/-- A finite number over a positive one is a number. -/
theorem isNaN_div {u v : UnpackedFloat} (hu : u.isFinite = true)
    (hv : (UnpackedFloat.zero .positive).compare v = some .lt) :
    (UnpackedFloat.div .binary64 u v).isNaN = false := by
  cases u with
  | notANumber | infinity => cases hu
  | zero s =>
      cases v with
      | notANumber | zero => cases hv
      | infinity | finite => rfl
  | finite s m e hm =>
      cases v with
      | notANumber | zero => cases hv
      | infinity => rfl
      | finite s' m' e' hm' => exact isNaN_roundWithAccuracy _ _ _ _

theorem sameButZeros_zero_div (s s' : Sign) {v : UnpackedFloat}
    (hv : (UnpackedFloat.zero .positive).compare v = some .lt) :
    SameButZeros (UnpackedFloat.div .binary64 (.zero s) v) (UnpackedFloat.div .binary64 (.zero s') v) := by
  cases v with
  | notANumber | zero => cases hv
  | infinity | finite => exact .inr ⟨_, _, rfl, rfl⟩

theorem isFinite_of_beq (ha : a.isFinite = true) (h : (a == b) = true) : b.isFinite = true := by
  rcases eq_or_zeros_of_beq h with rfl | ⟨s, s', -, hs'⟩
  · exact ha
  · change b.toModel.unpack.isFinite = true
    rw [hs']
    rfl

/-- Equal numbers have equal differences, whatever the signs of their zeros; two infinities would have none. -/
theorem sub_congr (ha : a.isFinite = true) (haa : (a == a') = true) (hbb : (b == b') = true) :
    (a - b == a' - b') = true := by
  have ha' := isFinite_of_beq ha haa
  obtain ⟨hb, -⟩ := isNaN_of_beq hbb
  have hleft : (a - b == a' - b) = true := by
    refine SameButZeros.beq_pack ?_ (isNaN_sub ha hb)
    rcases eq_or_zeros_of_beq haa with rfl | ⟨s, s', hs, hs'⟩
    · exact .inl rfl
    · rw [hs, hs']
      exact sameButZeros_zero_sub s s' _
  have hright : (a' - b == a' - b') = true := by
    refine SameButZeros.beq_pack ?_ (isNaN_sub ha' hb)
    rcases eq_or_zeros_of_beq hbb with rfl | ⟨s, s', hs, hs'⟩
    · exact .inl rfl
    · rw [hs, hs']
      exact sameButZeros_sub_zero ha' s s'
  exact beq_trans hleft hright

theorem div_congr (ha : a.isFinite = true) (haa : (a == a') = true) (hb : 0.0 < b) :
    (a / b == a' / b) = true := by
  have hpos : (UnpackedFloat.zero .positive).compare b.toModel.unpack = some .lt := lt_iff_compare.mp hb
  refine SameButZeros.beq_pack ?_ (isNaN_div ha hpos)
  rcases eq_or_zeros_of_beq haa with rfl | ⟨s, s', hs, hs'⟩
  · exact .inl rfl
  · rw [hs, hs']
    exact sameButZeros_zero_div s s' hpos

end WardleyMap
