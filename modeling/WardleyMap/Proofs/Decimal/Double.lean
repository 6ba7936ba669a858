import Mathlib
import WardleyMap.Decimal.Double

/-!
# The bits of a double

The bits of a finite double are a sign, eleven bits of exponent and fifty-two of mantissa. In the order of
their bits the nonnegative doubles are also in the order of their magnitudes, and `unitsOfBits` is
that magnitude in units: the first `2 ^ 52` doubles are the whole numbers themselves, and from then
on each block of `2 ^ 52` doubles is spaced twice as far apart as the one before. Reading a double in
units and making one from its bits are both described by this one function. That a double is packed
and unpacked without a change is a lemma of the library, which no part of Mathlib short of the whole brings in.
-/

namespace WardleyMap.Decimal

open Float.Model

def unitsOfBits (bits : Nat) : Nat :=
  if bits < 2 ^ 52 then bits else (2 ^ 52 + bits % 2 ^ 52) * 2 ^ (bits / 2 ^ 52 - 1)

theorem infinityBits_eq : infinityBits = 0x7ff * 2 ^ 52 := rfl

/-! ### Fields of the bits -/

abbrev exponentBits (v : BitVec 64) : BitVec 11 :=
  @UnpackedFloat.unpackExponent .binary64 v

/-- The mantissa bits of a packed double, without the leading one of a normal number. -/
abbrev mantissaBits (v : BitVec 64) : BitVec 52 :=
  @UnpackedFloat.unpackMantissa .binary64 v

abbrev signBit (v : BitVec 64) : BitVec 1 :=
  @UnpackedFloat.unpackSign .binary64 v

abbrev signOf (v : BitVec 64) : UnpackedFloat.Sign :=
  .ofBitVec (signBit v)

theorem toNat_mantissaBits (v : BitVec 64) : (mantissaBits v).toNat = v.toNat % 2 ^ 52 := by
  simp [mantissaBits, UnpackedFloat.unpackMantissa, BitVec.extractLsb]

theorem toNat_exponentBits (v : BitVec 64) : (exponentBits v).toNat = v.toNat / 2 ^ 52 % 2 ^ 11 := by
  simp [exponentBits, UnpackedFloat.unpackExponent, BitVec.extractLsb, Nat.shiftRight_eq_div_pow]

theorem toNat_signBit (v : BitVec 64) :
    (signBit v).toNat = v.toNat / 2 ^ 63 := by
  have := v.isLt
  simp [signBit, UnpackedFloat.unpackSign, BitVec.extractLsb, Nat.shiftRight_eq_div_pow]
  omega

/-- The sign bit is the highest of the sixty-four. -/
theorem signOf_beq_negative (v : BitVec 64) :
    (signOf v == .negative) = decide (2 ^ 63 ≤ v.toNat) := by
  have hbit := toNat_signBit v
  have hlt := v.isLt
  unfold signOf UnpackedFloat.Sign.ofBitVec
  by_cases hzero : signBit v = 0#1
  · rw [if_pos hzero]
    rw [hzero] at hbit
    have : ¬2 ^ 63 ≤ v.toNat := by
      simp at hbit
      omega
    simp only [this, decide_false]
    rfl
  · rw [if_neg hzero]
    have : 2 ^ 63 ≤ v.toNat := by
      by_contra hsmall
      refine hzero (BitVec.eq_of_toNat_eq ?_)
      rw [hbit]
      simp
      omega
    simp only [this, decide_true]
    rfl

/-! ### Unpacking -/

theorem toNat_append_mantissa (m : BitVec 52) : (1#1 ++ m).toNat = 2 ^ 52 + m.toNat := by
  rw [BitVec.toNat_append, ← Nat.shiftLeft_add_eq_or_of_lt m.isLt]
  rfl

/-- The three forms of a finite double: zero, subnormal and normal. -/
theorem unpack_cases {v : BitVec 64} (h : exponentBits v ≠ -1#11) :
    (exponentBits v = 0#11 ∧ mantissaBits v = 0#52 ∧
      UnpackedFloat.unpack .binary64 v = .zero (signOf v)) ∨
    (exponentBits v = 0#11 ∧ ∃ hpos : 0 < (mantissaBits v).toNat,
      UnpackedFloat.unpack .binary64 v = .finite (signOf v) (mantissaBits v).toNat (-1074) hpos) ∨
    (exponentBits v ≠ 0#11 ∧ ∃ hpos : 0 < (1#1 ++ mantissaBits v).toNat,
      UnpackedFloat.unpack .binary64 v = .finite (signOf v) (1#1 ++ mantissaBits v).toNat
        ((exponentBits v).toNat - 1075) hpos) := by
  unfold UnpackedFloat.unpack
  dsimp only
  rw [if_neg h]
  by_cases he : exponentBits v = 0#11
  · rw [if_pos he]
    by_cases hm : mantissaBits v = 0#52
    · rw [dif_pos hm]
      exact Or.inl ⟨he, hm, rfl⟩
    · rw [dif_neg hm]
      refine Or.inr (Or.inl ⟨he, ?_, ?_⟩)
      · simpa [BitVec.toNat_pos, BitVec.pos_iff_ne_zero] using hm
      · change UnpackedFloat.finite _ _ ((exponentBits v).toNat - 1075 + 1 : Int) _ = _
        congr 1
        rw [he]
        rfl
  · rw [if_neg he]
    exact Or.inr (Or.inr ⟨he, by rw [toNat_append_mantissa]; omega, rfl⟩)

/-- A finite double keeps its bits when it is unpacked and packed again. -/
theorem pack_unpack_of_finite {v : BitVec 64} (h : exponentBits v ≠ -1#11) :
    UnpackedFloat.pack .binary64 (UnpackedFloat.unpack .binary64 v) = v := by
  have hnumber : @UnpackedFloat.isNaNBits .binary64 v = false :=
    decide_eq_false fun hnan => h hnan.1
  rw [UnpackedFloat.pack_unpack, hnumber]
  rfl

/-! ### Doubles in units -/

def Double.ofUnpacked : UnpackedFloat → Double
  | .notANumber => .notANumber
  | .infinity sign => .infinite (sign == .negative)
  | .zero sign => .finite (sign == .negative) 0
  | .finite sign mantissa exponent _ =>
    .finite (sign == .negative) (mantissa * 2 ^ (exponent + unitPlaces).toNat)

theorem Double.ofFloat_eq (x : Float) : ofFloat x = ofUnpacked x.toModel.unpack := rfl

/-- Unpacking a finite double is taking its sign bit apart from the bits of its magnitude. -/
theorem ofUnpacked_unpack {v : BitVec 64} (h : exponentBits v ≠ -1#11) :
    Double.ofUnpacked (UnpackedFloat.unpack .binary64 v)
      = .finite (decide (2 ^ 63 ≤ v.toNat)) (unitsOfBits (v.toNat % 2 ^ 63)) := by
  have hexponent := toNat_exponentBits v
  have hmantissa := toNat_mantissaBits v
  rcases unpack_cases h with ⟨he, hm, hunpack⟩ | ⟨he, hpos, hunpack⟩ | ⟨he, hpos, hunpack⟩
  · rw [hunpack, Double.ofUnpacked, signOf_beq_negative]
    rw [he] at hexponent
    rw [hm] at hmantissa
    simp only [BitVec.toNat_ofNat, Nat.zero_mod] at hexponent hmantissa
    have hzero : v.toNat % 2 ^ 63 = 0 := by omega
    rw [hzero]
    rfl
  · rw [hunpack, Double.ofUnpacked, signOf_beq_negative]
    rw [he] at hexponent
    simp only [BitVec.toNat_ofNat, Nat.zero_mod] at hexponent
    have hsmall : v.toNat % 2 ^ 63 = (mantissaBits v).toNat := by omega
    have hlt := (mantissaBits v).isLt
    rw [hsmall, unitsOfBits, if_pos hlt]
    congr 1
    exact Nat.mul_one _
  · rw [hunpack, Double.ofUnpacked, signOf_beq_negative, toNat_append_mantissa]
    have hne : (exponentBits v).toNat ≠ 0 := fun hzero => he (BitVec.eq_of_toNat_eq hzero)
    have hquotient : v.toNat % 2 ^ 63 / 2 ^ 52 = (exponentBits v).toNat := by omega
    have hremainder : v.toNat % 2 ^ 63 % 2 ^ 52 = (mantissaBits v).toNat := by omega
    have hpower : (((exponentBits v).toNat - 1075 : Int) + unitPlaces).toNat
        = (exponentBits v).toNat - 1 := by
      simp only [unitPlaces]
      omega
    rw [unitsOfBits, if_neg (by omega), hquotient, hremainder, hpower]

theorem exists_finite {x : Float} (h : x.isFinite = true) :
    ∃ negative units, Double.ofFloat x = .finite negative units := by
  change x.toModel.unpack.isFinite = true at h
  rw [Double.ofFloat_eq]
  cases hunpack : x.toModel.unpack with
  | notANumber => simp [hunpack, Float.Model.UnpackedFloat.isFinite] at h
  | infinity sign => simp [hunpack, Float.Model.UnpackedFloat.isFinite] at h
  | zero sign => exact ⟨_, _, rfl⟩
  | finite sign mantissa exponent hpos => exact ⟨_, _, rfl⟩

/-- Every finite double has a number of units that belongs to the bits below those of infinity. -/
theorem exists_bits {x : Float} {negative : Bool} {units : Nat}
    (h : Double.ofFloat x = .finite negative units) :
    ∃ bits, bits < infinityBits ∧ unitsOfBits bits = units := by
  have hunpack : x.toModel.unpack = UnpackedFloat.unpack .binary64 x.toModel.toBits.toBitVec := rfl
  rw [Double.ofFloat_eq, hunpack] at h
  generalize x.toModel.toBits.toBitVec = v at h
  by_cases hfinite : exponentBits v = -1#11
  · exfalso
    unfold UnpackedFloat.unpack at h
    dsimp only at h
    rw [if_pos hfinite] at h
    split at h <;> simp [Double.ofUnpacked] at h
  · rw [ofUnpacked_unpack hfinite] at h
    refine ⟨v.toNat % 2 ^ 63, ?_, (Double.finite.inj h).2⟩
    have hne : (exponentBits v).toNat ≠ 2047 := fun heq => hfinite (BitVec.eq_of_toNat_eq heq)
    rw [toNat_exponentBits] at hne
    rw [infinityBits_eq]
    omega

/-- Whatever bits `nearestBits` chooses, the host's double with these bits has the units that the bits stand
for. -/
theorem ofFloat_ofBits {bits : Nat} (h : bits < infinityBits) (negative : Bool) :
    Double.ofFloat (Float.ofBits (UInt64.ofNat (if negative then 2 ^ 63 + bits else bits)))
      = .finite negative (unitsOfBits bits) := by
  rw [infinityBits_eq] at h
  obtain ⟨n, hn⟩ : ∃ n, n = if negative then 2 ^ 63 + bits else bits := ⟨_, rfl⟩
  have hlt : n < 2 ^ 64 := by
    rw [hn]
    split <;> omega
  have hnat : (BitVec.ofNat 64 n).toNat = n := by
    rw [BitVec.toNat_ofNat, Nat.mod_eq_of_lt hlt]
  have hfinite : exponentBits (BitVec.ofNat 64 n) ≠ -1#11 := by
    intro heq
    have := toNat_exponentBits (BitVec.ofNat 64 n)
    rw [heq, hnat] at this
    simp at this
    cases negative <;> simp at hn <;> omega
  have hmodel : (Float.ofBits (UInt64.ofNat n)).toModel.unpack
      = UnpackedFloat.unpack .binary64 (UnpackedFloat.pack .binary64
          (UnpackedFloat.unpack .binary64 (BitVec.ofNat 64 n))) := rfl
  rw [← hn, Double.ofFloat_eq, hmodel, pack_unpack_of_finite hfinite, ofUnpacked_unpack hfinite, hnat]
  congr 1
  · cases negative <;> simp at hn <;> simp <;> omega
  · congr 1
    cases negative <;> simp at hn <;> omega

end WardleyMap.Decimal
