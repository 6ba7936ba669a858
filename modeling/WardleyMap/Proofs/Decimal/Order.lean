import WardleyMap.Proofs.Decimal.Printed
import WardleyMap.Proofs.Geometry.Order

/-!
# The order of finite doubles, and of what is printed for them

Doubles are compared by their exponents and then by their mantissas. Since a mantissa has all of its bits
unless the exponent is the least one, this is the order of the numbers that the doubles stand for, here
whole numbers of units with a sign. Rounding to a number of places keeps the order, so of two doubles the lesser
is never printed as the greater number (`Decimal.written_fixed_le`). A printed number is compared as the fraction
that its digits write, which need not be a double.
-/

namespace WardleyMap.Decimal

open Float.Model UnpackedFloat

/-! ### Magnitudes -/

/-- The mantissa and the exponent of a finite double: no bit of the mantissa is missing unless the exponent is
the least one. -/
structure IsPacked (m : Nat) (e : Int) : Prop where
  mantissa_lt : m < 2 ^ 53
  le_exponent : -1074 ≤ e
  normal : -1074 < e → 2 ^ 52 ≤ m

/-- The two bounds of a packed double hold of all that unpacking can give. -/
theorem isPacked_of_unpack {x : Float} {sign : Sign} {m : Nat} {e : Int} {hm : 0 < m}
    (h : x.toModel.unpack = .finite sign m e hm) : IsPacked m e := by
  have hunpack : x.toModel.unpack = UnpackedFloat.unpack .binary64 x.toModel.toBits.toBitVec := rfl
  rw [hunpack] at h
  generalize x.toModel.toBits.toBitVec = v at h
  have hmantissa := (mantissaBits v).isLt
  have hfinite : exponentBits v ≠ -1#11 := by
    intro hspecial
    unfold UnpackedFloat.unpack at h
    dsimp only at h
    rw [if_pos hspecial] at h
    split at h <;> cases h
  rcases unpack_cases hfinite with ⟨-, -, hzero⟩ | ⟨-, hpos, hleast⟩ | ⟨he, hpos, hnormal⟩
  · rw [hzero] at h
    cases h
  · obtain ⟨-, rfl, rfl⟩ := UnpackedFloat.finite.inj (hleast.symm.trans h)
    exact ⟨by omega, Int.le_refl _, fun hlt => absurd hlt (Int.lt_irrefl _)⟩
  · obtain ⟨-, rfl, rfl⟩ := UnpackedFloat.finite.inj (hnormal.symm.trans h)
    have hne : (exponentBits v).toNat ≠ 0 := fun hzero => he (BitVec.eq_of_toNat_eq hzero)
    rw [toNat_append_mantissa]
    exact ⟨by omega, by omega, fun _ => Nat.le_add_right _ _⟩

variable {m m' : Nat} {e e' : Int}

theorem IsPacked.lt_of_lt (h : IsPacked m e) (h' : IsPacked m' e') (hlt : e < e') :
    m * 2 ^ (e + unitPlaces).toNat < m' * 2 ^ (e' + unitPlaces).toNat := by
  have hle := h.le_exponent
  have hstep : (e + unitPlaces).toNat + 1 ≤ (e' + unitPlaces).toNat := by
    simp only [unitPlaces]
    omega
  calc m * 2 ^ (e + unitPlaces).toNat < 2 ^ 53 * 2 ^ (e + unitPlaces).toNat :=
        Nat.mul_lt_mul_of_pos_right h.mantissa_lt (Nat.two_pow_pos _)
    _ = 2 ^ 52 * 2 ^ ((e + unitPlaces).toNat + 1) := by ring
    _ ≤ m' * 2 ^ (e' + unitPlaces).toNat :=
        Nat.mul_le_mul (h'.normal (by omega)) (Nat.pow_le_pow_right (by decide) hstep)

/-- Doubles of one sign are compared by their exponents first, as no mantissa can make up for a lower exponent. -/
theorem IsPacked.compare_eq (h : IsPacked m e) (h' : IsPacked m' e') :
    (compare e e').then (compare m m')
      = compare (m * 2 ^ (e + unitPlaces).toNat) (m' * 2 ^ (e' + unitPlaces).toNat) := by
  rcases Int.lt_trichotomy e e' with hlt | rfl | hgt
  · rw [Int.compare_eq_lt.mpr hlt, Nat.compare_eq_lt.mpr (h.lt_of_lt h' hlt)]
    rfl
  · have hpos : 0 < 2 ^ (e + unitPlaces).toNat := Nat.two_pow_pos _
    rw [Int.compare_eq_eq.mpr rfl, Ordering.eq_then]
    rcases Nat.lt_trichotomy m m' with hm | rfl | hm
    · rw [Nat.compare_eq_lt.mpr hm, Nat.compare_eq_lt.mpr (Nat.mul_lt_mul_of_pos_right hm hpos)]
    · rw [Nat.compare_eq_eq.mpr rfl, Nat.compare_eq_eq.mpr rfl]
    · rw [Nat.compare_eq_gt.mpr hm, Nat.compare_eq_gt.mpr (Nat.mul_lt_mul_of_pos_right hm hpos)]
  · rw [Int.compare_eq_gt.mpr hgt, Nat.compare_eq_gt.mpr (h'.lt_of_lt h hgt)]
    rfl

/-! ### Numbers with a sign -/

def signed (negative : Bool) (units : Nat) : Int :=
  if negative then -units else units

/-- Among negative numbers the greater magnitude is the lesser number. -/
theorem compare_signed (negative : Bool) (units units' : Nat) :
    compare (signed negative units) (signed negative units')
      = if negative then (compare units units').swap else compare units units' := by
  rcases Nat.lt_trichotomy units units' with h | rfl | h
  · rw [Nat.compare_eq_lt.mpr h]
    cases negative with
    | false => exact Int.compare_eq_lt.mpr (Int.ofNat_lt.mpr h)
    | true => exact Int.compare_eq_gt.mpr (Int.neg_lt_neg (Int.ofNat_lt.mpr h))
  · rw [Nat.compare_eq_eq.mpr rfl, Int.compare_eq_eq.mpr rfl]
    cases negative <;> rfl
  · rw [Nat.compare_eq_gt.mpr h]
    cases negative with
    | false => exact Int.compare_eq_gt.mpr (Int.ofNat_lt.mpr h)
    | true => exact Int.compare_eq_lt.mpr (Int.neg_lt_neg (Int.ofNat_lt.mpr h))

variable {a b x : Float} {negative negative' : Bool} {units units' : Nat}

/-- The units of a finite double, given by the mantissa and the exponent that the host compares. -/
theorem unpack_of_finite (h : Double.ofFloat x = .finite negative units) :
    (units = 0 ∧ ∃ sign, x.toModel.unpack = .zero sign) ∨
    ∃ sign m e, ∃ hm : 0 < m, x.toModel.unpack = .finite sign m e hm ∧ IsPacked m e ∧
      negative = (sign == .negative) ∧ units = m * 2 ^ (e + unitPlaces).toNat := by
  rw [Double.ofFloat_eq] at h
  cases hunpack : x.toModel.unpack with
  | notANumber | infinity =>
      rw [hunpack] at h
      cases h
  | zero sign =>
      rw [hunpack] at h
      exact .inl ⟨(Double.finite.inj h).2.symm, sign, rfl⟩
  | finite sign m e hm =>
      rw [hunpack] at h
      obtain ⟨hsign, hunits⟩ := Double.finite.inj h
      exact .inr ⟨sign, m, e, hm, rfl, isPacked_of_unpack hunpack, hsign.symm, hunits.symm⟩

/-- Finite doubles are compared as the numbers of their units. -/
theorem compare_eq_signed (ha : Double.ofFloat a = .finite negative units)
    (hb : Double.ofFloat b = .finite negative' units') : a.toModel.unpack.compare b.toModel.unpack
      = some (compare (signed negative units) (signed negative' units')) := by
  have hzero : ∀ negative, signed negative 0 = 0 := by decide
  have hpos : ∀ {m : Nat} {e : Int}, 0 < m → 0 < ((m * 2 ^ (e + unitPlaces).toNat : Nat) : Int) :=
    fun hm => Int.natCast_pos.mpr (Nat.mul_pos hm (Nat.two_pow_pos _))
  rcases unpack_of_finite ha with ⟨rfl, s, hunpack⟩ | ⟨s, m, e, hm, hunpack, hpacked, rfl, rfl⟩ <;>
    rcases unpack_of_finite hb with ⟨rfl, s', hunpack'⟩ | ⟨s', m', e', hm', hunpack', hpacked', rfl, rfl⟩ <;>
    rw [hunpack, hunpack']
  · rw [hzero, hzero]
    rfl
  · rw [hzero]
    cases s' with
    | negative => exact congrArg some (Int.compare_eq_gt.mpr (Int.neg_neg_of_pos (hpos hm'))).symm
    | positive => exact congrArg some (Int.compare_eq_lt.mpr (hpos hm')).symm
  · rw [hzero]
    cases s with
    | negative => exact congrArg some (Int.compare_eq_lt.mpr (Int.neg_neg_of_pos (hpos hm))).symm
    | positive => exact congrArg some (Int.compare_eq_gt.mpr (hpos hm)).symm
  · have hmagnitude := hpacked.compare_eq hpacked'
    cases s with
    | negative =>
        cases s' with
        | negative =>
            refine congrArg some (Eq.trans ?_ (compare_signed true _ _).symm)
            exact congrArg Ordering.swap hmagnitude
        | positive =>
            refine congrArg some (Int.compare_eq_lt.mpr ?_).symm
            exact Int.lt_trans (Int.neg_neg_of_pos (hpos hm)) (hpos hm')
    | positive =>
        cases s' with
        | negative =>
            refine congrArg some (Int.compare_eq_gt.mpr ?_).symm
            exact Int.lt_trans (Int.neg_neg_of_pos (hpos hm')) (hpos hm)
        | positive => exact congrArg some (hmagnitude.trans (compare_signed false _ _).symm)

theorem lt_iff_signed (ha : Double.ofFloat a = .finite negative units)
    (hb : Double.ofFloat b = .finite negative' units') :
    a < b ↔ signed negative units < signed negative' units' := by
  rw [lt_iff_compare, compare_eq_signed ha hb, Option.some.injEq, Int.compare_eq_lt]

/-! ### Rounding to places -/

/-- Rounding keeps the order, so that printing keeps it too. -/
theorem roundHalfEven_le {num num' den : Nat} (hden : 0 < den) (h : num ≤ num') :
    roundHalfEven num den ≤ roundHalfEven num' den := by
  have hr := @isRounded_roundHalfEven num den hden
  have hr' := @isRounded_roundHalfEven num' den hden
  generalize roundHalfEven num den = r at hr
  generalize roundHalfEven num' den = r' at hr'
  by_contra hlt
  -- numbers whose roundings are in the other order are both half way between the two
  have hstep : (r' + 1) * den ≤ r * den := Nat.mul_le_mul_right den (by omega)
  rw [Nat.add_mul, Nat.one_mul] at hstep
  have hupper := hr.upper
  have hlower := hr'.lower
  obtain rfl : num = num' := by omega
  exact hlt (Nat.le_of_eq (hr.unique hr' hden))

theorem scaled_le {places : Nat} (h : units ≤ units') : scaled units places ≤ scaled units' places := by
  rw [scaled_eq, scaled_eq]
  exact roundHalfEven_le (Nat.two_pow_pos _) (Nat.mul_le_mul_right _ h)

theorem scaled_zero (places : Nat) : scaled 0 places = 0 := by
  rw [scaled_eq, Nat.zero_mul]
  exact Nat.le_zero.mp ((isRounded_roundHalfEven (Nat.two_pow_pos _)).le_of_le_mul (Nat.two_pow_pos _)
    (Nat.zero_le _))

theorem scaled_one (places : Nat) : scaled (2 ^ unitPlaces) places = 10 ^ places := by
  have hunit : 0 < 2 ^ unitPlaces := Nat.two_pow_pos _
  have hrounded := @isRounded_roundHalfEven (2 ^ unitPlaces * 10 ^ places) _ hunit
  rw [scaled_eq]
  refine Nat.le_antisymm (hrounded.le_of_le_mul hunit ?_) (hrounded.le_of_mul_le hunit ?_)
  · rw [Nat.mul_comm]
  · rw [Nat.mul_comm]

/-! ### Printed numbers -/

/-- The number that a literal writes, as a fraction. -/
def written (literal : Text) : ℚ :=
  let magnitude : ℚ := Nat.ofDigitChars 10 (literal.filter Char.isDigit) 0
    / 10 ^ (fractionDigits literal).length
  if literal.head? = some '-' then -magnitude else magnitude

theorem cast_mul_div_pow (n places zeros : Nat) :
    ((n * 10 ^ zeros : Nat) : ℚ) / 10 ^ (places + zeros) = n / 10 ^ places := by
  rw [Nat.cast_mul, Nat.cast_pow, Nat.cast_ofNat, pow_add]
  exact mul_div_mul_right _ _ (by positivity)

theorem written_pointText (n places zeros : Nat) : written (pointText n places zeros) = n / 10 ^ places := by
  have hfraction := @fractionDigits_pointText n places zeros [] List.not_mem_nil
  rw [List.nil_append] at hfraction
  rw [written, if_neg (head?_pointText n places zeros), filter_isDigit_pointText, hfraction,
    ofDigitChars_pointText, length_pointDigits, cast_mul_div_pow]

theorem written_neg_pointText (n places zeros : Nat) :
    written ('-' :: pointText n places zeros) = -(n / 10 ^ places) := by
  have hfraction := @fractionDigits_pointText n places zeros ['-'] (by decide)
  rw [List.singleton_append] at hfraction
  rw [written, if_pos List.head?_cons, List.filter_cons_of_neg (by decide), filter_isDigit_pointText,
    hfraction, ofDigitChars_pointText, length_pointDigits, cast_mul_div_pow]

/-- The number that is printed is the rounded one, whatever zeros follow it. -/
theorem written_fixed (h : Double.ofFloat x = .finite negative units) (places : Nat) :
    written (fixed x places) = (signed negative (scaled units (min places unitPlaces)) : ℚ)
      / 10 ^ min places unitPlaces := by
  rw [fixed_finite h]
  dsimp only
  split
  · next hneg =>
      rw [written_neg_pointText, signed, if_pos hneg.1]
      push_cast
      ring
  · next hpos =>
      rw [written_pointText]
      cases negative with
      | false => rfl
      | true =>
          have hzero : scaled units (min places unitPlaces) = 0 := by simpa using hpos
          rw [hzero]
          simp [signed]

/-- Rounding the magnitudes of two signed numbers keeps their order. -/
theorem signed_scaled_le {places : Nat} (h : signed negative units ≤ signed negative' units') :
    signed negative (scaled units places) ≤ signed negative' (scaled units' places) := by
  cases negative with
  | false =>
      cases negative' with
      | false => exact Int.ofNat_le.mpr (scaled_le (Int.ofNat_le.mp h))
      | true =>
          -- only two zeros are ordered so
          change (units : Int) ≤ -units' at h
          obtain rfl : units = 0 := by omega
          obtain rfl : units' = 0 := by omega
          rw [scaled_zero]
          decide
  | true =>
      cases negative' with
      | false =>
          change -(scaled units places : Int) ≤ scaled units' places
          omega
      | true =>
          refine Int.neg_le_neg (Int.ofNat_le.mpr (scaled_le ?_))
          exact Int.ofNat_le.mp (Int.neg_le_neg_iff.mp h)

/-- Printing keeps the order. -/
theorem written_fixed_le (ha : a.isFinite = true) (hb : b.isFinite = true) (h : ¬b < a) (places : Nat) :
    written (fixed a places) ≤ written (fixed b places) := by
  obtain ⟨negative, units, hunits⟩ := exists_finite ha
  obtain ⟨negative', units', hunits'⟩ := exists_finite hb
  rw [lt_iff_signed hunits' hunits, Int.not_lt] at h
  rw [written_fixed hunits, written_fixed hunits']
  exact div_le_div_of_nonneg_right (Int.cast_le.mpr (signed_scaled_le h)) (by positivity)

theorem written_fixed_zero (places : Nat) : written (fixed 0.0 places) = 0 := by
  have hzero : Double.ofFloat 0.0 = .finite false 0 := by decide +kernel
  rw [written_fixed hzero, scaled_zero]
  simp [signed]

theorem written_fixed_one (places : Nat) : written (fixed 1.0 places) = 1 := by
  have hone : Double.ofFloat 1.0 = .finite false (2 ^ unitPlaces) := by decide +kernel
  rw [written_fixed hone, scaled_one]
  simp [signed]

end WardleyMap.Decimal
