import WardleyMap.Proofs.Decimal.Fixed
import WardleyMap.Proofs.Decimal.Nearest

/-!
# Reading what was printed

A number that was printed with a fixed number of places is read as the double nearest to it, and printing that
double with as many places gives the same text. This is what makes an edit settle: once a number has
been written, writing the same value again finds the number in place. `Decimal.fixed_value_fixed`
holds for every finite double and every number of places.
-/

namespace WardleyMap.Decimal

theorem nearestBits_mul_right (num : Nat) {den k : Nat} (hden : 0 < den) (hk : 0 < k) :
    nearestBits (num * k) (den * k) = nearestBits num den := by
  have hunits : num * k * 2 ^ unitPlaces = num * 2 ^ unitPlaces * k := by ring
  have hspacing : spacing (num * k) (den * k) = spacing num den := by
    rw [spacing, spacing, hunits, Nat.mul_div_mul_right _ _ hk]
  have hsignificand : significand (num * k) (den * k) = significand num den := by
    have hscaled : den * k * 2 ^ spacing num den = den * 2 ^ spacing num den * k := by ring
    rw [significand, significand, hspacing, hunits, hscaled,
      roundHalfEven_mul_right _ (Nat.mul_pos hden (Nat.two_pow_pos _)) hk]
  rw [nearestBits_eq, nearestBits_eq, hspacing, hsignificand]

/-! ### The digits of a printed number -/

theorem length_pointDigits (n places zeros : Nat) :
    (pointDigits n places zeros).length = places + zeros := by
  unfold pointDigits
  rw [List.length_append, List.length_replicate]
  split
  · next hplaces => simp [hplaces]
  · next hplaces =>
      have hlt : n % 10 ^ places < 10 ^ places := Nat.mod_lt _ (Nat.pow_pos (by decide))
      have hlength := (Nat.length_toDigits_le_iff (by decide) (Nat.pos_of_ne_zero hplaces)).mpr hlt
      rw [List.length_leftpad, Nat.max_eq_left hlength]

/-- The digits after the point continue the number that the digits before it make up. -/
theorem ofDigitChars_pointDigits (n places zeros init : Nat) :
    Nat.ofDigitChars 10 (pointDigits n places zeros) init
      = (10 ^ places * init + n % 10 ^ places) * 10 ^ zeros := by
  have hlength := length_pointDigits n places 0
  rw [Nat.add_zero] at hlength
  have hdigits : Nat.ofDigitChars 10 (pointDigits n places 0) 0 = n % 10 ^ places := by
    unfold pointDigits
    split
    · next hplaces => simp [hplaces, Nat.mod_one]
    · rw [List.replicate_zero, List.append_nil, List.leftpad, Nat.ofDigitChars_append,
        Nat.ofDigitChars_replicate_zero, Nat.mul_zero, Nat.ofDigitChars_ten_toDigits]
  have hsplit : pointDigits n places zeros = pointDigits n places 0 ++ List.replicate zeros '0' := by
    unfold pointDigits
    rw [List.replicate_zero, List.append_nil]
  rw [hsplit, Nat.ofDigitChars_append, Nat.ofDigitChars_replicate_zero,
    Nat.ofDigitChars_eq_ofDigitChars_zero, hlength, hdigits, Nat.mul_comm]

/-- The digits of a printed number, the point left out, are those of its two parts. -/
theorem filter_isDigit_pointText (n places zeros : Nat) :
    (pointText n places zeros).filter Char.isDigit
      = Nat.toDigits 10 (n / 10 ^ places) ++ pointDigits n places zeros := by
  have hwhole : (Nat.toDigits 10 (n / 10 ^ places)).filter Char.isDigit
      = Nat.toDigits 10 (n / 10 ^ places) := List.filter_eq_self.mpr isDigit_of_mem_toDigits
  have hfraction : (pointDigits n places zeros).filter Char.isDigit = pointDigits n places zeros :=
    List.filter_eq_self.mpr isDigit_of_mem_pointDigits
  rw [pointText_eq, List.filter_append, hwhole]
  split
  · next h =>
      have hlength := length_pointDigits n places zeros
      rw [h] at hlength
      rw [List.eq_nil_of_length_eq_zero hlength, List.filter_nil]
  · rw [List.filter_cons_of_neg (by decide), hfraction]

/-- The digits after the point of a printed number are read as they were printed. -/
theorem fractionDigits_pointText (n places zeros : Nat) {sign : Text} (hsign : '.' ∉ sign) :
    fractionDigits (sign ++ pointText n places zeros) = pointDigits n places zeros := by
  have hbefore : ∀ c ∈ sign ++ Nat.toDigits 10 (n / 10 ^ places), (c != '.') = true := by
    intro c hc
    rw [bne_iff_ne]
    rintro rfl
    rcases List.mem_append.mp hc with hc | hc
    · exact hsign hc
    · exact absurd (isDigit_of_mem_toDigits _ hc) (by decide)
  rw [fractionDigits, pointText_eq, ← List.append_assoc, List.dropWhile_append_of_pos hbefore]
  split
  · next h =>
      have hlength := length_pointDigits n places zeros
      rw [h] at hlength
      rw [List.eq_nil_of_length_eq_zero hlength]
      rfl
  · rw [List.dropWhile_cons_of_neg (by simp), List.filter_cons_of_neg (by decide),
      List.filter_eq_self.mpr isDigit_of_mem_pointDigits]

theorem head?_pointText (n places zeros : Nat) : (pointText n places zeros).head? ≠ some '-' := by
  obtain ⟨c, digits, hdigits⟩ := List.exists_cons_of_ne_nil
    (Nat.toDigits_ne_nil (b := 10) (n := n / 10 ^ places))
  have hdigit := isDigit_of_mem_toDigits c (hdigits ▸ List.mem_cons_self)
  rw [pointText_eq, hdigits, List.cons_append, List.head?_cons]
  intro hc
  rw [Option.some.inj hc] at hdigit
  exact absurd hdigit (by decide)

/-- The digits on both sides of the point make up the number that was printed. -/
theorem ofDigitChars_pointText (n places zeros : Nat) :
    Nat.ofDigitChars 10 (Nat.toDigits 10 (n / 10 ^ places) ++ pointDigits n places zeros) 0
      = n * 10 ^ zeros := by
  rw [Nat.ofDigitChars_append, Nat.ofDigitChars_ten_toDigits, ofDigitChars_pointDigits,
    Nat.div_add_mod]

theorem nearest_pointDigits (negative : Bool) (n places zeros : Nat) :
    nearest negative (Nat.ofDigitChars 10
        (Nat.toDigits 10 (n / 10 ^ places) ++ pointDigits n places zeros) 0)
      (10 ^ (pointDigits n places zeros).length) = nearest negative n (10 ^ places) := by
  have hpos : ∀ k, 0 < 10 ^ k := fun k => Nat.pow_pos (by decide)
  rw [ofDigitChars_pointText, length_pointDigits, Nat.pow_add]
  unfold nearest
  rw [nearestBits_mul_right n (hpos places) (hpos zeros)]

theorem value_pointText (n places zeros : Nat) :
    value (pointText n places zeros) = nearest false n (10 ^ places) := by
  have hfraction := @fractionDigits_pointText n places zeros [] List.not_mem_nil
  rw [List.nil_append] at hfraction
  have hsign : ((pointText n places zeros).head? == some '-') = false :=
    beq_eq_false_iff_ne.mpr (head?_pointText n places zeros)
  rw [value, hsign, filter_isDigit_pointText, hfraction, Nat.pow_eq, nearest_pointDigits]

theorem value_neg_pointText (n places zeros : Nat) :
    value ('-' :: pointText n places zeros) = nearest true n (10 ^ places) := by
  have hfraction := @fractionDigits_pointText n places zeros ['-'] (by decide)
  rw [List.singleton_append] at hfraction
  rw [value, hfraction, List.filter_cons_of_neg (by decide), filter_isDigit_pointText,
    Nat.pow_eq, nearest_pointDigits]
  rfl

/-- Printing the double that a printed number is read as gives the number back. -/
theorem fixed_value_fixed {x : Float} {negative : Bool} {units : Nat}
    (h : Double.ofFloat x = .finite negative units) (places : Nat) :
    fixed (value (fixed x places)) places = fixed x places := by
  obtain ⟨bits, hbits, rfl⟩ := exists_bits h
  obtain ⟨hfinite, hscaled⟩ := scaled_nearestBits hbits (min places unitPlaces)
  have hread : ∀ sign, Double.ofFloat (nearest sign (scaled (unitsOfBits bits) (min places unitPlaces))
      (10 ^ min places unitPlaces)) = .finite sign (unitsOfBits (nearestBits
        (scaled (unitsOfBits bits) (min places unitPlaces)) (10 ^ min places unitPlaces))) :=
    fun sign => ofFloat_ofBits hfinite sign
  rw [fixed_finite h]
  dsimp only
  split
  · next hneg =>
      rw [value_neg_pointText, fixed_finite (hread true)]
      dsimp only
      rw [hscaled, if_pos ⟨rfl, hneg.2⟩]
  · rw [value_pointText, fixed_finite (hread false)]
    dsimp only
    rw [hscaled, if_neg (by simp)]

end WardleyMap.Decimal
