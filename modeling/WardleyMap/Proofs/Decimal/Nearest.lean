import Mathlib.Tactic.Ring
import WardleyMap.Decimal.Fixed
import WardleyMap.Proofs.Decimal.Double
import WardleyMap.Proofs.Decimal.Rounding

/-!
# The nearest double, and the decimal it came from

A decimal that was printed from a double need not be nearer to that double than to any other, since it may
have few places. But it is nearer to the double it is read as than to the one it came from, so it is
also what that double prints as. The one delicate point is a double half way between two decimals:
it prints as the even one, and so does any other double that is as far from it.

All distances are between whole numbers: for a quotient `num / den`, a double with so many units is
compared as `units * den` to `num * 2 ^ unitPlaces`.
-/

namespace WardleyMap.Decimal

/-- The binary exponent of the spacing of the doubles near `num / den`. -/
def spacing (num den : Nat) : Nat :=
  (num * 2 ^ unitPlaces / den).log2 - 52

/-- How many spacings the nearest double is. -/
def significand (num den : Nat) : Nat :=
  roundHalfEven (num * 2 ^ unitPlaces) (den * 2 ^ spacing num den)

theorem nearestBits_eq (num den : Nat) : nearestBits num den
    = min (spacing num den * 2 ^ 52 + significand num den) infinityBits := by
  simp only [nearestBits, significand, spacing, Nat.pow_eq]

theorem scaled_eq (units places : Nat) :
    scaled units places = roundHalfEven (units * 10 ^ places) (2 ^ unitPlaces) := by
  simp only [scaled, Nat.pow_eq]

/-- The first double of a block counts as the last of the block before it, too. -/
theorem unitsOfBits_block {s r : Nat} (hr : r ≤ 2 ^ 53) (hnormal : 0 < s → 2 ^ 52 ≤ r) :
    unitsOfBits (s * 2 ^ 52 + r) = r * 2 ^ s := by
  unfold unitsOfBits
  by_cases hsmall : r < 2 ^ 52
  · obtain rfl : s = 0 := by
      by_contra hs
      exact absurd (hnormal (by omega)) (by omega)
    rw [Nat.zero_mul, Nat.zero_add, if_pos hsmall, Nat.pow_zero, Nat.mul_one]
  · rw [if_neg (by omega)]
    by_cases hlast : r = 2 ^ 53
    · have hdiv : (s * 2 ^ 52 + r) / 2 ^ 52 - 1 = s + 1 := by omega
      have hmod : (s * 2 ^ 52 + r) % 2 ^ 52 = 0 := by omega
      rw [hdiv, hmod, hlast, Nat.add_zero, Nat.pow_succ 2 s, Nat.mul_left_comm]
      omega
    · have hdiv : (s * 2 ^ 52 + r) / 2 ^ 52 - 1 = s := by omega
      have hmod : 2 ^ 52 + (s * 2 ^ 52 + r) % 2 ^ 52 = r := by omega
      rw [hdiv, hmod]

/-- A double is either below a block or a multiple of its spacing. -/
theorem dvd_unitsOfBits_or (bits s : Nat) :
    2 ^ s ∣ unitsOfBits bits ∨ unitsOfBits bits ≤ 2 ^ 52 * 2 ^ s := by
  have hpos : 0 < 2 ^ s := Nat.two_pow_pos s
  unfold unitsOfBits
  split
  · next hsmall => exact Or.inr (Nat.le_trans (Nat.le_of_lt hsmall) (Nat.le_mul_of_pos_right _ hpos))
  · by_cases hle : s ≤ bits / 2 ^ 52 - 1
    · exact Or.inl (Nat.dvd_mul_left_of_dvd (Nat.pow_dvd_pow 2 hle) _)
    · right
      obtain ⟨t, rfl⟩ : ∃ t, s = bits / 2 ^ 52 - 1 + 1 + t := ⟨s - (bits / 2 ^ 52), by omega⟩
      have hlt := Nat.mod_lt bits (Nat.two_pow_pos 52)
      have hspread : 2 ^ 52 * 2 ^ (bits / 2 ^ 52 - 1 + 1 + t)
          = 2 ^ 53 * 2 ^ (bits / 2 ^ 52 - 1) * 2 ^ t := by
        rw [Nat.pow_add, Nat.pow_succ]
        ring
      rw [hspread]
      refine Nat.le_trans (Nat.mul_le_mul_right _ ?_) (Nat.le_mul_of_pos_right _ (Nat.two_pow_pos t))
      omega

/-! ### How near the nearest double is -/

variable {num den : Nat}

theorem isRounded_significand (hden : 0 < den) :
    IsRounded (num * 2 ^ unitPlaces) (den * 2 ^ spacing num den) (significand num den) :=
  isRounded_roundHalfEven (Nat.mul_pos hden (Nat.two_pow_pos _))

theorem lt_mul_spacing (hden : 0 < den) :
    num * 2 ^ unitPlaces < 2 ^ 53 * (den * 2 ^ spacing num den) := by
  have hlog := Nat.lt_log2_self (n := num * 2 ^ unitPlaces / den)
  have hdiv : num * 2 ^ unitPlaces < (num * 2 ^ unitPlaces / den + 1) * den := by
    rw [Nat.mul_comm _ den]
    exact Nat.lt_mul_div_succ _ hden
  have hpow : 2 ^ ((num * 2 ^ unitPlaces / den).log2 + 1) ≤ 2 ^ (53 + spacing num den) :=
    Nat.pow_le_pow_right (by decide) (by unfold spacing; omega)
  calc num * 2 ^ unitPlaces < (num * 2 ^ unitPlaces / den + 1) * den := hdiv
    _ ≤ 2 ^ (53 + spacing num den) * den := Nat.mul_le_mul_right den (by omega)
    _ = 2 ^ 53 * (den * 2 ^ spacing num den) := by rw [Nat.pow_add]; ring

/-- Above the least exponent the leading bit of a significand is set. -/
theorem mul_spacing_le (hspacing : 0 < spacing num den) :
    2 ^ 52 * (den * 2 ^ spacing num den) ≤ num * 2 ^ unitPlaces := by
  have hlog : (num * 2 ^ unitPlaces / den).log2 = 52 + spacing num den := by
    unfold spacing at hspacing ⊢
    omega
  have hne : num * 2 ^ unitPlaces / den ≠ 0 := by
    intro hzero
    rw [hzero] at hlog
    simp at hlog
    omega
  have hself := Nat.log2_self_le hne
  rw [hlog] at hself
  calc 2 ^ 52 * (den * 2 ^ spacing num den) = den * 2 ^ (52 + spacing num den) := by
        rw [Nat.pow_add]; ring
    _ ≤ den * (num * 2 ^ unitPlaces / den) := Nat.mul_le_mul_left den hself
    _ ≤ num * 2 ^ unitPlaces := Nat.mul_div_le _ _

theorem unitsOfBits_nearest (hden : 0 < den) :
    unitsOfBits (spacing num den * 2 ^ 52 + significand num den)
      = significand num den * 2 ^ spacing num den := by
  have hpos : 0 < den * 2 ^ spacing num den := Nat.mul_pos hden (Nat.two_pow_pos _)
  refine unitsOfBits_block ?_ fun hspacing => ?_
  · exact (isRounded_significand hden).le_of_le_mul hpos (Nat.le_of_lt (lt_mul_spacing hden))
  · exact (isRounded_significand hden).le_of_mul_le hpos (mul_spacing_le hspacing)

/-- No finite double is nearer to `num / den` than the nearest one. -/
theorem within_nearest (hden : 0 < den) {bits d : Nat}
    (h : Within d (unitsOfBits bits * den) (num * 2 ^ unitPlaces)) :
    Within d (significand num den * 2 ^ spacing num den * den) (num * 2 ^ unitPlaces) := by
  have hcomm : ∀ k, k * 2 ^ spacing num den * den = k * (den * 2 ^ spacing num den) := by
    intro k
    ring
  rw [hcomm]
  rcases dvd_unitsOfBits_or bits (spacing num den) with ⟨k, hk⟩ | hle
  · refine (isRounded_significand hden).within (k := k) ?_
    rwa [hk, Nat.mul_comm (2 ^ _) k, hcomm] at h
  · -- the first double of the block lies between the other double and the quotient
    by_cases hspacing : 0 < spacing num den
    · refine (isRounded_significand hden).within (k := 2 ^ 52) ?_
      have hfirst := Nat.mul_le_mul_right den hle
      rw [hcomm] at hfirst
      have hquotient := mul_spacing_le hspacing
      obtain ⟨h₁, h₂⟩ := h
      exact ⟨by omega, by omega⟩
    · have hzero : spacing num den = 0 := by omega
      refine (isRounded_significand hden).within (k := unitsOfBits bits) ?_
      rwa [hzero, Nat.pow_zero, Nat.mul_one]

def lastSpacing : Nat := 2045

/-- The greatest finite double is one spacing below the end of the last block. -/
theorem unitsOfBits_add_le {bits : Nat} (h : bits < infinityBits) :
    unitsOfBits bits + 2 ^ lastSpacing ≤ 2 ^ 53 * 2 ^ lastSpacing := by
  unfold unitsOfBits
  rw [infinityBits_eq] at h
  split
  · have hpos : 0 < 2 ^ lastSpacing := Nat.two_pow_pos _
    omega
  · have hexponent : 2 ^ (bits / 2 ^ 52 - 1) ≤ 2 ^ lastSpacing :=
      Nat.pow_le_pow_right (by decide) (by unfold lastSpacing; omega)
    have hmantissa := Nat.mod_lt bits (Nat.two_pow_pos 52)
    have hmul : (2 ^ 52 + bits % 2 ^ 52) * 2 ^ (bits / 2 ^ 52 - 1) ≤ (2 ^ 53 - 1) * 2 ^ lastSpacing :=
      Nat.mul_le_mul (by omega) hexponent
    omega

/-- A double whose bits are not below those of infinity is past the last block. -/
theorem le_significand_mul (hden : 0 < den)
    (h : infinityBits ≤ spacing num den * 2 ^ 52 + significand num den) :
    2 ^ 53 * 2 ^ lastSpacing ≤ significand num den * 2 ^ spacing num den := by
  have hpos : 0 < den * 2 ^ spacing num den := Nat.mul_pos hden (Nat.two_pow_pos _)
  have hupper := (isRounded_significand hden).le_of_le_mul hpos (Nat.le_of_lt (lt_mul_spacing hden))
  have hlastSpacing : lastSpacing = 2045 := rfl
  rw [infinityBits_eq] at h
  by_cases hlast : spacing num den = lastSpacing
  · have hsignificand : significand num den = 2 ^ 53 := by omega
    rw [hlast, hsignificand]
  · have hnormal : 2 ^ 52 ≤ significand num den :=
      (isRounded_significand hden).le_of_mul_le hpos (mul_spacing_le (by omega))
    calc 2 ^ 53 * 2 ^ lastSpacing = 2 ^ 52 * 2 ^ (lastSpacing + 1) := by
          rw [Nat.pow_succ 2 lastSpacing]; ring
      _ ≤ significand num den * 2 ^ spacing num den :=
        Nat.mul_le_mul hnormal (Nat.pow_le_pow_right (by decide) (by omega))

/-- A quotient that is near a finite double is not rounded to infinity. -/
theorem nearest_lt_infinity (hden : 0 < den) {bits d : Nat} (hbits : bits < infinityBits)
    (hd : 2 * d ≤ 2 ^ unitPlaces)
    (h : Within d (unitsOfBits bits * den) (num * 2 ^ unitPlaces)) :
    spacing num den * 2 ^ 52 + significand num den < infinityBits := by
  by_contra hge
  have hnear := within_nearest hden h
  have hgap : (unitsOfBits bits + 2 ^ lastSpacing) * den
      ≤ significand num den * 2 ^ spacing num den * den :=
    Nat.mul_le_mul_right den
      (Nat.le_trans (unitsOfBits_add_le hbits) (le_significand_mul hden (Nat.not_lt.mp hge)))
  rw [Nat.add_mul] at hgap
  have hlast : 2 ^ unitPlaces < 2 ^ lastSpacing * den :=
    Nat.lt_of_lt_of_le (Nat.pow_lt_pow_right (by decide) (by decide)) (Nat.le_mul_of_pos_right _ hden)
  obtain ⟨h₁, h₂⟩ := h
  obtain ⟨h₃, h₄⟩ := hnear
  omega

/-! ### Printing what was read -/

/-- The double nearest to a printed decimal is finite and prints as that decimal. -/
theorem scaled_nearestBits {bits : Nat} (hbits : bits < infinityBits) (places : Nat) :
    let n := scaled (unitsOfBits bits) places
    nearestBits n (10 ^ places) < infinityBits ∧
      scaled (unitsOfBits (nearestBits n (10 ^ places))) places = n := by
  intro n
  have hden : 0 < 10 ^ places := Nat.pow_pos (by decide)
  have hunit : 0 < 2 ^ unitPlaces := Nat.two_pow_pos _
  have hn : n = roundHalfEven (unitsOfBits bits * 10 ^ places) (2 ^ unitPlaces) := scaled_eq _ _
  have hrounded : IsRounded (unitsOfBits bits * 10 ^ places) (2 ^ unitPlaces) n := by
    rw [hn]
    exact isRounded_roundHalfEven hunit
  obtain ⟨d, hd⟩ : ∃ d, d = (unitsOfBits bits * 10 ^ places - n * 2 ^ unitPlaces)
    + (n * 2 ^ unitPlaces - unitsOfBits bits * 10 ^ places) := ⟨_, rfl⟩
  have hupper := hrounded.upper
  have hlower := hrounded.lower
  have hfinite : spacing n (10 ^ places) * 2 ^ 52 + significand n (10 ^ places) < infinityBits :=
    nearest_lt_infinity hden (d := d) hbits (by omega) ⟨by omega, by omega⟩
  have hbitsEq : nearestBits n (10 ^ places)
      = spacing n (10 ^ places) * 2 ^ 52 + significand n (10 ^ places) := by
    rw [nearestBits_eq, Nat.min_eq_left (Nat.le_of_lt hfinite)]
  rw [hbitsEq, unitsOfBits_nearest hden, scaled_eq]
  exact ⟨hfinite, (hrounded.of_within fun e he => within_nearest hden he).eq_roundHalfEven hunit⟩

end WardleyMap.Decimal
