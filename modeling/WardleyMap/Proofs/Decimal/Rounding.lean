import Mathlib.Tactic.NormNum
import WardleyMap.Decimal.Rounding

/-!
# The nearest whole number

`Decimal.roundHalfEven num den` is the one whole number that is at most half of `den` away from
`num / den`, and even if it is exactly half away. `IsRounded` states this without division, so that
whatever satisfies it is the rounded number; in particular no other whole number is nearer, and scaling
both numbers does not matter.
-/

namespace WardleyMap.Decimal

/-- `r` is `num / den` rounded: at most half away, and even if exactly half away. -/
structure IsRounded (num den r : Nat) : Prop where
  upper : 2 * (r * den) ≤ 2 * num + den
  lower : 2 * num ≤ 2 * (r * den) + den
  even : 2 * (r * den) = 2 * num + den ∨ 2 * num = 2 * (r * den) + den → r % 2 = 0

/-- Comparing twice the remainder with the denominator tells which neighbour is nearest. -/
theorem isRounded_roundHalfEven {num den : Nat} (hden : 0 < den) :
    IsRounded num den (roundHalfEven num den) := by
  have hdiv := Nat.div_add_mod num den
  have hmod := Nat.mod_lt num hden
  have hquotient : num / den * den = den * (num / den) := Nat.mul_comm _ _
  have hsucc : (num / den + 1) * den = den * (num / den) + den := by
    rw [Nat.add_mul, Nat.mul_comm, Nat.one_mul]
  unfold roundHalfEven
  dsimp only
  split
  · next hlt =>
      have hlt := Nat.compare_eq_lt.mp hlt
      exact ⟨by omega, by omega, fun h => by omega⟩
  · next heq =>
      have heq := Nat.compare_eq_eq.mp heq
      rcases Nat.mod_two_eq_zero_or_one (num / den) with heven | hodd
      · rw [heven, Nat.add_zero]
        exact ⟨by omega, by omega, fun _ => heven⟩
      · rw [hodd]
        exact ⟨by omega, by omega, fun _ => by omega⟩
  · next hgt =>
      have hgt := Nat.compare_eq_gt.mp hgt
      exact ⟨by omega, by omega, fun h => by omega⟩

namespace IsRounded

variable {num den r s : Nat}

/-- Whole numbers that lie at most half of `den` from one number differ by one at most. -/
theorem unique (hr : IsRounded num den r) (hs : IsRounded num den s) (hden : 0 < den) : r = s := by
  have hle : ∀ {a b : Nat}, IsRounded num den a → IsRounded num den b → a < b → False := by
    intro a b ha hb hab
    obtain ⟨k, rfl⟩ := Nat.exists_eq_add_of_lt hab
    have hmul : (a + k + 1) * den = a * den + k * den + den := by
      rw [Nat.add_mul, Nat.add_mul, Nat.one_mul]
    have hupper := hb.upper
    have hlower := ha.lower
    rw [hmul] at hupper
    have hk : k * den = 0 := by omega
    have hk0 : k = 0 := (Nat.mul_eq_zero.mp hk).resolve_right (by omega)
    subst hk0
    -- both are exactly half away, so both would have to be even
    have haeven := ha.even (Or.inr (by omega))
    have hbeven := hb.even (Or.inl (by omega))
    omega
  rcases Nat.lt_trichotomy r s with h | h | h
  · exact (hle hr hs h).elim
  · exact h
  · exact (hle hs hr h).elim

theorem eq_roundHalfEven (h : IsRounded num den r) (hden : 0 < den) : roundHalfEven num den = r :=
  (isRounded_roundHalfEven hden).unique h hden

theorem le_of_mul_le (h : IsRounded num den r) (hden : 0 < den) {a : Nat} (ha : a * den ≤ num) :
    a ≤ r := by
  by_contra hlt
  have hmul : (r + 1) * den ≤ a * den := Nat.mul_le_mul_right den (by omega)
  have hlower := h.lower
  rw [Nat.add_mul, Nat.one_mul] at hmul
  omega

theorem le_of_le_mul (h : IsRounded num den r) (hden : 0 < den) {a : Nat} (ha : num ≤ a * den) :
    r ≤ a := by
  by_contra hlt
  have hmul : (a + 1) * den ≤ r * den := Nat.mul_le_mul_right den (by omega)
  have hupper := h.upper
  rw [Nat.add_mul, Nat.one_mul] at hmul
  omega

/-- A fraction may be extended without being rounded otherwise. -/
theorem mul_right (h : IsRounded num den r) {k : Nat} (hk : 0 < k) :
    IsRounded (num * k) (den * k) r := by
  have hassoc : r * (den * k) = r * den * k := (Nat.mul_assoc _ _ _).symm
  have hupper := Nat.mul_le_mul_right k h.upper
  have hlower := Nat.mul_le_mul_right k h.lower
  rw [Nat.add_mul, Nat.mul_assoc 2, Nat.mul_assoc 2] at hupper hlower
  refine ⟨by omega, by omega, fun htie => h.even (htie.imp (fun heq => ?_) fun heq => ?_)⟩
  · refine Nat.eq_of_mul_eq_mul_right hk ?_
    rw [Nat.add_mul, Nat.mul_assoc 2, Nat.mul_assoc 2]
    omega
  · refine Nat.eq_of_mul_eq_mul_right hk ?_
    rw [Nat.add_mul, Nat.mul_assoc 2, Nat.mul_assoc 2]
    omega

end IsRounded

theorem roundHalfEven_mul_right (num : Nat) {den k : Nat} (hden : 0 < den) (hk : 0 < k) :
    roundHalfEven (num * k) (den * k) = roundHalfEven num den :=
  ((isRounded_roundHalfEven hden).mul_right hk).eq_roundHalfEven (Nat.mul_pos hden hk)

/-! ### Distances -/

def Within (d a b : Nat) : Prop :=
  a ≤ b + d ∧ b ≤ a + d

/-- No whole number is nearer than the rounded one. -/
theorem IsRounded.within {num den r : Nat} (h : IsRounded num den r) {d k : Nat}
    (hk : Within d (k * den) num) : Within d (r * den) num := by
  obtain ⟨hupper, hlower, -⟩ := h
  obtain ⟨hk₁, hk₂⟩ := hk
  unfold Within
  rcases Nat.lt_trichotomy k r with hlt | rfl | hlt
  · have hmul : (k + 1) * den ≤ r * den := Nat.mul_le_mul_right den hlt
    rw [Nat.add_mul, Nat.one_mul] at hmul
    omega
  · exact ⟨hk₁, hk₂⟩
  · have hmul : (r + 1) * den ≤ k * den := Nat.mul_le_mul_right den hlt
    rw [Nat.add_mul, Nat.one_mul] at hmul
    omega

/-- A number half a unit away at most, and even in the middle, rounds back: the two numbers whose
rounding is compared need not be equal, only equally near. -/
theorem IsRounded.of_within {num den r : Nat} (h : IsRounded num den r) {num' : Nat}
    (hnear : ∀ d, Within d num (r * den) → Within d num' (r * den)) : IsRounded num' den r := by
  obtain ⟨hupper, hlower, heven⟩ := h
  obtain ⟨d, hd⟩ : ∃ d, d = (num - r * den) + (r * den - num) := ⟨_, rfl⟩
  obtain ⟨h₁, h₂⟩ := hnear d ⟨by omega, by omega⟩
  exact ⟨by omega, by omega, fun htie => heven (by omega)⟩

end WardleyMap.Decimal
