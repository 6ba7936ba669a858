import Mathlib.Algebra.Group.Nat.Defs
import WardleyMap.Decimal.Fixed
import WardleyMap.Proofs.Decimal.Literal

/-!
# Printed numbers are literals

The text of a finite double is a literal, with a minus sign or with no sign at all. Only the two
infinities and what is not a number are printed as words.
-/

namespace WardleyMap

namespace Decimal

def pointDigits (n places zeros : Nat) : Text :=
  (if places = 0 then [] else (Nat.toDigits 10 (n % 10 ^ places)).leftpad places '0') ++
    List.replicate zeros '0'

theorem pointText_eq (n places zeros : Nat) : pointText n places zeros
    = Nat.toDigits 10 (n / 10 ^ places) ++
      if places + zeros = 0 then [] else '.' :: pointDigits n places zeros := by
  unfold pointText pointDigits
  by_cases h : places + zeros = 0
  · simp only [if_pos h, List.append_nil, Nat.pow_eq]
  · simp only [if_neg h, Nat.pow_eq]

theorem isDigit_of_mem_toDigits {n : Nat} : ∀ c ∈ Nat.toDigits 10 n, c.isDigit = true :=
  fun _ hc => Nat.isDigit_of_mem_toDigits (by decide) (by decide) hc

theorem isDigit_of_mem_zeros {n : Nat} : ∀ c ∈ List.replicate n '0', c.isDigit = true := by
  intro c hc
  rw [(List.mem_replicate.mp hc).2]
  rfl

theorem isDigit_of_mem_pointDigits {n places zeros : Nat} :
    ∀ c ∈ pointDigits n places zeros, c.isDigit = true := by
  intro c hc
  rcases List.mem_append.mp hc with hc | hc
  · split at hc
    · simp at hc
    · exact (List.mem_append.mp hc).elim (isDigit_of_mem_zeros c) (isDigit_of_mem_toDigits c)
  · exact isDigit_of_mem_zeros c hc

theorem isParts_pointText (n places zeros : Nat) {sign : Text}
    (hsign : sign = [] ∨ sign = ['-'] ∨ sign = ['+']) :
    IsParts sign (Nat.toDigits 10 (n / 10 ^ places))
      (if places + zeros = 0 then [] else '.' :: pointDigits n places zeros) := by
  refine ⟨hsign, isDigit_of_mem_toDigits, ?_, Or.inl Nat.toDigits_ne_nil⟩
  split
  · exact Or.inl rfl
  · exact Or.inr ⟨_, rfl, isDigit_of_mem_pointDigits⟩

theorem isLiteral_pointText (n places zeros : Nat) :
    isLiteral (pointText n places zeros) = true := by
  refine isLiteral_iff.mpr ⟨[], _, _, isParts_pointText n places zeros (Or.inl rfl), ?_⟩
  rw [pointText_eq, List.nil_append]

theorem isLiteral_neg_pointText (n places zeros : Nat) :
    isLiteral ('-' :: pointText n places zeros) = true := by
  refine isLiteral_iff.mpr ⟨['-'], _, _, isParts_pointText n places zeros (Or.inr (Or.inl rfl)), ?_⟩
  rw [pointText_eq]
  rfl

theorem fixed_finite {x : Float} {negative : Bool} {units : Nat}
    (h : Double.ofFloat x = .finite negative units) (places : Nat) : fixed x places =
      let known := min places unitPlaces
      let n := scaled units known
      if negative ∧ n ≠ 0 then '-' :: pointText n known (places - known)
      else pointText n known (places - known) := by
  simp only [fixed, h]

theorem isLiteral_fixed {x : Float} {negative : Bool} {units : Nat}
    (h : Double.ofFloat x = .finite negative units) (places : Nat) :
    isLiteral (fixed x places) = true := by
  rw [fixed_finite h]
  dsimp only
  split
  · exact isLiteral_neg_pointText _ _ _
  · exact isLiteral_pointText _ _ _

/-- What is printed for a double is a literal, or one of the three words for what has no digits. -/
theorem isLiteral_fixed_or (x : Float) (places : Nat) : isLiteral (fixed x places) = true ∨
    fixed x places ∈ [['N', 'a', 'N'], ['i', 'n', 'f'], ['-', 'i', 'n', 'f']] := by
  cases h : Double.ofFloat x with
  | notANumber =>
      right
      simp [fixed, h]
  | infinite negative =>
      right
      cases negative <;> simp [fixed, h]
  | finite negative units => exact Or.inl (isLiteral_fixed h places)

end Decimal

end WardleyMap
