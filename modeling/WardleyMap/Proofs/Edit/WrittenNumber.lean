import WardleyMap.Proofs.Edit.Numbers

/-!
# Written numbers read back

Two roundings meet where a number is written and read again: the exact value of a double to a decimal, and the
decimal to the nearest double. The second double need not be the first one, but it is printed alike, at
every number of places, so writing a number is settled after one time. Here this is said of the cursor
that reads the number from its line, together with the form of what is written: a reader of the line
finds no exponent, no point without digits, and no sign before zeros.
-/

namespace WardleyMap

namespace Decimal

/-- The parts of a number that is written with so many places: the sign, which only a number other than zero
has, the digits before the point and the digits after it. -/
structure IsPlaced (places : Nat) (sign whole digits : Text) : Prop where
  sign_form : sign = [] ∨ sign = ['-'] ∧ ∃ c ∈ whole ++ digits, c ≠ '0'
  whole_ne_nil : whole ≠ []
  isDigit : ∀ c ∈ whole ++ digits, c.isDigit = true
  length_digits : digits.length = places

def placedText (places : Nat) (sign whole digits : Text) : Text :=
  sign ++ (whole ++ if places = 0 then [] else '.' :: digits)

theorem exists_digit_ne_zero {n : Nat} (hn : n ≠ 0) (places zeros : Nat) :
    ∃ c ∈ Nat.toDigits 10 (n / 10 ^ places) ++ pointDigits n places zeros, c ≠ '0' := by
  by_contra hall
  push Not at hall
  have hzero := ofDigitChars_pointText n places zeros
  rw [List.eq_replicate_of_mem hall, Nat.ofDigitChars_replicate_zero, Nat.mul_zero] at hzero
  have hpos : 0 < n * 10 ^ zeros := Nat.mul_pos (Nat.pos_of_ne_zero hn) (Nat.pow_pos (by decide))
  exact absurd hzero.symm hpos.ne'

/-- Every finite double is written as a number with exactly the places that are asked for. -/
theorem exists_isPlaced {v : Float} (h : v.isFinite = true) (places : Nat) :
    ∃ sign whole digits, IsPlaced places sign whole digits ∧
      fixed v places = placedText places sign whole digits := by
  obtain ⟨negative, units, hv⟩ := exists_finite h
  let known := min places unitPlaces
  let n := scaled units known
  have hplaces : known + (places - known) = places := Nat.add_sub_cancel' (Nat.min_le_left ..)
  have hdigits : ∀ c ∈ Nat.toDigits 10 (n / 10 ^ known) ++ pointDigits n known (places - known),
      c.isDigit = true := fun c hc =>
    (List.mem_append.mp hc).elim (isDigit_of_mem_toDigits c) (isDigit_of_mem_pointDigits c)
  have hlength : (pointDigits n known (places - known)).length = places := by
    rw [length_pointDigits, hplaces]
  have htext := pointText_eq n known (places - known)
  rw [hplaces] at htext
  rw [fixed_finite hv]
  dsimp only
  split
  · next hsigned =>
      refine ⟨['-'], _, _, ⟨Or.inr ⟨rfl, exists_digit_ne_zero hsigned.2 _ _⟩, Nat.toDigits_ne_nil,
        hdigits, hlength⟩, ?_⟩
      exact congrArg ('-' :: ·) htext
  · exact ⟨[], _, _, ⟨Or.inl rfl, Nat.toDigits_ne_nil, hdigits, hlength⟩, htext⟩

end Decimal

namespace Cursor

/-- What is written for a finite double is read as one number, to its last digit, and the number that is read
is written the same way again. -/
theorem number?_fixed {v : Float} (h : v.isFinite = true) (places : Nat) :
    (∃ sign whole digits, Decimal.IsPlaced places sign whole digits ∧
      Decimal.fixed v places = Decimal.placedText places sign whole digits) ∧
    ∃ w : Float,
      (∀ (col : Nat) (rest : Text), Decimal.Stops rest →
        let stop := col + (Decimal.fixed v places).length
        (⟨col, Decimal.fixed v places ++ rest⟩ : Cursor).number?
          = some (⟨⟨col, stop⟩, w⟩, ⟨stop, rest⟩)) ∧
      Decimal.fixed w places = Decimal.fixed v places ∧ Decimal.agreesAt places w v = true := by
  refine ⟨Decimal.exists_isPlaced h places, Decimal.value (Decimal.fixed v places), ?_, ?_,
    Decimal.agreesAt_value_fixed h places⟩
  · intro col rest hrest
    exact number?_of_passes (.mk_append col _ rest) (Decimal.isLiteral_fixed_of_isFinite h places) hrest
  · obtain ⟨negative, units, hv⟩ := Decimal.exists_finite h
    exact Decimal.fixed_value_fixed hv places

/-- A double between two hundredths is written without its sign, and another double is read. -/
theorem number?_fixed_rounded :
    (-0.004 : Float).isFinite = true ∧ Decimal.fixed (-0.004) 2 = ['0', '.', '0', '0'] ∧
      ∃ w : Float, (⟨0, ['0', '.', '0', '0', ']']⟩ : Cursor).number?
        = some (⟨⟨0, 4⟩, w⟩, ⟨4, [']']⟩) ∧ Decimal.agreesAt 2 w (-0.004) = true := by
  have hfinite : (-0.004 : Float).isFinite = true := by decide +kernel
  have htext : Decimal.fixed (-0.004) 2 = ['0', '.', '0', '0'] := by decide +kernel
  obtain ⟨-, w, hread, -, hagrees⟩ := number?_fixed hfinite 2
  have hread := hread 0 [']'] (Decimal.stops_cons (by decide) (by decide) [])
  rw [htext] at hread
  exact ⟨hfinite, htext, w, hread, hagrees⟩

end Cursor

end WardleyMap
