import WardleyMap.Decimal.Literal
import WardleyMap.Proofs.Text.Trim

/-!
# The grammar of literals

`Decimal.literalLength?` scans: a sign if there is one, the digits, and a point with more digits if a
point follows. Here the same is said by form. A literal is a sign, digits and a fraction, with a
digit on one side of the point; a text starts with a literal exactly when the scan succeeds; and the
scan stops behind a literal whenever what follows cannot prolong it. Blanks, commas and brackets
cannot, and these are all that ever follows a number on a line.
-/

namespace WardleyMap

namespace Decimal

def isNumeral (c : Char) : Bool :=
  c.isDigit || c == '.' || c == '-' || c == '+'

/-- The three parts of a literal. The fraction starts with the point. -/
structure IsParts (sign whole fraction : Text) : Prop where
  sign_form : sign = [] ∨ sign = ['-'] ∨ sign = ['+']
  whole_digits : ∀ c ∈ whole, c.isDigit = true
  fraction_form : fraction = [] ∨
    ∃ digits, fraction = '.' :: digits ∧ ∀ c ∈ digits, c.isDigit = true
  has_digit : whole ≠ [] ∨ 1 < fraction.length

/-- What follows a literal does not prolong it: it starts neither with a digit nor with a point. -/
def Stops (rest : Text) : Prop :=
  ∀ c ∈ rest.head?, c.isDigit = false ∧ c ≠ '.'

theorem stops_cons {c : Char} (hdigit : c.isDigit = false) (hpoint : c ≠ '.') (rest : Text) :
    Stops (c :: rest) := by
  intro d hd
  obtain rfl : c = d := by simpa using hd
  exact ⟨hdigit, hpoint⟩

theorem not_isDigit_of_isBlank {c : Char} (h : isBlank c = true) : c.isDigit = false := by
  by_contra hdigit
  simp only [Bool.not_eq_false, Char.isDigit_iff_toNat, show '0'.toNat = 48 from rfl,
    show '9'.toNat = 57 from rfl] at hdigit
  simp only [isBlank, Bool.or_eq_true, Bool.and_eq_true, decide_eq_true_eq, beq_iff_eq] at h
  omega

theorem not_isNumeral_of_isBlank {c : Char} (h : isBlank c = true) : isNumeral c = false := by
  have hne : ∀ d : Char, isBlank d = false → c ≠ d := by
    rintro d hd rfl
    simp [h] at hd
  simp [isNumeral, not_isDigit_of_isBlank h, hne '.' (by decide), hne '-' (by decide),
    hne '+' (by decide)]

theorem stops_of_isBlank {rest : Text} (h : ∀ c ∈ rest.head?, isBlank c = true) : Stops rest := by
  intro c hc
  refine ⟨not_isDigit_of_isBlank (h c hc), ?_⟩
  rintro rfl
  exact absurd (h _ hc) (by decide)

theorem digitCount_append {digits rest : Text} (hdigits : ∀ c ∈ digits, c.isDigit = true)
    (hrest : ∀ c ∈ rest.head?, c.isDigit = false) : digitCount (digits ++ rest) = digits.length := by
  rw [digitCount, Text.takeWhile_append_of_head hdigits hrest]

theorem signLength_append {sign rest : Text} (hsign : sign = [] ∨ sign = ['-'] ∨ sign = ['+'])
    (hunsigned : sign = [] → ∀ c ∈ rest.head?, c ≠ '-' ∧ c ≠ '+') :
    signLength (sign ++ rest) = sign.length := by
  rcases hsign with rfl | rfl | rfl
  · rw [List.nil_append, signLength, if_neg]
    · rfl
    · rintro (h | h)
      · exact (hunsigned rfl _ h).1 rfl
      · exact (hunsigned rfl _ h).2 rfl
  · simp [signLength]
  · simp [signLength]

/-! ### The scan, on a text that is cut where the scan stops -/

section Cut

variable {sign whole rest : Text} (hsign : sign = [] ∨ sign = ['-'] ∨ sign = ['+'])
  (hunsigned : sign = [] → ∀ c ∈ (whole ++ rest).head?, c ≠ '-' ∧ c ≠ '+')
  (hwhole : ∀ c ∈ whole, c.isDigit = true)

omit hsign hunsigned hwhole in
theorem drop_cut : (sign ++ (whole ++ rest)).drop (sign.length + whole.length) = rest := by
  rw [← List.append_assoc, ← List.length_append, List.drop_left]

include hsign hunsigned hwhole

theorem literalLength?_cut_point {tail : Text} (hrest : rest = '.' :: tail) :
    literalLength? (sign ++ (whole ++ rest))
      = if whole.length = 0 ∧ digitCount tail = 0 then none
        else some (sign.length + whole.length + 1 + digitCount tail) := by
  have hcount : digitCount (whole ++ rest) = whole.length :=
    digitCount_append hwhole (by simp [hrest])
  unfold literalLength?
  simp only [signLength_append hsign hunsigned, List.drop_left, hcount, drop_cut]
  simp only [hrest]

theorem literalLength?_cut_end (hrest : ∀ c ∈ rest.head?, c.isDigit = false)
    (hpoint : rest.head? ≠ some '.') :
    literalLength? (sign ++ (whole ++ rest))
      = if whole.length = 0 then none else some (sign.length + whole.length) := by
  have hcount : digitCount (whole ++ rest) = whole.length := digitCount_append hwhole hrest
  unfold literalLength?
  simp only [signLength_append hsign hunsigned, List.drop_left, hcount, drop_cut]
  split
  · next htail => exact absurd rfl hpoint
  · rfl

end Cut

/-- Every text has a longest sign and a longest run of digits at its start. -/
theorem exists_cut (s : Text) : ∃ sign whole rest : Text, s = sign ++ (whole ++ rest) ∧
    (sign = [] ∨ sign = ['-'] ∨ sign = ['+']) ∧
    (sign = [] → ∀ c ∈ (whole ++ rest).head?, c ≠ '-' ∧ c ≠ '+') ∧
    (∀ c ∈ whole, c.isDigit = true) ∧ ∀ c ∈ rest.head?, c.isDigit = false := by
  have hdigits : ∀ t : Text, ∃ whole rest : Text, t = whole ++ rest ∧
      (∀ c ∈ whole, c.isDigit = true) ∧ ∀ c ∈ rest.head?, c.isDigit = false := fun t =>
    ⟨_, _, List.takeWhile_append_dropWhile.symm, fun _ hc => List.mem_takeWhile_imp hc,
      Text.head?_dropWhile⟩
  by_cases hsign : s.head? = some '-' ∨ s.head? = some '+'
  · obtain ⟨c, tail, rfl, hc⟩ : ∃ c tail, s = c :: tail ∧ (c = '-' ∨ c = '+') := by
      rcases hsign with h | h
      · obtain ⟨tail, rfl⟩ := List.head?_eq_some_iff.mp h
        exact ⟨_, tail, rfl, Or.inl rfl⟩
      · obtain ⟨tail, rfl⟩ := List.head?_eq_some_iff.mp h
        exact ⟨_, tail, rfl, Or.inr rfl⟩
    obtain ⟨whole, rest, htail, hwhole, hrest⟩ := hdigits tail
    refine ⟨[c], whole, rest, by rw [htail]; rfl, ?_, by simp, hwhole, hrest⟩
    rcases hc with rfl | rfl
    · exact Or.inr (Or.inl rfl)
    · exact Or.inr (Or.inr rfl)
  · obtain ⟨whole, rest, htail, hwhole, hrest⟩ := hdigits s
    refine ⟨[], whole, rest, htail, Or.inl rfl, fun _ c hc => ⟨?_, ?_⟩, hwhole, hrest⟩
    · rintro rfl
      exact hsign (Or.inl (htail ▸ hc))
    · rintro rfl
      exact hsign (Or.inr (htail ▸ hc))

/-- The scan passes a literal, if what follows does not prolong it. -/
theorem literalLength?_parts {sign whole fraction rest : Text} (h : IsParts sign whole fraction)
    (hrest : ∀ c ∈ rest.head?, c.isDigit = false) (hpoint : fraction = [] → rest.head? ≠ some '.') :
    literalLength? (sign ++ (whole ++ (fraction ++ rest)))
      = some (sign ++ (whole ++ fraction)).length := by
  have hunsigned : sign = [] → ∀ c ∈ (whole ++ (fraction ++ rest)).head?, c ≠ '-' ∧ c ≠ '+' := by
    intro _ c hc
    have hc' : c.isDigit = true ∨ c = '.' := by
      rcases h.has_digit with hwhole | hfraction
      · obtain ⟨d, whole', rfl⟩ := List.exists_cons_of_ne_nil hwhole
        obtain rfl : d = c := by simpa using hc
        exact Or.inl (h.whole_digits d List.mem_cons_self)
      · rcases h.fraction_form with rfl | ⟨digits, rfl, -⟩
        · simp at hfraction
        · cases whole with
          | nil =>
              right
              simpa using hc.symm
          | cons d whole =>
              obtain rfl : d = c := by simpa using hc
              exact Or.inl (h.whole_digits d List.mem_cons_self)
    constructor <;> rintro rfl <;> revert hc' <;> decide
  rcases h.fraction_form with rfl | ⟨digits, rfl, hdigits⟩
  · have hwhole : whole.length ≠ 0 := by
      have := h.has_digit
      simpa using this
    rw [List.nil_append] at hunsigned ⊢
    rw [literalLength?_cut_end h.sign_form hunsigned h.whole_digits hrest (hpoint rfl),
      if_neg hwhole, List.append_nil, List.length_append]
  · have hcount : digitCount (digits ++ rest) = digits.length := digitCount_append hdigits hrest
    have hdigit : ¬(whole.length = 0 ∧ digitCount (digits ++ rest) = 0) := by
      rw [hcount]
      rcases h.has_digit with hwhole | hfraction
      · simp [hwhole]
      · simp only [List.length_cons] at hfraction
        omega
    rw [List.cons_append] at hunsigned ⊢
    rw [literalLength?_cut_point h.sign_form hunsigned h.whole_digits rfl, if_neg hdigit, hcount]
    simp only [List.length_append, List.length_cons]
    congr 1
    omega

/-- What is recognized at the start of a text is a literal, and no digit follows it. -/
theorem exists_parts {s : Text} {n : Nat} (h : literalLength? s = some n) :
    ∃ sign whole fraction rest : Text, IsParts sign whole fraction ∧
      s = sign ++ (whole ++ (fraction ++ rest)) ∧ n = (sign ++ (whole ++ fraction)).length ∧
      ∀ c ∈ rest.head?, c.isDigit = false := by
  obtain ⟨sign, whole, rest, rfl, hsign, hunsigned, hwhole, hrest⟩ := exists_cut s
  by_cases hpoint : rest.head? = some '.'
  · obtain ⟨tail, rfl⟩ := List.head?_eq_some_iff.mp hpoint
    rw [literalLength?_cut_point hsign hunsigned hwhole rfl] at h
    split at h
    · simp at h
    · next hdigit =>
        obtain rfl := Option.some.inj h
        have htail : tail = tail.takeWhile Char.isDigit ++ tail.dropWhile Char.isDigit :=
          List.takeWhile_append_dropWhile.symm
        refine ⟨sign, whole, '.' :: tail.takeWhile Char.isDigit, tail.dropWhile Char.isDigit,
          ⟨hsign, hwhole, Or.inr ⟨_, rfl, fun c hc => List.mem_takeWhile_imp hc⟩, ?_⟩, ?_, ?_,
          Text.head?_dropWhile⟩
        · by_cases hnil : whole = []
          · right
            simp only [hnil, List.length_nil, true_and, digitCount] at hdigit
            simp only [List.length_cons]
            omega
          · exact Or.inl hnil
        · rw [List.cons_append, ← htail]
        · simp only [List.length_append, List.length_cons, digitCount]
          omega
  · rw [literalLength?_cut_end hsign hunsigned hwhole hrest hpoint] at h
    split at h
    · simp at h
    · next hdigit =>
        obtain rfl := Option.some.inj h
        refine ⟨sign, whole, [], rest, ⟨hsign, hwhole, Or.inl rfl, Or.inl ?_⟩, by simp, by simp, hrest⟩
        rintro rfl
        exact hdigit rfl

/-- The grammar of literals: a sign or none, digits, and a fraction or none, with one digit at least. -/
theorem isLiteral_iff {s : Text} : isLiteral s = true ↔
    ∃ sign whole fraction, IsParts sign whole fraction ∧ s = sign ++ (whole ++ fraction) := by
  rw [isLiteral, beq_iff_eq]
  constructor
  · intro h
    obtain ⟨sign, whole, fraction, rest, hparts, hs, hlength, -⟩ := exists_parts h
    refine ⟨sign, whole, fraction, hparts, ?_⟩
    have hrest : rest = [] := by
      have := congrArg List.length hs
      simp only [List.length_append] at this hlength
      exact List.eq_nil_of_length_eq_zero (by omega)
    simpa [hrest] using hs
  · rintro ⟨sign, whole, fraction, hparts, rfl⟩
    have hnil : ∀ c ∈ ([] : Text).head?, c.isDigit = false := by simp
    have h := literalLength?_parts hparts hnil (by simp)
    simpa using h

theorem literalLength?_append {literal rest : Text} (h : isLiteral literal = true)
    (hrest : Stops rest) : literalLength? (literal ++ rest) = some literal.length := by
  obtain ⟨sign, whole, fraction, hparts, rfl⟩ := isLiteral_iff.mp h
  rw [List.append_assoc, List.append_assoc]
  refine literalLength?_parts hparts (fun c hc => (hrest c hc).1) fun _ hpoint => ?_
  exact (hrest _ hpoint).2 rfl

theorem exists_literal {s : Text} {n : Nat} (h : literalLength? s = some n) :
    ∃ literal rest : Text, isLiteral literal = true ∧ s = literal ++ rest ∧ n = literal.length := by
  obtain ⟨sign, whole, fraction, rest, hparts, rfl, hn, -⟩ := exists_parts h
  exact ⟨sign ++ (whole ++ fraction), rest, isLiteral_iff.mpr ⟨_, _, _, hparts, rfl⟩, by simp, hn⟩

theorem isNumeral_of_mem {literal : Text} (h : isLiteral literal = true) :
    ∀ c ∈ literal, isNumeral c = true := by
  obtain ⟨sign, whole, fraction, hparts, rfl⟩ := isLiteral_iff.mp h
  intro c hc
  simp only [List.mem_append] at hc
  rcases hc with hc | hc | hc
  · rcases hparts.sign_form with rfl | rfl | rfl
    · simp at hc
    · obtain rfl : c = '-' := by simpa using hc
      rfl
    · obtain rfl : c = '+' := by simpa using hc
      rfl
  · simp [isNumeral, hparts.whole_digits c hc]
  · rcases hparts.fraction_form with rfl | ⟨digits, rfl, hdigits⟩
    · simp at hc
    · rcases List.mem_cons.mp hc with rfl | hc
      · rfl
      · simp [isNumeral, hdigits c hc]

theorem not_isBlank_of_mem {literal : Text} (h : isLiteral literal = true) :
    ∀ c ∈ literal, isBlank c = false := by
  intro c hc
  cases hblank : isBlank c with
  | false => rfl
  | true =>
      have hnot := not_isNumeral_of_isBlank hblank
      rw [isNumeral_of_mem h c hc] at hnot
      exact absurd hnot (by decide)

theorem not_mem_literal {literal : Text} (h : isLiteral literal = true) {c : Char}
    (hc : isNumeral c = false) : c ∉ literal := by
  intro hmem
  rw [isNumeral_of_mem h c hmem] at hc
  exact absurd hc (by decide)

theorem literal_ne_nil {literal : Text} (h : isLiteral literal = true) : literal ≠ [] := by
  rintro rfl
  exact absurd h (by decide)

end Decimal

end WardleyMap
