import WardleyMap.Edit.Plan
import WardleyMap.Proofs.Decimal.Fixed
import WardleyMap.Proofs.Document.Lines

/-!
# What is written stays on its line

An edit writes numbers, names, brackets and folded text, and none of them holds a line break whatever it
was made from: a number is digits, a name that holds a break is written between quotes with the break
escaped, and folding leaves no blank but the space. An edit that writes something therefore cannot
break its line. One that only deletes can still lay bare a carriage return that was inside the line,
which has to be ruled out by what stands before the part that is deleted.
-/

namespace WardleyMap

namespace Text

def IsUnbroken (s : Text) : Prop :=
  ∀ c ∈ s, c ≠ '\n' ∧ c ≠ '\r'

theorem isUnbroken_append {s t : Text} : IsUnbroken (s ++ t) ↔ IsUnbroken s ∧ IsUnbroken t := by
  simp only [IsUnbroken, List.mem_append]
  exact ⟨fun h => ⟨fun c hc => h c (Or.inl hc), fun c hc => h c (Or.inr hc)⟩,
    fun h c hc => hc.elim (h.1 c) (h.2 c)⟩

theorem isUnbroken_cons {c : Char} {s : Text} :
    IsUnbroken (c :: s) ↔ (c ≠ '\n' ∧ c ≠ '\r') ∧ IsUnbroken s := by
  simp [IsUnbroken]

theorem isUnbroken_nil : IsUnbroken [] := by
  simp [IsUnbroken]

theorem isUnbroken_intercalate {sep : Text} {pieces : List Text} (hsep : IsUnbroken sep)
    (hpieces : ∀ piece ∈ pieces, IsUnbroken piece) : IsUnbroken (List.intercalate sep pieces) := by
  induction pieces with
  | nil => exact isUnbroken_nil
  | cons piece pieces ih =>
      have hpiece := hpieces piece List.mem_cons_self
      have hrest := ih fun other hother => hpieces other (List.mem_cons_of_mem _ hother)
      cases pieces with
      | nil => simpa using hpiece
      | cons next pieces =>
          rw [List.intercalate_cons_cons]
          exact isUnbroken_append.mpr ⟨isUnbroken_append.mpr ⟨hpiece, hsep⟩, hrest⟩

theorem isUnbroken_of_not_isBlank {s : Text} (h : ∀ c ∈ s, isBlank c = false) : IsUnbroken s := by
  intro c hc
  have := h c hc
  constructor <;> rintro rfl <;> revert this <;> decide

theorem isUnbroken_fold (s : Text) : IsUnbroken s.fold := by
  refine isUnbroken_intercalate (by simp [IsUnbroken]) fun word hword => ?_
  exact isUnbroken_of_not_isBlank fun c hc => (mem_of_mem_split (List.mem_filter.mp hword).1 c hc).2

end Text

namespace Decimal

theorem fixed_ne_nil (x : Float) (places : Nat) : fixed x places ≠ [] := by
  rcases isLiteral_fixed_or x places with h | h
  · exact literal_ne_nil h
  · intro hnil
    rw [hnil] at h
    exact absurd h (by decide)

theorem isUnbroken_literal {literal : Text} (h : isLiteral literal = true) :
    Text.IsUnbroken literal := by
  intro c hc
  have := isNumeral_of_mem h c hc
  constructor <;> rintro rfl <;> revert this <;> decide

theorem isUnbroken_fixed (x : Float) (places : Nat) : Text.IsUnbroken (fixed x places) := by
  rcases isLiteral_fixed_or x places with h | h
  · exact isUnbroken_literal h
  · simp only [List.mem_cons, List.not_mem_nil, or_false] at h
    rcases h with h | h | h <;> simp [h, Text.IsUnbroken]

end Decimal

namespace Name

/-- Escaping a name removes its line breaks, so a quoted name fits on a line. -/
theorem isUnbroken_escape (name : Text) : Text.IsUnbroken (escape name) := by
  induction name using escape.induct with
  | case1 => exact Text.isUnbroken_nil
  | case2 s ih | case3 s ih | case4 s ih =>
      rw [escape]
      exact Text.isUnbroken_cons.mpr ⟨by decide, Text.isUnbroken_cons.mpr ⟨by decide, ih⟩⟩
  | case5 s hfeed ih =>
      rw [escape]
      · exact Text.isUnbroken_cons.mpr ⟨by decide, Text.isUnbroken_cons.mpr ⟨by decide, ih⟩⟩
      · exact hfeed
  | case6 c s hquote hfeed _ hreturn ih =>
      rw [escape]
      · exact Text.isUnbroken_cons.mpr ⟨⟨hfeed, hreturn⟩, ih⟩
      all_goals assumption

theorem isUnbroken_encode (name : Text) : Text.IsUnbroken (encode name) := by
  unfold encode
  split
  · refine Text.isUnbroken_cons.mpr ⟨by decide, Text.isUnbroken_append.mpr ⟨isUnbroken_escape name, ?_⟩⟩
    simp [Text.IsUnbroken]
  · next h =>
      intro c hc
      simp only [needsQuoting, Bool.or_eq_true, not_or, Bool.not_eq_true, List.any_eq_false] at h
      have := h.1.1.1 c hc
      constructor <;> rintro rfl <;> revert this <;> decide

theorem encode_ne_nil {name : Text} (h : name ≠ []) : encode name ≠ [] := by
  unfold encode
  split
  · simp
  · exact h

end Name

end WardleyMap
