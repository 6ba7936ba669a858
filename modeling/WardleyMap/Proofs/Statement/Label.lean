import WardleyMap.Proofs.Name.Quote
import WardleyMap.Proofs.Statement.Clause

/-!
# Where a label can start

An edit of a line may bring a label clause into being, or destroy one, only by changing the text of
the clause itself. Two lemmas say so for what edits put into a line. A text that starts a label still
does so when text is added behind it. If it starts one only together with what was added, the clause
reaches into the addition, and the addition must show the closing bracket before any character that
no label holds; so an arrow, or the word of another label, cannot complete a clause.
-/

namespace WardleyMap

def isBracketChar (c : Char) : Bool :=
  isSpace c || Decimal.isNumeral c || c == '[' || c == ']' || c == ','

def isLabelChar (c : Char) : Bool :=
  isBracketChar c || c == 'l' || c == 'a' || c == 'b' || c == 'e'

def StartsLabel (s : Text) : Prop :=
  ∃ (gap : Text) (f g : Field) (rest : Text), (∀ ch ∈ gap, isSpace ch = true) ∧
    s = Field.labelled gap [f, g] ++ rest

namespace Field

theorem isBracketChar_of_isSpace {c : Char} (h : isSpace c = true) : isBracketChar c = true := by
  simp [isBracketChar, h]

theorem isBracketChar_of_mem_text {f : Field} : ∀ c ∈ f.text, isBracketChar c = true := by
  intro c hc
  simp only [text, List.mem_append] at hc
  rcases hc with hc | hc | hc
  · exact isBracketChar_of_isSpace (f.isSpace_before c hc)
  · simp [isBracketChar, Decimal.isNumeral_of_mem f.isLiteral c hc]
  · exact isBracketChar_of_isSpace (f.isSpace_after c hc)

theorem isBracketChar_of_mem_join {fs : List Field} : ∀ c ∈ join fs, isBracketChar c = true := by
  induction fs with
  | nil => simp [join]
  | cons f fs ih =>
      cases fs with
      | nil => exact isBracketChar_of_mem_text
      | cons g fs =>
          intro c hc
          rw [join, List.mem_append, List.mem_cons] at hc
          rcases hc with hc | rfl | hc
          · exact isBracketChar_of_mem_text c hc
          · rfl
          · exact ih c hc

theorem isBracketChar_of_mem_bracketed {fs : List Field} :
    ∀ c ∈ bracketed fs, isBracketChar c = true := by
  intro c hc
  rw [bracketed, List.mem_cons, List.mem_append, List.mem_singleton] at hc
  rcases hc with rfl | hc | rfl
  · rfl
  · exact isBracketChar_of_mem_join c hc
  · rfl

/-- What follows the word of a label, up to its closing bracket. -/
theorem isBracketChar_of_mem_gap {gap : Text} (hgap : ∀ ch ∈ gap, isSpace ch = true)
    {fs : List Field} : ∀ c ∈ gap ++ bracketed fs, isBracketChar c = true := by
  intro c hc
  rcases List.mem_append.mp hc with hc | hc
  · exact isBracketChar_of_isSpace (hgap c hc)
  · exact isBracketChar_of_mem_bracketed c hc

theorem isLabelChar_of_mem_labelled {gap : Text} (hgap : ∀ ch ∈ gap, isSpace ch = true)
    {fs : List Field} : ∀ c ∈ labelled gap fs, isLabelChar c = true := by
  intro c hc
  rcases List.mem_append.mp hc with hc | hc
  · simp only [List.mem_cons, List.not_mem_nil, or_false] at hc
    rcases hc with rfl | rfl | rfl | rfl | rfl <;> rfl
  · simp [isLabelChar, isBracketChar_of_mem_gap hgap c hc]

theorem isPlain_bracketed (fs : List Field) : Name.IsPlain (bracketed fs) := by
  constructor <;> exact fun hmem => absurd (isBracketChar_of_mem_bracketed _ hmem) (by decide)

theorem isPlain_labelled {gap : Text} (hgap : ∀ ch ∈ gap, isSpace ch = true) (fs : List Field) :
    Name.IsPlain (labelled gap fs) := by
  constructor <;> exact fun hmem => absurd (isLabelChar_of_mem_labelled hgap _ hmem) (by decide)

theorem getLast?_bracketed (fs : List Field) : (bracketed fs).getLast? = some ']' := by
  rw [bracketed, ← List.cons_append, List.getLast?_append]
  rfl

theorem getLast?_labelled (gap : Text) (fs : List Field) :
    (labelled gap fs).getLast? = some ']' := by
  rw [labelled, List.getLast?_append, List.getLast?_append, getLast?_bracketed]
  rfl

end Field

theorem Cursor.isSome_labelClause?_iff {c : Cursor} :
    c.labelClause?.isSome = true ↔ StartsLabel c.rest := by
  rw [Option.isSome_iff_exists]
  constructor
  · rintro ⟨clause, h⟩
    obtain ⟨gap, f, g, rest, hgap, hrest, -⟩ := labelClause?_eq_some_iff.mp h
    exact ⟨gap, f, g, rest, hgap, hrest⟩
  · rintro ⟨gap, f, g, rest, hgap, hrest⟩
    exact ⟨_, labelClause?_eq_some_iff.mpr ⟨gap, f, g, rest, hgap, hrest, rfl⟩⟩

theorem Cursor.labelClause?_eq_none_iff {c : Cursor} :
    c.labelClause? = none ↔ ¬StartsLabel c.rest := by
  rw [← Cursor.isSome_labelClause?_iff]
  simp

namespace StartsLabel

variable {s t : Text}

theorem head? (h : StartsLabel s) : s.head? = some 'l' := by
  obtain ⟨gap, f, g, rest, -, rfl⟩ := h
  rfl

theorem append (h : StartsLabel s) (t : Text) : StartsLabel (s ++ t) := by
  obtain ⟨gap, f, g, rest, hgap, rfl⟩ := h
  exact ⟨gap, f, g, rest ++ t, hgap, List.append_assoc ..⟩

/-- An addition completes no clause if it shows a foreign character before a closing bracket. -/
theorem of_append (h : StartsLabel (s ++ t)) (ht : ']' ∉ t.takeWhile isLabelChar) :
    StartsLabel s := by
  obtain ⟨gap, f, g, rest, hgap, heq⟩ := h
  rcases List.append_eq_append_iff.mp heq with ⟨more, hmore, ht'⟩ | ⟨more, hs, -⟩
  · by_cases hnil : more = []
    · refine ⟨gap, f, g, [], hgap, ?_⟩
      rw [List.append_nil, hmore, hnil, List.append_nil]
    · exfalso
      have hlast : more.getLast? = some ']' := by
        have := Field.getLast?_labelled gap [f, g]
        rw [hmore, List.getLast?_append] at this
        rw [List.getLast?_eq_some_getLast hnil] at this ⊢
        exact this
      refine ht ?_
      rw [ht', List.takeWhile_append_of_pos fun c hc => ?_]
      · exact List.mem_append_left _ (List.mem_of_getLast? hlast)
      · have hmem : c ∈ Field.labelled gap [f, g] := by
          rw [hmore]
          exact List.mem_append_right _ hc
        exact Field.isLabelChar_of_mem_labelled hgap c hmem
  · exact ⟨gap, f, g, more, hgap, hs⟩

/-- The word of another label completes no clause, because a clause has only one such word. -/
theorem of_append_label {rest : Text} (h : StartsLabel (s ++ 'l' :: rest)) (hs : s ≠ [])
    (hlast : ∀ c ∈ s.getLast?, isBlank c = true ∨ c = '"') : StartsLabel s := by
  obtain ⟨gap, f, g, after, hgap, heq⟩ := h
  rcases List.append_eq_append_iff.mp heq with ⟨more, hmore, hrest⟩ | ⟨more, hs', -⟩
  · have hc := List.getLast?_eq_some_getLast hs
    generalize s.getLast hs = c at hc
    rw [Field.labelled] at hmore
    rcases List.append_eq_append_iff.mp hmore with ⟨inner, hword, hgap'⟩ | ⟨inner, hword, hgap'⟩
    · -- the whole word stands before the other label
      by_cases hnil : more = []
      · refine ⟨gap, f, g, [], hgap, ?_⟩
        rw [List.append_nil, Field.labelled, hmore, hnil, List.append_nil]
      · exfalso
        obtain ⟨d, more, rfl⟩ := List.exists_cons_of_ne_nil hnil
        obtain rfl : 'l' = d := (List.cons.inj hrest).1
        have := Field.isBracketChar_of_mem_gap hgap 'l' (by rw [hgap']; simp)
        exact absurd this (by decide)
    · -- the place before the other label is inside the word
      exfalso
      have hmem : c ∈ ['l', 'a', 'b', 'e', 'l'] := by
        rw [hword]
        exact List.mem_append_left _ (List.mem_of_getLast? hc)
      simp only [List.mem_cons, List.not_mem_nil, or_false] at hmem
      have := hlast c hc
      rcases hmem with rfl | rfl | rfl | rfl | rfl <;> revert this <;> decide
  · exact ⟨gap, f, g, more, hgap, hs'⟩

end StartsLabel

end WardleyMap
