import WardleyMap.Proofs.Name.Encode
import WardleyMap.Proofs.Statement.EvolutionLine

/-!
# Names as they are written on a line

The encoder decides between the two forms of a name without knowing the line that the name is put on. Here is
what that choice means for the readers. The name of a placement is found in either form, wherever
coordinates follow it. On an `evolve` line a quoted name is found where it stands, be it the first or
the second one, and the number behind it is then a word of its own rather than the last one. In front
of a label a quoted name counts as one token only if nothing but blanks precedes it.
-/

namespace WardleyMap

namespace Name

variable {name : Text}

/-- A written name does not start with a blank, so the blanks before it end where it starts. -/
theorem head_encode_append (h : name.isAllBlank = false) (rest : Text) :
    ∀ ch ∈ (encode name ++ rest).head?, isBlank ch = false := by
  cases hquoting : needsQuoting name with
  | true =>
      rw [encode, if_pos hquoting]
      intro ch hch
      obtain rfl : '"' = ch := by simpa using hch
      rfl
  | false =>
      have hbare := isBare_iff.mp hquoting
      have hne : name ≠ [] := by
        rintro rfl
        simp at h
      rw [hbare.encode_eq]
      exact hbare.head_append hne rest

/-- The written form of a name is read as the name, wherever coordinates follow it. -/
theorem written_encode (hblank : name.isAllBlank = false) (hname : '\\' ∉ name) {gap rest : Text}
    (hgap : ∀ ch ∈ gap, isSpace ch = true) (hrest : ∀ ch ∈ rest.head?, ch = '[') :
    Placement.Written [] (encode name) (gap ++ rest) (unifyBreaks name) := by
  cases hquoting : needsQuoting name with
  | true =>
      obtain ⟨hquoted, hdecode⟩ := isQuoted_encode hname hquoting
      rw [← hdecode]
      exact .quoted hquoted
  | false =>
      have hbare := isBare_iff.mp hquoting
      have hgapBlank : ∀ ch ∈ gap, isBlank ch = true := fun ch hch => isBlank_of_isSpace (hgap ch hch)
      rw [hbare.encode_eq, unifyBreaks_of_not_mem (hbare.not_mem rfl)]
      refine .bare ⟨rfl, Text.isAllBlank_iff.mpr hgapBlank, hbare.head, hbare.last, fun _ => rfl⟩
        ?_ ?_ hrest
      · refine quotedLength?_eq_none_of_head? fun hquote => ?_
        obtain ⟨c, s, rfl⟩ : ∃ c s, name = c :: s := by
          cases name with
          | nil => simp at hblank
          | cons c s => exact ⟨c, s, rfl⟩
        obtain rfl : c = '"' := by simpa using hquote
        exact hbare.not_mem rfl List.mem_cons_self
      · intro hmem
        rcases List.mem_append.mp hmem with hmem | hmem
        · exact hbare.not_mem rfl (by simpa using hmem)
        · exact absurd (hgap '[' hmem) (by decide)

end Name

namespace Evolution

variable {q rest : Text}

theorem quotedName?_eq (hq : Name.IsQuoted q) (col : Nat) (rest : Text) :
    (⟨col, q ++ rest⟩ : Cursor).quotedName? = some ⟨⟨col, col + q.length⟩, Name.decode q⟩ :=
  Cursor.quotedName?_eq_some_iff.mpr ⟨q, rest, hq, rfl, rfl⟩

theorem Head.ofCursor_quoted (hq : Name.IsQuoted q) (col : Nat) (rest : Text) :
    Head.ofCursor ⟨col, q ++ rest⟩
      = ⟨⟨⟨col, col + q.length⟩, Name.decode q⟩, none, ⟨col + q.length, rest⟩⟩ := by
  have hseek := (Cursor.Passes.mk_append col q rest).seek_eq
  simp only [Head.ofCursor, quotedName?_eq hq, hseek]

theorem Head.ofOverride_quoted (hq : Name.IsQuoted q) (col : Nat) (rest : Text) :
    Head.ofOverride ⟨col, q ++ rest⟩
      = ⟨⟨⟨col, col + q.length⟩, Name.decode q⟩, none, ⟨col + q.length, rest⟩⟩ := by
  have hseek := (Cursor.Passes.mk_append col q rest).seek_eq
  simp only [Head.ofOverride, quotedName?_eq hq, hseek]

/-- Behind a quoted name the first word is the maturity, if it is a number. -/
theorem maturityAt_of_literal {gap literal trailing : Text} (hgap : ∀ ch ∈ gap, isSpace ch = true)
    (hliteral : Decimal.isLiteral literal = true) (htrailing : Text.StartsBlank trailing) (col : Nat) :
    maturityAt ⟨col, gap ++ (literal ++ trailing)⟩ = some
      ⟨⟨col + gap.length, col + gap.length + literal.length⟩, Decimal.value literal⟩ := by
  have hpassGap := Cursor.Passes.mk_append col gap (literal ++ trailing)
  have hpassLiteral := Cursor.Passes.mk_append (col + gap.length) literal trailing
  have hskip := Cursor.skipSpaces_eq hpassGap hgap (Cursor.head_literal_append hliteral)
  have hnumber := Cursor.number?_of_passes hpassLiteral hliteral (Decimal.stops_of_isBlank htrailing)
  have hword : trailing.head?.all isBlank = true := by
    cases hhead : trailing.head? with
    | none => rfl
    | some ch => exact htrailing ch hhead
  simp only [maturityAt, hskip, hnumber, hword, if_true]

/-- A quoted name that starts a token is passed by the search for the label. -/
theorem label?_quoted (hq : Name.IsQuoted q) (col : Nat) (rest : Text) :
    (⟨col, q ++ rest⟩ : Cursor).label? = (⟨col + q.length, rest⟩ : Cursor).label? := by
  have hnone : (⟨col, q ++ rest⟩ : Cursor).labelClause? = none := by
    refine Cursor.labelClause?_eq_none_iff.mpr fun hstarts => ?_
    have hhead := hstarts.head?
    rw [List.head?_append, hq.head?] at hhead
    simp at hhead
  rw [Cursor.label?_token (.quoted hq), hnone, Option.none_or]

end Evolution

end WardleyMap
