import WardleyMap.Proofs.Statement.Word

/-!
# Exchanging parts of a line without making a label

Where no label starts at a word of a text, an edit must not make one start. `NoLabel.exchange` puts the
question to two kinds of places. At a word of what is written, no label may start. At a word before it,
a label that reaches into what is written must have been there already: an arrow or a blank text shows
no closing bracket, and a literal that stands by itself is one of the two numbers of the clause, in the
place of which any other literal is as good.
-/

namespace WardleyMap

open Text

/-! ### Literals in a clause -/

namespace Field

/-- A literal is all that comes before the first character that is not a numeral. -/
theorem literal_unique {literal literal' rest rest' : Text} (h : Decimal.isLiteral literal = true)
    (h' : Decimal.isLiteral literal' = true) (hrest : ∀ c ∈ rest.head?, Decimal.isNumeral c = false)
    (hrest' : ∀ c ∈ rest'.head?, Decimal.isNumeral c = false)
    (heq : literal ++ rest = literal' ++ rest') : literal = literal' ∧ rest = rest' :=
  append_inj_of_head (Decimal.isNumeral_of_mem h) (Decimal.isNumeral_of_mem h') hrest hrest' heq

theorem literal_append_ne {literal rest : Text} (h : Decimal.isLiteral literal = true) {c : Char}
    (hc : Decimal.isNumeral c = false) {s : Text} : literal ++ rest ≠ c :: s := by
  intro heq
  obtain ⟨d, literal, rfl⟩ := List.exists_cons_of_ne_nil (Decimal.literal_ne_nil h)
  obtain rfl := (List.cons.inj heq).1
  exact Decimal.not_mem_literal h hc List.mem_cons_self

theorem not_isNumeral_of_isSpace {c : Char} (h : isSpace c = true) : Decimal.isNumeral c = false :=
  Decimal.not_isNumeral_of_isBlank (isBlank_of_isSpace h)

section Split

variable {f : Field} {x : Char} {rest before literal after : Text}

/-- Where the literal of the field is found, any other literal may take its place. -/
theorem exists_exchanged (hx : Decimal.isNumeral x = false) (hliteral : Decimal.isLiteral literal = true)
    (hafter : StartsBlank after) (heq : f.literal ++ (f.after ++ x :: rest) = literal ++ after) {literal' : Text}
    (hliteral' : Decimal.isLiteral literal' = true) :
    ∃ f' : Field, f.before ++ (literal' ++ after) = f'.text ++ x :: rest := by
  have hbehind : ∀ c ∈ (f.after ++ x :: rest).head?, Decimal.isNumeral c = false := by
    intro c hc
    cases hcase : f.after with
    | nil =>
        obtain rfl : x = c := by simpa [hcase] using hc
        exact hx
    | cons y space =>
        obtain rfl : y = c := by simpa [hcase] using hc
        exact not_isNumeral_of_isSpace (f.isSpace_after y (by rw [hcase]; exact List.mem_cons_self))
  obtain ⟨-, hrest⟩ := literal_unique f.isLiteral hliteral hbehind
    (fun c hc => Decimal.not_isNumeral_of_isBlank (hafter c hc)) heq
  refine ⟨⟨f.before, literal', f.after, f.isSpace_before, hliteral', f.isSpace_after⟩, ?_⟩
  rw [← hrest, text]
  simp only [List.append_assoc]

/-- A literal that stands behind a blank inside or behind the literal of the field stands behind the field. -/
theorem exists_behind (hx : Decimal.isNumeral x = false) (hliteral : Decimal.isLiteral literal = true)
    {more : Text} (hmore : f.literal ++ (f.after ++ x :: rest) = more ++ (literal ++ after))
    (hne : more ≠ []) (hends : EndsBlank more) :
    ∃ behind, rest = behind ++ (literal ++ after) ∧ more = f.literal ++ (f.after ++ x :: behind) := by
  rcases List.append_eq_append_iff.mp hmore with ⟨more', rfl, hmore'⟩ | ⟨more', hsplit, -⟩
  · rcases List.append_eq_append_iff.mp hmore' with ⟨behind, rfl, hbehind⟩ | ⟨space, hsplit, heq⟩
    · cases behind with
      | nil => exact (literal_append_ne hliteral hx hbehind.symm).elim
      | cons y behind =>
          obtain ⟨rfl, hrest⟩ := List.cons.inj hbehind
          exact ⟨behind, hrest, rfl⟩
    · exfalso
      cases space with
      | nil => exact literal_append_ne hliteral hx heq
      | cons y space =>
          have hy := f.isSpace_after y (by rw [hsplit]; simp)
          exact literal_append_ne hliteral (not_isNumeral_of_isSpace hy) heq
  · -- a blank inside the literal of the field
    exfalso
    have hlast := List.getLast?_eq_some_getLast hne
    have hmem : more.getLast hne ∈ f.literal := by
      rw [hsplit]
      exact List.mem_append_left _ (List.mem_of_getLast? hlast)
    have hblank := hends _ hlast
    rw [Decimal.not_isBlank_of_mem f.isLiteral _ hmem] at hblank
    exact absurd hblank (by decide)

/-- A literal that stands in a clause as a word of its own stands behind a field, or it is the literal of
the field, and then any other literal may take its place. -/
theorem exists_split (h : f.text ++ x :: rest = before ++ (literal ++ after))
    (hx : Decimal.isNumeral x = false) (hbefore : EndsBlank before) (hliteral : Decimal.isLiteral literal = true)
    (hafter : StartsBlank after) :
    (∃ behind, rest = behind ++ (literal ++ after) ∧ before = f.text ++ x :: behind) ∨
    ∀ literal', Decimal.isLiteral literal' = true →
      ∃ f' : Field, before ++ (literal' ++ after) = f'.text ++ x :: rest := by
  rw [text, List.append_assoc, List.append_assoc] at h
  rcases List.append_eq_append_iff.mp h with ⟨more, rfl, hmore⟩ | ⟨more, hsplit, hmore⟩
  · by_cases hnil : more = []
    · subst hnil
      rw [List.append_nil]
      exact Or.inr fun _ => exists_exchanged hx hliteral hafter hmore
    · obtain ⟨behind, hrest, rfl⟩ := exists_behind hx hliteral hmore hnil ((endsBlank_append hnil).mp hbefore)
      exact Or.inl ⟨behind, hrest, by simp only [text, List.append_assoc]⟩
  · cases more with
    | nil =>
        rw [List.append_nil] at hsplit
        rw [← hsplit]
        exact Or.inr fun _ => exists_exchanged hx hliteral hafter hmore.symm
    | cons y more =>
        have hy := f.isSpace_before y (by rw [hsplit]; simp)
        exact (literal_append_ne hliteral (not_isNumeral_of_isSpace hy) hmore).elim

end Split

end Field

namespace StartsLabel

variable {s t : Text}

/-- A number in a label can be exchanged for another one without undoing the label. -/
theorem exchange {before literal literal' after : Text}
    (h : StartsLabel (before ++ (literal ++ after))) (hbefore : EndsBlank before)
    (hafter : StartsBlank after) (hliteral : Decimal.isLiteral literal = true)
    (hliteral' : Decimal.isLiteral literal' = true) :
    StartsLabel (before ++ (literal' ++ after)) := by
  obtain ⟨gap, f, g, rest, hgap, heq⟩ := h
  have hlabelled : ∀ (f g : Field) (rest : Text), Field.labelled gap [f, g] ++ rest
      = (['l', 'a', 'b', 'e', 'l'] ++ (gap ++ ['['])) ++
        (f.text ++ ',' :: (g.text ++ ']' :: rest)) := by
    intro f g rest
    simp only [Field.labelled, Field.bracketed, Field.join, List.append_assoc, List.cons_append,
      List.nil_append]
  have hopening : ∀ c ∈ ['l', 'a', 'b', 'e', 'l'] ++ (gap ++ ['[']), Decimal.isNumeral c = false := by
    intro c hc
    simp only [List.mem_append, List.mem_cons, List.not_mem_nil, or_false] at hc
    rcases hc with (rfl | rfl | rfl | rfl | rfl) | hc | rfl
    all_goals first | rfl | exact Decimal.not_isNumeral_of_isBlank (isBlank_of_isSpace (hgap c hc))
  -- the clause is taken apart from left to right until the literal is met
  obtain ⟨inner, rfl, hinner⟩ : ∃ inner, before = ['l', 'a', 'b', 'e', 'l'] ++ (gap ++ ['[']) ++ inner ∧
      f.text ++ ',' :: (g.text ++ ']' :: rest) = inner ++ (literal ++ after) := by
    rw [hlabelled] at heq
    rcases List.append_eq_append_iff.mp heq with ⟨more, hsplit, hmore⟩ | ⟨inner, hsplit, hinner⟩
    · cases more with
      | nil => exact ⟨[], by rw [hsplit]; simp, hmore.symm⟩
      | cons y more =>
          exact (Field.literal_append_ne hliteral (hopening y (by rw [hsplit]; simp)) hmore).elim
    · exact ⟨inner, hsplit, hinner⟩
  rw [List.append_assoc]
  rcases Field.exists_split hinner rfl hbefore.of_append hliteral hafter with
    ⟨inner', hinner', rfl⟩ | hexchange
  · have hends : EndsBlank inner' := EndsBlank.of_append (s := [',']) hbefore.of_append.of_append
    rcases Field.exists_split hinner' rfl hends hliteral hafter with ⟨behind, rfl, rfl⟩ | hexchange
    · refine ⟨gap, f, g, behind ++ (literal' ++ after), hgap, ?_⟩
      rw [hlabelled]
      simp only [List.append_assoc, List.cons_append]
    · obtain ⟨g', hg'⟩ := hexchange literal' hliteral'
      refine ⟨gap, f, g', rest, hgap, ?_⟩
      rw [hlabelled, ← hg']
      simp only [List.append_assoc, List.cons_append]
  · obtain ⟨f', hf'⟩ := hexchange literal' hliteral'
    exact ⟨gap, f', g, rest, hgap, by rw [hlabelled, ← hf']⟩

/-- A clause that is not complete before its bracket opens has only its word and spaces there. -/
theorem mem_of_not_mem (h : StartsLabel (s ++ t)) (hs : '[' ∉ s) :
    ∀ c ∈ s, c ∈ ['l', 'a', 'b', 'e', 'l'] ∨ isSpace c = true := by
  obtain ⟨gap, f, g, rest, hgap, heq⟩ := h
  have hword : ∀ c ∈ ['l', 'a', 'b', 'e', 'l'] ++ gap, (c != '[') = true := by
    intro c hc
    rw [bne_iff_ne]
    rintro rfl
    rcases List.mem_append.mp hc with hc | hc
    · exact absurd hc (by decide)
    · exact absurd (hgap _ hc) (by decide)
  have htaken : (s ++ t).takeWhile (· != '[') = ['l', 'a', 'b', 'e', 'l'] ++ gap := by
    rw [heq, Field.labelled, Field.bracketed, ← List.append_assoc, List.append_assoc]
    exact Text.takeWhile_append_of_head hword (by simp)
  rw [List.takeWhile_append_of_pos (bne_of_not_mem hs)] at htaken
  intro c hc
  have hmem : c ∈ ['l', 'a', 'b', 'e', 'l'] ++ gap := htaken ▸ List.mem_append_left _ hc
  exact (List.mem_append.mp hmem).imp_right (hgap c)

theorem close_mem (h : StartsLabel s) : ']' ∈ s := by
  obtain ⟨gap, f, g, rest, -, rfl⟩ := h
  exact List.mem_append_left _ (List.mem_of_getLast? (Field.getLast?_labelled gap [f, g]))

end StartsLabel

/-! ### Texts without a label -/

theorem noLabel_of_not_mem {s : Text} (h : ']' ∉ s) : NoLabel s := by
  rintro a b rfl - hb
  exact h (List.mem_append_right a hb.close_mem)

namespace NoLabel

variable {s t : Text}

/-- A seam behind which a foreign character comes before any closing bracket makes no label. -/
theorem append (hs : NoLabel s) (ht : NoLabel t) (hseam : ']' ∉ t.takeWhile isLabelChar) :
    NoLabel (s ++ t) := by
  intro a b heq ha hb
  rcases List.append_eq_append_iff.mp heq with ⟨more, rfl, rfl⟩ | ⟨more, rfl, rfl⟩
  · exact ht more b rfl ha.of_append hb
  · exact hs a more rfl ha (hb.of_append hseam)

theorem append_of_not_mem (hs : NoLabel s) (ht : ']' ∉ t) : NoLabel (s ++ t) :=
  hs.append (noLabel_of_not_mem ht) fun hmem => ht ((List.takeWhile_sublist _).subset hmem)

/-- A text that ends in a number, and holds no bracket, makes no label with what follows. -/
theorem number_append {c : Char} (hs : '[' ∉ s) (hlast : s.getLast? = some c)
    (hc : Decimal.isNumeral c = true) (ht : NoLabel t) (hblank : StartsBlank t) :
    NoLabel (s ++ t) := by
  intro a b heq ha hb
  rcases List.append_eq_append_iff.mp heq with ⟨more, rfl, rfl⟩ | ⟨more, rfl, rfl⟩
  · exact ht more b rfl ha.of_append hb
  · by_cases hnil : more = []
    · subst hnil
      exact StartsLabel.not_of_startsBlank hblank hb
    · have hfree : '[' ∉ more := fun hmem => hs (List.mem_append_right a hmem)
      rw [List.getLast?_append, List.getLast?_eq_some_getLast hnil, Option.some_or] at hlast
      have hmem : c ∈ more := List.mem_of_getLast? (List.getLast?_eq_some_getLast hnil ▸ hlast)
      rcases hb.mem_of_not_mem hfree c hmem with hword | hspace
      · simp only [List.mem_cons, List.not_mem_nil, or_false] at hword
        rcases hword with rfl | rfl | rfl | rfl | rfl <;> exact absurd hc (by decide)
      · rw [Decimal.not_isNumeral_of_isBlank (isBlank_of_isSpace hspace)] at hc
        exact absurd hc (by decide)

/-- A number can be exchanged for another one without making a label. -/
theorem exchange {before literal literal' after : Text}
    (h : NoLabel (before ++ (literal ++ after))) (hbefore : EndsBlank before)
    (hafter : StartsBlank after) (hliteral : Decimal.isLiteral literal = true)
    (hliteral' : Decimal.isLiteral literal' = true) :
    NoLabel (before ++ (literal' ++ after)) := by
  intro a b heq ha hb
  rcases List.append_eq_append_iff.mp heq with ⟨more, rfl, hsplit⟩ | ⟨more, rfl, rfl⟩
  · have hrest : NoLabel (literal' ++ after) := by
      have hne := Decimal.literal_ne_nil hliteral'
      have hlast := List.getLast?_eq_some_getLast hne
      refine number_append (Decimal.not_mem_literal hliteral' rfl) hlast
        (Decimal.isNumeral_of_mem hliteral' _ (List.mem_of_getLast? hlast)) ?_ hafter
      rw [← List.append_assoc] at h
      exact h.right (Or.inr hafter)
    exact hrest more b hsplit ha.of_append hb
  · refine h a (more ++ (literal ++ after)) (List.append_assoc ..) ha ?_
    exact hb.exchange hbefore.of_append hafter hliteral' hliteral

end NoLabel

end WardleyMap
