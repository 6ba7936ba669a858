import WardleyMap.Name

/-!
# Arrows

The name of an evolved component ends at the first arrow, so an edit has to keep the first arrow where it is
and must not let another one arise before it. An arrow is two characters that follow one another: it
arises at a seam only between a dash and a closing angle bracket, and what edits write at a seam is
neither.
-/

namespace WardleyMap

namespace Text

theorem find?_eq_none_iff {s pattern : Text} (hpattern : pattern ≠ []) :
    s.find? pattern = none ↔ ¬pattern <:+: s := by
  induction s with
  | nil => simp [find?, hpattern]
  | cons c s ih =>
      rw [find?, List.infix_cons_iff, not_or, ← ih]
      by_cases hstart : pattern <+: c :: s
      · simp [hstart]
      · simp [hstart]

end Text

namespace Name

def NoArrow (s : Text) : Prop :=
  ¬arrow <:+: s

variable {s t : Text}

theorem find?_arrow_eq_none_iff : s.find? arrow = none ↔ NoArrow s :=
  Text.find?_eq_none_iff (List.cons_ne_nil _ _)

theorem noArrow_of_not_mem (h : '>' ∉ s) : NoArrow s :=
  fun harrow => h (harrow.subset (by simp [arrow]))

theorem NoArrow.of_infix (h : NoArrow t) (hsub : s <:+: t) : NoArrow s :=
  fun harrow => h (harrow.trans hsub)

theorem NoArrow.left (h : NoArrow (s ++ t)) : NoArrow s :=
  h.of_infix (List.prefix_append s t).isInfix

theorem NoArrow.right (h : NoArrow (s ++ t)) : NoArrow t :=
  h.of_infix (List.suffix_append s t).isInfix

/-- At a seam an arrow arises only from its two halves. -/
theorem NoArrow.append (hs : NoArrow s) (ht : NoArrow t)
    (hseam : s.getLast? = some '-' → t.head? ≠ some '>') : NoArrow (s ++ t) := by
  intro harrow
  rcases List.infix_append_iff_ne_nil.mp harrow with h | h | ⟨a, b, ha, hb, heq, hsuffix, hstart⟩
  · exact hs h
  · exact ht h
  · obtain ⟨rfl, rfl⟩ : a = ['-'] ∧ b = ['>'] := by
      cases a with
      | nil => exact absurd rfl ha
      | cons c a =>
          cases a with
          | nil => simpa [arrow, eq_comm] using heq
          | cons d a =>
              cases b with
              | nil => exact absurd rfl hb
              | cons e b => simp [arrow] at heq
    obtain ⟨s, rfl⟩ := hsuffix
    obtain ⟨t, rfl⟩ := hstart
    exact hseam (by simp) rfl

/-- The arrow that is found is the first one, so a name without an arrow ends there. -/
theorem find?_append_arrow (h : NoArrow s) (rest : Text) :
    Text.find? (s ++ (arrow ++ rest)) arrow = some s.length := by
  induction s with
  | nil => rfl
  | cons c s ih =>
      have hstart : ¬arrow <+: c :: (s ++ (arrow ++ rest)) := by
        rintro ⟨u, hu⟩
        obtain ⟨rfl, hrest⟩ := List.cons.inj hu
        cases s with
        | nil => simp [arrow] at hrest
        | cons d s =>
            obtain rfl : '>' = d := (List.cons.inj hrest).1
            exact h ⟨[], s, rfl⟩
      rw [List.cons_append, Text.find?, if_neg (by simpa using hstart), ih (h.right (s := [c]))]
      rfl

/-- What stands before the first arrow holds none. -/
theorem exists_noArrow {i : Nat} (h : s.find? arrow = some i) :
    ∃ before rest, s = before ++ (arrow ++ rest) ∧ i = before.length ∧ NoArrow before := by
  induction s generalizing i with
  | nil => simp [Text.find?, arrow] at h
  | cons c s ih =>
      rw [Text.find?] at h
      split at h
      · next hstart =>
          obtain ⟨rest, hrest⟩ := List.isPrefixOf_iff_prefix.mp hstart
          obtain rfl := Option.some.inj h
          exact ⟨[], rest, hrest.symm, rfl, noArrow_of_not_mem (by simp)⟩
      · next hstart =>
          obtain ⟨j, hj, rfl⟩ := Option.map_eq_some_iff.mp h
          obtain ⟨before, rest, rfl, rfl, hbefore⟩ := ih hj
          refine ⟨c :: before, rest, rfl, rfl, fun harrow => ?_⟩
          rcases List.infix_cons_iff.mp harrow with harrow | harrow
          · refine hstart (List.isPrefixOf_iff_prefix.mpr (harrow.trans ?_))
            exact List.prefix_append (c :: before) (arrow ++ rest)
          · exact hbefore harrow

end Name

end WardleyMap
