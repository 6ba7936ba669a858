import WardleyMap.Name

/-!
# Quoted names

Where a quoted name ends is decided from its start, and nothing behind its closing quote matters:
that is `Name.IsQuoted.quotedLength?_append`. What can go wrong is the other case. A text that opens
with a quote and is never closed is read as a bare name, and an edit further right must not close it.
`Name.closingQuote?_eq_none_of_replace` says that it does not, if what is written holds neither a
quote nor a backslash. What is written has to be nonempty there, and so has what it replaces unless
nothing follows, because a backslash at the end of the unchanged part takes the character that follows
it, whichever that is.
-/

namespace WardleyMap

namespace Name

/-- The whole text is one quoted name, closed by its last character. -/
def IsQuoted (q : Text) : Prop :=
  quotedLength? q = some q.length

/-- The text holds neither a quote nor a backslash, so a scan for the closing quote passes it. -/
def IsPlain (s : Text) : Prop :=
  '"' ∉ s ∧ '\\' ∉ s

theorem isPlain_nil : IsPlain [] := by
  simp [IsPlain]

theorem isPlain_cons {c : Char} {s : Text} :
    IsPlain (c :: s) ↔ (c ≠ '"' ∧ c ≠ '\\') ∧ IsPlain s := by
  simp only [IsPlain, List.mem_cons, not_or]
  constructor
  · rintro ⟨⟨h₁, h₂⟩, h₃, h₄⟩
    exact ⟨⟨Ne.symm h₁, Ne.symm h₃⟩, h₂, h₄⟩
  · rintro ⟨⟨h₁, h₂⟩, h₃, h₄⟩
    exact ⟨⟨Ne.symm h₁, h₃⟩, Ne.symm h₂, h₄⟩

theorem isPlain_append {s t : Text} : IsPlain (s ++ t) ↔ IsPlain s ∧ IsPlain t := by
  simp only [IsPlain, List.mem_append, not_or]
  exact and_and_and_comm

/-! ### The scan for the closing quote -/

theorem closingQuote?_cons {c : Char} (hquote : c ≠ '"') (hbackslash : c ≠ '\\') (s : Text) :
    closingQuote? (c :: s) = (closingQuote? s).map (· + 1) := by
  rw [closingQuote?]
  · exact hquote
  · rintro d s' rfl
    exact absurd rfl hbackslash

theorem closingQuote?_append_of_isPlain {s : Text} (h : IsPlain s) (t : Text) :
    closingQuote? (s ++ t) = (closingQuote? t).map (· + s.length) := by
  induction s with
  | nil => simp
  | cons c s ih =>
      obtain ⟨⟨hquote, hbackslash⟩, hs⟩ := isPlain_cons.mp h
      rw [List.cons_append, closingQuote?_cons hquote hbackslash, ih hs, Option.map_map]
      rfl

/-- A closing quote is found without looking behind it. -/
theorem exists_closed {s : Text} {n : Nat} (h : closingQuote? s = some n) :
    ∃ body rest : Text, s = body ++ '"' :: rest ∧ n = body.length ∧
      ∀ t, closingQuote? (body ++ '"' :: t) = some n := by
  induction s using closingQuote?.induct generalizing n with
  | case1 => simp [closingQuote?] at h
  | case2 s =>
      obtain rfl : 0 = n := by simpa [closingQuote?] using h
      exact ⟨[], s, rfl, rfl, fun t => rfl⟩
  | case3 c s ih =>
      rw [closingQuote?] at h
      obtain ⟨m, hm, rfl⟩ := Option.map_eq_some_iff.mp h
      obtain ⟨body, rest, rfl, rfl, hclosed⟩ := ih hm
      refine ⟨'\\' :: c :: body, rest, rfl, rfl, fun t => ?_⟩
      rw [List.cons_append, List.cons_append, closingQuote?, hclosed, Option.map_some]
  | case4 c s hquote hbackslash ih =>
      rw [closingQuote?.eq_4 c s hquote hbackslash] at h
      obtain ⟨m, hm, rfl⟩ := Option.map_eq_some_iff.mp h
      obtain ⟨body, rest, rfl, rfl, hclosed⟩ := ih hm
      have hc : c ≠ '\\' := by
        rintro rfl
        cases body with
        | nil => exact hbackslash '"' rest rfl rfl
        | cons d body => exact hbackslash d (body ++ '"' :: rest) rfl rfl
      refine ⟨c :: body, rest, rfl, rfl, fun t => ?_⟩
      rw [List.cons_append, closingQuote?_cons hquote hc, hclosed, Option.map_some]

/-- A closed name is read as such whatever follows it. -/
theorem IsQuoted.quotedLength?_append {q : Text} (h : IsQuoted q) (t : Text) :
    quotedLength? (q ++ t) = some q.length := by
  unfold IsQuoted at h
  cases q with
  | nil => simp [quotedLength?] at h
  | cons c q =>
      by_cases hc : c = '"'
      · subst hc
        rw [quotedLength?] at h
        obtain ⟨n, hn, hlength⟩ := Option.map_eq_some_iff.mp h
        obtain ⟨body, rest, rfl, rfl, hclosed⟩ := exists_closed hn
        rw [List.cons_append, List.append_assoc, List.cons_append, quotedLength?, hclosed,
          Option.map_some, ← hlength]
      · rw [quotedLength?.eq_2 _ (by simpa using hc)] at h
        simp at h

theorem exists_isQuoted {s : Text} {n : Nat} (h : quotedLength? s = some n) :
    ∃ q rest : Text, s = q ++ rest ∧ n = q.length ∧ IsQuoted q := by
  unfold quotedLength? at h
  split at h
  · next body =>
      obtain ⟨m, hm, rfl⟩ := Option.map_eq_some_iff.mp h
      obtain ⟨body, rest, rfl, rfl, hclosed⟩ := exists_closed hm
      refine ⟨'"' :: (body ++ ['"']), rest, by simp, by simp, ?_⟩
      rw [IsQuoted, quotedLength?, hclosed]
      simp
  · simp at h

theorem IsQuoted.head? {q : Text} (h : IsQuoted q) : q.head? = some '"' := by
  cases q with
  | nil => simp [IsQuoted, quotedLength?] at h
  | cons c q =>
      by_cases hc : c = '"'
      · rw [hc]
        rfl
      · rw [IsQuoted, quotedLength?.eq_2 _ (by simpa using hc)] at h
        simp at h

theorem IsQuoted.head?_append {q : Text} (h : IsQuoted q) (rest : Text) :
    (q ++ rest).head? = some '"' := by
  rw [List.head?_append, h.head?]
  rfl

theorem IsQuoted.getLast? {q : Text} (h : IsQuoted q) : q.getLast? = some '"' := by
  unfold IsQuoted quotedLength? at h
  split at h
  · next body =>
      obtain ⟨n, hn, hlength⟩ := Option.map_eq_some_iff.mp h
      obtain ⟨body, rest, rfl, rfl, -⟩ := exists_closed hn
      have hrest : rest = [] := by
        simp only [List.length_append, List.length_cons] at hlength
        exact List.eq_nil_of_length_eq_zero (by omega)
      rw [hrest, ← List.cons_append, List.getLast?_append]
      rfl
  · simp at h

/-- What stands between the quotes is what gets decoded. -/
theorem IsQuoted.exists_body {q : Text} (h : IsQuoted q) :
    ∃ body, q = '"' :: (body ++ ['"']) ∧ decode q = unescape body := by
  unfold IsQuoted quotedLength? at h
  split at h
  · next body =>
      obtain ⟨n, hn, hlength⟩ := Option.map_eq_some_iff.mp h
      obtain ⟨body, rest, rfl, rfl, -⟩ := exists_closed hn
      obtain rfl : rest = [] := by
        simp only [List.length_append, List.length_cons] at hlength
        exact List.eq_nil_of_length_eq_zero (by omega)
      refine ⟨body, rfl, ?_⟩
      rw [decode, hn]
      simp only [List.take_left]
  · simp at h

theorem quotedLength?_eq_none_of_head? {s : Text} (h : s.head? ≠ some '"') :
    quotedLength? s = none := by
  rw [quotedLength?.eq_2]
  rintro body rfl
  exact h rfl

/-! ### Quotes that stay open -/

/-- A text without quotes and backslashes can be exchanged for another one without closing an open name. -/
theorem closingQuote?_eq_none_of_replace {s t t' rest : Text} (ht : IsPlain t) (ht' : IsPlain t')
    (htne : t ≠ [] ∨ rest = []) (htne' : t' ≠ []) (h : closingQuote? (s ++ (t ++ rest)) = none) :
    closingQuote? (s ++ (t' ++ rest)) = none := by
  induction s using closingQuote?.induct with
  | case1 =>
      rw [List.nil_append, closingQuote?_append_of_isPlain ht, Option.map_eq_none_iff] at h
      rw [List.nil_append, closingQuote?_append_of_isPlain ht', h, Option.map_none]
  | case2 s => simp [closingQuote?] at h
  | case3 c s ih =>
      simp only [List.cons_append, closingQuote?, Option.map_eq_none_iff] at h ⊢
      exact ih h
  | case4 c s hquote hbackslash ih =>
      by_cases hc : c = '\\'
      · -- a backslash at the end of the unchanged part takes the first character of what follows
        obtain rfl : s = [] := by
          cases s with
          | nil => rfl
          | cons d s => exact absurd rfl (hbackslash d s hc)
        subst hc
        obtain ⟨d', t', rfl⟩ := List.exists_cons_of_ne_nil htne'
        have hrest : closingQuote? rest = none := by
          cases t with
          | nil =>
              obtain rfl : rest = [] := by simpa using htne
              rfl
          | cons d t =>
              simp only [List.cons_append, List.nil_append, closingQuote?,
                Option.map_eq_none_iff] at h
              rw [closingQuote?_append_of_isPlain (isPlain_cons.mp ht).2,
                Option.map_eq_none_iff] at h
              exact h
        simp only [List.cons_append, List.nil_append, closingQuote?, Option.map_eq_none_iff]
        rw [closingQuote?_append_of_isPlain (isPlain_cons.mp ht').2, hrest, Option.map_none]
      · simp only [List.cons_append] at h ⊢
        rw [closingQuote?_cons hquote hc, Option.map_eq_none_iff] at h ⊢
        exact ih h

/-- The same for a text that may open with a quote. -/
theorem quotedLength?_eq_none_of_replace {s t t' rest : Text} (ht : IsPlain t) (ht' : IsPlain t')
    (htne : t ≠ [] ∨ rest = []) (htne' : t' ≠ []) (h : quotedLength? (s ++ (t ++ rest)) = none) :
    quotedLength? (s ++ (t' ++ rest)) = none := by
  cases s with
  | nil =>
      refine quotedLength?_eq_none_of_head? fun hquote => ?_
      obtain ⟨d, t', rfl⟩ := List.exists_cons_of_ne_nil htne'
      exact (isPlain_cons.mp ht').1.1 (by simpa using hquote)
  | cons c s =>
      by_cases hc : c = '"'
      · subst hc
        simp only [List.cons_append, quotedLength?, Option.map_eq_none_iff] at h ⊢
        exact closingQuote?_eq_none_of_replace ht ht' htne htne' h
      · exact quotedLength?_eq_none_of_head? (by simpa using hc)

end Name

end WardleyMap
