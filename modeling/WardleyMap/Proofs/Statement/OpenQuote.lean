import WardleyMap.Proofs.Statement.QuotedOverride

/-!
# Text put where a quote is open

A label that is put into a line is found there if a token can start where it was put. Behind a blank one
can, unless the tokens in front of the blank end in one that opens with a quote and is not closed: such a
token goes on through whatever is put behind it. `Cursor.LeavesOpen` tells the two cases apart by what
stands in front alone, and nothing else matters: in the one case the search goes on behind the blank, in
the other no label is found, as if nothing had been put there.
-/

namespace WardleyMap

namespace Name

/-- Behind a quote that is open the scan goes on in what follows, if no backslash is left to be paired. -/
theorem closingQuote?_append_of_none {s : Text} (h : closingQuote? s = none)
    (hlast : s.getLast? ≠ some '\\') (t : Text) :
    closingQuote? (s ++ t) = (closingQuote? t).map (· + s.length) := by
  induction s using closingQuote?.induct with
  | case1 => simp
  | case2 s => simp [closingQuote?] at h
  | case3 c s ih =>
      rw [closingQuote?, Option.map_eq_none_iff] at h
      have hrest : s.getLast? ≠ some '\\' := fun hs =>
        hlast (getLast?_cons_of_eq (getLast?_cons_of_eq hs))
      rw [List.cons_append, List.cons_append, closingQuote?, ih h hrest, Option.map_map]
      rfl
  | case4 c s hquote hbackslash ih =>
      have hc : c ≠ '\\' := by
        rintro rfl
        cases s with
        | nil => exact hlast rfl
        | cons d s => exact hbackslash d s rfl rfl
      rw [closingQuote?_cons hquote hc, Option.map_eq_none_iff] at h
      have hrest : s.getLast? ≠ some '\\' := fun hs => hlast (getLast?_cons_of_eq hs)
      rw [List.cons_append, closingQuote?_cons hquote hc, ih h hrest, Option.map_map]
      rfl

theorem quotedLength?_append_of_open {s : Text} (hhead : s.head? = some '"')
    (hopen : quotedLength? s = none) (hlast : s.getLast? ≠ some '\\') (t : Text) :
    quotedLength? (s ++ t) = (closingQuote? t).map (· + (s.length + 1)) := by
  obtain ⟨body, rfl⟩ := List.head?_eq_some_iff.mp hhead
  have hbody : body.getLast? ≠ some '\\' := fun hs => hlast (getLast?_cons_of_eq hs)
  rw [quotedLength?, Option.map_eq_none_iff] at hopen
  rw [List.cons_append, quotedLength?, closingQuote?_append_of_none hopen hbody, Option.map_map]
  rfl

/-- A quote that is open behind one text is open behind any beginning of it. -/
theorem quotedLength?_eq_none_of_prefix {s t : Text} (h : quotedLength? (s ++ t) = none) :
    quotedLength? s = none := by
  rw [Option.eq_none_iff_forall_ne_some]
  intro n hn
  obtain ⟨q, rest, rfl, -, hquoted⟩ := exists_isQuoted hn
  rw [List.append_assoc, hquoted.quotedLength?_append] at h
  simp at h

/-- What is put behind an open quote keeps it open. -/
theorem quotedLength?_eq_none_of_insertion {s x t : Text} (hs : s ≠ []) (hlast : s.getLast? ≠ some '\\')
    (hx : IsPlain x) (h : quotedLength? (s ++ t) = none) : quotedLength? (s ++ (x ++ t)) = none := by
  by_cases hhead : s.head? = some '"'
  · have hopen := quotedLength?_eq_none_of_prefix h
    rw [quotedLength?_append_of_open hhead hopen hlast, Option.map_eq_none_iff] at h ⊢
    rw [closingQuote?_append_of_isPlain hx, h, Option.map_none]
  · refine quotedLength?_eq_none_of_head? ?_
    rwa [List.head?_append_of_ne_nil _ hs]

theorem isQuoted_of_append {q rest : Text} (h : quotedLength? (q ++ rest) = some q.length) :
    IsQuoted q := by
  obtain ⟨q', rest', heq, hlength, hquoted⟩ := exists_isQuoted h
  obtain ⟨rfl, -⟩ := List.append_inj heq hlength
  exact hquoted

end Name

namespace Cursor

/-- The last token opens with a quote, and the quote is not closed. -/
def LeavesOpen (c : Cursor) : Prop :=
  ∃ token ∈ c.tokens.getLast?, token.text.head? = some '"' ∧ Name.quotedLength? token.text = none

/-- No token of the text starts a label when `t` follows the text. -/
def NoLabelWith (c : Cursor) (t : Text) : Prop :=
  ∀ token ∈ c.tokens, ¬StartsLabel (token.start.rest ++ t)

variable {col : Nat} {s t x token rest : Text}

theorem not_leavesOpen_nil (col : Nat) : ¬LeavesOpen ⟨col, []⟩ := by
  rintro ⟨token, htoken, -⟩
  simp [tokens, Token.scan] at htoken

theorem leavesOpen_blank {c : Char} (hc : isBlank c = true) :
    LeavesOpen ⟨col, c :: s⟩ ↔ LeavesOpen ⟨col + 1, s⟩ := by
  rw [LeavesOpen, tokens_blank hc]
  rfl

/-- A token leaves a quote open only if it is the last one. -/
theorem leavesOpen_token (h : IsToken token rest) : LeavesOpen ⟨col, token ++ rest⟩ ↔
    (rest = [] ∧ token.head? = some '"' ∧ Name.quotedLength? token = none) ∨
      LeavesOpen ⟨col + token.length, rest⟩ := by
  have htext : Token.text ⟨⟨col, token ++ rest⟩, token.length⟩ = token := List.take_left
  have hlast : token.head? = some '"' → Name.quotedLength? token = none → rest = [] := by
    intro hhead hopen
    cases h with
    | word _ hword => exact absurd hhead hword
    | quoted hquoted => exact absurd (hquoted.symm.trans hopen) (by simp)
    | unclosed => rfl
  unfold LeavesOpen
  rw [tokens_token h, List.getLast?_cons]
  cases hrest : (⟨col + token.length, rest⟩ : Cursor).tokens.getLast? with
  | none =>
      simp only [Option.getD_none, Option.mem_some_iff, exists_eq_left', htext, Option.not_mem_none,
        false_and, exists_false, or_false]
      exact ⟨fun hopen => ⟨hlast hopen.1 hopen.2, hopen⟩, And.right⟩
  | some last =>
      have hne : rest ≠ [] := by
        rintro rfl
        simp [tokens, Token.scan] at hrest
      simp [hne]

theorem noLabelWith_blank {c : Char} (hc : isBlank c = true) :
    NoLabelWith ⟨col, c :: s⟩ t ↔ NoLabelWith ⟨col + 1, s⟩ t := by
  rw [NoLabelWith, tokens_blank hc]
  rfl

theorem noLabelWith_token (h : IsToken token rest) : NoLabelWith ⟨col, token ++ rest⟩ t ↔
    ¬StartsLabel (token ++ (rest ++ t)) ∧ NoLabelWith ⟨col + token.length, rest⟩ t := by
  rw [NoLabelWith, tokens_token h, List.forall_mem_cons]
  dsimp only
  rw [List.append_assoc]
  rfl

/-- A line in which no label is found has none at a token of its first part. -/
theorem noLabelWith_of_label? (h : (⟨col, s ++ t⟩ : Cursor).label? = none) :
    NoLabelWith ⟨col, s⟩ t := by
  induction s using Text.tokenInduction generalizing col with
  | nil => simp [NoLabelWith, tokens, Token.scan]
  | blank c s hc ih =>
      rw [List.cons_append, label?_blank hc] at h
      exact (noLabelWith_blank hc).mpr (ih h)
  | token token rest htoken ih =>
      rw [List.append_assoc] at h
      refine (noLabelWith_token htoken).mpr ⟨fun hstarts => ?_, ?_⟩
      · obtain ⟨clause, hclause⟩ := Option.isSome_iff_exists.mp
          (isSome_labelClause?_iff (c := ⟨col, token ++ (rest ++ t)⟩).mpr hstarts)
        rw [label?_of_labelClause? hclause] at h
        exact absurd h (by simp)
      · by_cases hrest : rest = []
        · simp [hrest, NoLabelWith, tokens, Token.scan]
        · have htoken' : IsToken token (rest ++ t) :=
            htoken.of_rest hrest fun hnext => by rwa [List.head?_append_of_ne_nil _ hrest]
          rw [label?_token htoken', Option.or_eq_none_iff] at h
          exact ih h.2

/-- A label that is put behind a text completes no label in it. -/
theorem NoLabelWith.put {c : Cursor} (h : c.NoLabelWith t) (rest : Text) :
    c.NoLabelWith (' ' :: 'l' :: rest) := by
  intro token htoken hstarts
  refine h token htoken ?_
  rw [List.append_cons] at hstarts
  have hspace := hstarts.of_append_label (by simp) fun ch hch => by
    obtain rfl : ' ' = ch := by simpa using hch
    exact .inl rfl
  exact (hspace.of_append (by decide)).append t

/-- Where no quote is open, a blank leads the search out of the text. -/
theorem label?_of_not_leavesOpen {ch : Char} (hch : isBlank ch = true) (hopen : ¬LeavesOpen ⟨col, s⟩)
    (hno : NoLabelWith ⟨col, s⟩ (ch :: t)) :
    (⟨col, s ++ ch :: t⟩ : Cursor).label? = (⟨col + s.length + 1, t⟩ : Cursor).label? := by
  induction s using Text.tokenInduction generalizing col with
  | nil => exact label?_blank hch col t
  | blank c s hc ih =>
      rw [leavesOpen_blank hc] at hopen
      rw [noLabelWith_blank hc] at hno
      rw [List.cons_append, label?_blank hc, ih hopen hno, List.length_cons, Nat.add_assoc col 1,
        Nat.add_comm 1]
  | token token rest htoken ih =>
      rw [leavesOpen_token htoken, not_or] at hopen
      rw [noLabelWith_token htoken] at hno
      have htoken' : IsToken token (rest ++ ch :: t) := by
        cases htoken with
        | word hne hhead hword hnext =>
            refine .word hne hhead hword fun c hc => ?_
            cases rest with
            | nil =>
                obtain rfl : ch = c := by simpa using hc
                exact hch
            | cons d rest => exact hnext c hc
        | quoted hquoted => exact .quoted hquoted
        | unclosed hhead hnone => exact absurd ⟨rfl, hhead, hnone⟩ hopen.1
      rw [List.append_assoc, label?_token htoken', labelClause?_eq_none_iff.mpr hno.1, Option.none_or,
        ih hopen.2 hno.2, List.length_append, Nat.add_assoc col token.length]

/-- From an open quote the search goes on where the quote is closed. -/
theorem label?_of_closing {inner : Text} (hhead : s.head? = some '"') (hopen : Name.quotedLength? s = none)
    (hlast : s.getLast? ≠ some '\\')
    (hclosing : Name.closingQuote? (inner ++ '"' :: rest) = some inner.length) :
    (⟨col, s ++ (inner ++ '"' :: rest)⟩ : Cursor).label?
      = (⟨col + (s ++ (inner ++ ['"'])).length, rest⟩ : Cursor).label? := by
  have hsplit : s ++ (inner ++ '"' :: rest) = s ++ (inner ++ ['"']) ++ rest := by
    simp only [List.append_assoc, List.cons_append, List.nil_append]
  have hquoted : Name.IsQuoted (s ++ (inner ++ ['"'])) := by
    refine @Name.isQuoted_of_append _ rest ?_
    rw [← hsplit, Name.quotedLength?_append_of_open hhead hopen hlast, hclosing, Option.map_some]
    congr 1
    simp only [List.length_append, List.length_singleton]
    omega
  rw [hsplit, Evolution.label?_quoted hquoted]

/-- What is put behind an open quote does not change where the quote is closed. -/
theorem label?_of_unclosed (hhead : s.head? = some '"') (hopen : Name.quotedLength? s = none)
    (hlast : s.getLast? ≠ some '\\') (hx : Name.IsPlain x) (h : (⟨col, s ++ t⟩ : Cursor).label? = none) :
    (⟨col, s ++ (x ++ t)⟩ : Cursor).label? = none := by
  have hscan := Name.closingQuote?_append_of_isPlain hx t
  cases hclosing : Name.closingQuote? t with
  | none =>
      refine label?_of_open ?_ ?_ col
      · rw [List.head?_append, hhead, Option.some_or]
      · rw [Name.quotedLength?_append_of_open hhead hopen hlast, hscan, hclosing]
        rfl
  | some n =>
      obtain ⟨inner, rest, rfl, rfl, -⟩ := Name.exists_closed hclosing
      rw [label?_of_closing hhead hopen hlast hclosing] at h
      rw [hclosing, Option.map_some, Nat.add_comm, ← List.length_append, ← List.append_assoc] at hscan
      rw [← List.append_assoc x, label?_of_closing hhead hopen hlast hscan]
      exact label?_eq_none_of_col h _

/-- Where a quote is open, what is put behind the text is passed together with the text. -/
theorem label?_of_leavesOpen (hopen : LeavesOpen ⟨col, s⟩) (hlast : s.getLast? ≠ some '\\')
    (hx : Name.IsPlain x) (hno : NoLabelWith ⟨col, s⟩ (x ++ t))
    (h : (⟨col, s ++ t⟩ : Cursor).label? = none) : (⟨col, s ++ (x ++ t)⟩ : Cursor).label? = none := by
  induction s using Text.tokenInduction generalizing col with
  | nil => exact absurd hopen (not_leavesOpen_nil col)
  | blank c s hc ih =>
      rw [leavesOpen_blank hc] at hopen
      rw [noLabelWith_blank hc] at hno
      rw [List.cons_append, label?_blank hc] at h ⊢
      exact ih hopen (fun hs => hlast (Name.getLast?_cons_of_eq hs)) hno h
  | token token rest htoken ih =>
      rw [leavesOpen_token htoken] at hopen
      rw [noLabelWith_token htoken] at hno
      rcases hopen with ⟨rfl, hhead, hnone⟩ | hopen
      · rw [List.append_nil] at hlast h ⊢
        exact label?_of_unclosed hhead hnone hlast hx h
      · have hrest : rest ≠ [] := by
          rintro rfl
          exact not_leavesOpen_nil _ hopen
        have htoken' (t : Text) : IsToken token (rest ++ t) :=
          htoken.of_rest hrest fun hnext => by rwa [List.head?_append_of_ne_nil _ hrest]
        rw [List.append_assoc, label?_token (htoken' _), Option.or_eq_none_iff] at h
        rw [List.getLast?_append_of_ne_nil _ hrest] at hlast
        rw [List.append_assoc, label?_token (htoken' _), labelClause?_eq_none_iff.mpr hno.1,
          Option.none_or]
        exact ih hopen hlast hno.2 h.2

end Cursor

end WardleyMap
