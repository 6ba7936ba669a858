import WardleyMap.Proofs.Name.Quote
import WardleyMap.Proofs.Statement.Label

/-!
# Tokens

The tokens of a line are scanned with a count of characters to skip. `IsToken` says what a token is,
given what follows it, and the equations here say that the scan goes from blank to blank and from
token to token; `Text.tokenInduction` is the induction that goes with them.

A label is looked for at the start of every token. Where it was found, any other label of the same line
would be found as well: the text before it ends in a blank or in a quote, so no token before it can
reach into it, and no clause before it can be completed by it.
-/

namespace WardleyMap

/-- The first of the two texts is a token, when the second follows it. -/
inductive IsToken : (token rest : Text) → Prop
  | word {token rest : Text} (ne_nil : token ≠ []) (head : token.head? ≠ some '"')
      (no_blank : ∀ c ∈ token, isBlank c = false) (next : ∀ c ∈ rest.head?, isBlank c = true) :
      IsToken token rest
  | quoted {token rest : Text} (isQuoted : Name.IsQuoted token) : IsToken token rest
  | unclosed {token : Text} (head : token.head? = some '"')
      (notQuoted : Name.quotedLength? token = none) : IsToken token []

namespace IsToken

variable {token rest : Text}

theorem head (h : IsToken token rest) : ∃ c s, token = c :: s ∧ isBlank c = false := by
  have hquote : token.head? = some '"' → ∃ c s, token = c :: s ∧ isBlank c = false := by
    intro hhead
    obtain ⟨s, rfl⟩ := List.head?_eq_some_iff.mp hhead
    exact ⟨'"', s, rfl, rfl⟩
  cases h with
  | word hne hhead hword hnext =>
      obtain ⟨c, s, rfl⟩ := List.exists_cons_of_ne_nil hne
      exact ⟨c, s, rfl, hword c List.mem_cons_self⟩
  | quoted hquoted => exact hquote hquoted.head?
  | unclosed hhead _ => exact hquote hhead

theorem length_pos (h : IsToken token rest) : 0 < token.length := by
  obtain ⟨c, s, rfl, -⟩ := h.head
  exact Nat.succ_pos _

/-- A token has one length, which is the one that the reader finds. -/
theorem lengthAt_eq (h : IsToken token rest) : Token.lengthAt (token ++ rest) = token.length := by
  have hhead : (token ++ rest).head? = token.head? := by
    obtain ⟨c, s, rfl, -⟩ := h.head
    rfl
  unfold Token.lengthAt
  rw [hhead]
  cases h with
  | word hne hquote hword hnext =>
      rw [if_neg hquote, Text.takeWhile_append_of_head]
      · intro c hc
        simp [hword c hc]
      · intro c hc
        simp [hnext c hc]
  | quoted hquoted =>
      rw [if_pos hquoted.head?, hquoted.quotedLength?_append]
      rfl
  | unclosed hquote hopen =>
      rw [if_pos hquote, List.append_nil, hopen]
      rfl

/-- Only a quoted name is followed by the next token at once. -/
theorem getLast?_of_head (h : IsToken token rest) {c : Char} (hc : rest.head? = some c)
    (hblank : isBlank c = false) : token.getLast? = some '"' := by
  cases h with
  | word _ _ _ hnext => simp [hnext c hc] at hblank
  | quoted hquoted => exact hquoted.getLast?
  | unclosed => simp at hc

theorem of_rest (h : IsToken token rest) (hne : rest ≠ []) {rest' : Text}
    (hnext : (∀ c ∈ rest.head?, isBlank c = true) → ∀ c ∈ rest'.head?, isBlank c = true) :
    IsToken token rest' := by
  cases h with
  | word hne hhead hword hblank => exact .word hne hhead hword (hnext hblank)
  | quoted hquoted => exact .quoted hquoted
  | unclosed => exact absurd rfl hne

end IsToken

/-- A token starts at every character that is not blank. -/
theorem exists_isToken {c : Char} {s : Text} (hc : isBlank c = false) :
    ∃ token rest, c :: s = token ++ rest ∧ IsToken token rest := by
  by_cases hquote : c = '"'
  · subst hquote
    cases hlength : Name.quotedLength? ('"' :: s) with
    | some n =>
        obtain ⟨q, rest, hs, -, hquoted⟩ := Name.exists_isQuoted hlength
        exact ⟨q, rest, hs, .quoted hquoted⟩
    | none => exact ⟨'"' :: s, [], (List.append_nil _).symm, .unclosed rfl hlength⟩
  · refine ⟨(c :: s).takeWhile (!isBlank ·), (c :: s).dropWhile (!isBlank ·),
      List.takeWhile_append_dropWhile.symm, .word ?_ ?_ ?_ ?_⟩
    · simp [hc]
    · simp [hc, hquote]
    · intro d hd
      simpa using List.mem_takeWhile_imp hd
    · intro d hd
      simpa using Text.head?_dropWhile d hd

/-- A text is empty, or starts with a blank, or starts with a token. -/
theorem Text.tokenInduction {P : Text → Prop} (nil : P [])
    (blank : ∀ c s, isBlank c = true → P s → P (c :: s))
    (token : ∀ t rest, IsToken t rest → P rest → P (t ++ rest)) (s : Text) : P s := by
  induction hn : s.length using Nat.strong_induction_on generalizing s with
  | _ n ih =>
      cases s with
      | nil => exact nil
      | cons c s =>
          by_cases hc : isBlank c = true
          · exact blank c s hc (ih s.length (by simp [← hn]) s rfl)
          · obtain ⟨t, rest, heq, ht⟩ := exists_isToken (s := s) (by simpa using hc)
            rw [heq] at hn ⊢
            have hpos := ht.length_pos
            have hlt : rest.length < n := by
              rw [List.length_append] at hn
              omega
            exact token t rest ht (ih rest.length hlt rest rfl)

/-! ### The scan -/

namespace Token

theorem scan_skip (skip col : Nat) (s : Text) :
    scan skip col s = scan 0 (col + skip) (s.drop skip) := by
  induction s generalizing skip col with
  | nil => simp [scan]
  | cons c s ih =>
      cases skip with
      | zero => rfl
      | succ skip =>
          rw [scan, ih, List.drop_succ_cons, Nat.add_assoc, Nat.add_comm 1]

end Token

namespace Cursor

theorem tokens_blank {c : Char} (hc : isBlank c = true) (col : Nat) (s : Text) :
    (⟨col, c :: s⟩ : Cursor).tokens = (⟨col + 1, s⟩ : Cursor).tokens := by
  rw [tokens, Token.scan, if_pos hc]
  rfl

theorem tokens_token {token rest : Text} (h : IsToken token rest) (col : Nat) :
    (⟨col, token ++ rest⟩ : Cursor).tokens
      = ⟨⟨col, token ++ rest⟩, token.length⟩ :: (⟨col + token.length, rest⟩ : Cursor).tokens := by
  have hlength := h.lengthAt_eq
  obtain ⟨c, s, rfl, hc⟩ := h.head
  rw [List.cons_append] at hlength ⊢
  rw [tokens, Token.scan, if_neg (by simp [hc]), hlength]
  dsimp only
  rw [Token.scan_skip]
  simp only [List.length_cons, Nat.add_sub_cancel, List.drop_left, tokens, Nat.add_assoc,
    Nat.add_comm 1]

/-! ### The label -/

theorem label?_nil (col : Nat) : (⟨col, []⟩ : Cursor).label? = none := rfl

theorem label?_blank {c : Char} (hc : isBlank c = true) (col : Nat) (s : Text) :
    (⟨col, c :: s⟩ : Cursor).label? = (⟨col + 1, s⟩ : Cursor).label? := by
  rw [label?, tokens_blank hc]
  rfl

theorem label?_token {token rest : Text} (h : IsToken token rest) (col : Nat) :
    (⟨col, token ++ rest⟩ : Cursor).label?
      = (⟨col, token ++ rest⟩ : Cursor).labelClause?.or
          (⟨col + token.length, rest⟩ : Cursor).label? := by
  rw [label?, tokens_token h, List.findSome?_cons]
  cases (⟨col, token ++ rest⟩ : Cursor).labelClause? with
  | some clause => rfl
  | none => rfl

/-- An opened quote that is not closed is one token, and hides what follows it. -/
theorem label?_of_open {s : Text} (hhead : s.head? = some '"') (hopen : Name.quotedLength? s = none)
    (col : Nat) : (⟨col, s⟩ : Cursor).label? = none := by
  have hnone : (⟨col, s⟩ : Cursor).labelClause? = none := by
    refine labelClause?_eq_none_iff.mpr fun hstarts => ?_
    have hboth := hstarts.head?.symm.trans hhead
    exact absurd hboth (by decide)
  have hread := label?_token (.unclosed hhead hopen) col
  rw [List.append_nil, hnone, Option.none_or] at hread
  exact hread.trans (label?_nil _)

theorem label?_of_labelClause? {c : Cursor} {clause : LabelClause}
    (h : c.labelClause? = some clause) : c.label? = some clause := by
  obtain ⟨col, s⟩ := c
  have hlabel : StartsLabel s := Cursor.isSome_labelClause?_iff.mp (by rw [h]; rfl)
  obtain ⟨s, rfl⟩ := List.head?_eq_some_iff.mp hlabel.head?
  obtain ⟨token, rest, heq, htoken⟩ := exists_isToken (c := 'l') (s := s) (by decide)
  rw [heq] at h ⊢
  rw [label?_token htoken, h, Option.some_or]

theorem label?_labelled {gap : Text} (hgap : ∀ ch ∈ gap, isSpace ch = true) (f g : Field)
    (rest : Text) (col : Nat) : (⟨col, Field.labelled gap [f, g] ++ rest⟩ : Cursor).label?
      = some (Field.labelClause col gap f g) :=
  label?_of_labelClause? (labelClause?_eq_some_iff.mpr ⟨gap, f, g, rest, hgap, rfl, rfl⟩)

/-- The text ends where a token may start: in a blank or a quote, or it is empty. -/
def EndsOpen (s : Text) : Prop :=
  ∀ c ∈ s.getLast?, isBlank c = true ∨ c = '"'

/-- The text in front of a label that was found. Whatever clause takes the place of that label is found
instead of it. -/
structure BeforeLabel (before : Text) : Prop where
  endsOpen : EndsOpen before
  found : ∀ (gap : Text) (f g : Field) (rest : Text) (col : Nat), (∀ ch ∈ gap, isSpace ch = true) →
    (⟨col, before ++ (Field.labelled gap [f, g] ++ rest)⟩ : Cursor).label?
      = some (Field.labelClause (col + before.length) gap f g)

theorem BeforeLabel.nil : BeforeLabel [] := by
  refine ⟨by simp [EndsOpen], fun gap f g rest col hgap => ?_⟩
  exact label?_labelled hgap f g rest col

/-- A blank in front moves no token, so the label behind is found as before. -/
theorem BeforeLabel.cons {c : Char} (hc : isBlank c = true) {before : Text}
    (h : BeforeLabel before) : BeforeLabel (c :: before) := by
  refine ⟨?_, fun gap f g rest col hgap => ?_⟩
  · cases before with
    | nil =>
        intro d hd
        obtain rfl : c = d := by simpa using hd
        exact Or.inl hc
    | cons d before =>
        intro e he
        exact h.endsOpen e (by simpa using he)
  · rw [List.cons_append, label?_blank hc, h.found gap f g rest _ hgap, List.length_cons]
    congr 2
    omega

/-- A token in front is read as such, and the label behind it is found as before. -/
theorem BeforeLabel.append {token before label rest : Text} (htoken : IsToken token (before ++ label))
    (hlabel : label = 'l' :: rest) (hnot : ¬StartsLabel (token ++ (before ++ label)))
    (h : BeforeLabel before) : BeforeLabel (token ++ before) := by
  have hends : EndsOpen (token ++ before) := by
    intro c hc
    rw [List.getLast?_append] at hc
    cases hbefore : before.getLast? with
    | some d =>
        rw [hbefore, Option.some_or] at hc
        exact h.endsOpen c (hbefore ▸ hc)
    | none =>
        rw [List.getLast?_eq_none_iff] at hbefore
        rw [hbefore, List.getLast?_nil, Option.none_or] at hc
        rw [hbefore, hlabel] at htoken
        rw [htoken.getLast?_of_head rfl (by decide)] at hc
        exact Or.inr (Option.some.inj hc).symm
  refine ⟨hends, fun gap f g after col hgap => ?_⟩
  have htoken' : IsToken token (before ++ (Field.labelled gap [f, g] ++ after)) := by
    refine htoken.of_rest (by simp [hlabel]) fun hnext => ?_
    cases before with
    | nil =>
        rw [hlabel] at hnext
        exact absurd (hnext 'l' rfl) (by decide)
    | cons c before => exact hnext
  have hnot' : (⟨col, token ++ (before ++ (Field.labelled gap [f, g] ++ after))⟩
      : Cursor).labelClause? = none := by
    rw [labelClause?_eq_none_iff]
    intro hstarts
    refine hnot ?_
    rw [← List.append_assoc] at hstarts ⊢
    refine (StartsLabel.of_append_label hstarts ?_ hends).append label
    have := htoken'.length_pos
    intro hnil
    simp [(List.append_eq_nil_iff.mp hnil).1] at this
  rw [List.append_assoc, label?_token htoken', hnot', Option.none_or, h.found gap f g after _ hgap,
    List.length_append]
  congr 2
  omega

/-- A label that is found stands behind a text in which no token starts one. -/
theorem exists_beforeLabel {c : Cursor} {clause : LabelClause} (h : c.label? = some clause) :
    ∃ (before gap : Text) (f g : Field) (rest : Text), (∀ ch ∈ gap, isSpace ch = true) ∧
      c.rest = before ++ (Field.labelled gap [f, g] ++ rest) ∧
      clause = Field.labelClause (c.col + before.length) gap f g ∧ BeforeLabel before := by
  obtain ⟨col, s⟩ := c
  induction s using Text.tokenInduction generalizing col with
  | nil => simp [label?_nil] at h
  | blank ch s hch ih =>
      rw [label?_blank hch] at h
      obtain ⟨before, gap, f, g, rest, hgap, hrest, rfl, hbefore⟩ := ih _ h
      refine ⟨ch :: before, gap, f, g, rest, hgap, congrArg (ch :: ·) hrest, ?_, hbefore.cons hch⟩
      congr 1
      simp only [List.length_cons]
      omega
  | token t s ht ih =>
      rw [label?_token ht] at h
      cases hclause : (⟨col, t ++ s⟩ : Cursor).labelClause? with
      | some found =>
          rw [hclause, Option.some_or] at h
          obtain rfl := Option.some.inj h
          obtain ⟨gap, f, g, rest, hgap, hrest, rfl⟩ := labelClause?_eq_some_iff.mp hclause
          exact ⟨[], gap, f, g, rest, hgap, hrest, rfl, .nil⟩
      | none =>
          rw [hclause, Option.none_or] at h
          obtain ⟨before, gap, f, g, rest, hgap, hrest, rfl, hbefore⟩ := ih _ h
          dsimp only at hrest
          subst hrest
          refine ⟨t ++ before, gap, f, g, rest, hgap, (List.append_assoc ..).symm, ?_,
            hbefore.append ht rfl (labelClause?_eq_none_iff.mp hclause)⟩
          congr 1
          simp only [List.length_append]
          omega

end Cursor

end WardleyMap
