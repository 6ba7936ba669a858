import WardleyMap.Proofs.Statement.Token

/-!
# Lines without quotes

Without a quote every token is a word, a word ends at a blank, and so a line can be cut at any blank:
what is found in it is found in the pieces. The two searches that an `evolve` line is read by are cut
here. The first label is that of the second piece if none starts in the first one, and the last number
is that of the second piece if there is one.
-/

namespace WardleyMap

namespace Text

def EndsBlank (s : Text) : Prop :=
  ∀ c ∈ s.getLast?, isBlank c = true

def StartsBlank (s : Text) : Prop :=
  ∀ c ∈ s.head?, isBlank c = true

variable {s t : Text}

theorem endsBlank_nil : EndsBlank [] := by
  simp [EndsBlank]

theorem startsBlank_nil : StartsBlank [] := by
  simp [StartsBlank]

theorem endsBlank_append (h : t ≠ []) : EndsBlank (s ++ t) ↔ EndsBlank t := by
  obtain ⟨c, hc⟩ := Option.ne_none_iff_exists'.mp (mt List.getLast?_eq_none_iff.mp h)
  rw [EndsBlank, EndsBlank, List.getLast?_append, hc, Option.some_or]

theorem EndsBlank.of_append (h : EndsBlank (s ++ t)) : EndsBlank t := by
  by_cases ht : t = []
  · rw [ht]
    exact endsBlank_nil
  · exact (endsBlank_append ht).mp h

theorem EndsBlank.append (hs : EndsBlank s) (ht : EndsBlank t) : EndsBlank (s ++ t) := by
  by_cases hnil : t = []
  · rwa [hnil, List.append_nil]
  · exact (endsBlank_append hnil).mpr ht

/-- What follows a character that is not a blank ends in a blank wherever it stands. -/
theorem EndsBlank.of_left {s' : Text} (h : EndsBlank (s ++ t)) (hs : ¬EndsBlank s) :
    EndsBlank (s' ++ t) := by
  by_cases hnil : t = []
  · rw [hnil, List.append_nil] at h
    exact absurd h hs
  · exact (endsBlank_append hnil).mpr ((endsBlank_append hnil).mp h)

theorem not_endsBlank (h : s ≠ []) (hlast : ∀ c ∈ s.getLast?, isBlank c = false) :
    ¬EndsBlank s := by
  intro hends
  have hmem := List.getLast?_eq_some_getLast h
  have hblank := hends _ hmem
  rw [hlast _ hmem] at hblank
  exact absurd hblank (by decide)

theorem endsBlank_of_isAllBlank (h : s.isAllBlank = true) : EndsBlank s :=
  fun c hc => isAllBlank_iff.mp h c (List.mem_of_getLast? hc)

theorem startsBlank_of_isAllBlank (h : s.isAllBlank = true) : StartsBlank s :=
  fun c hc => isAllBlank_iff.mp h c (List.mem_of_head? hc)

end Text

open Text

namespace IsToken

variable {token rest : Text}

/-- A token that does not open with a quote is a word. -/
theorem word_of_head (h : IsToken token rest) (hquote : token.head? ≠ some '"') :
    (∀ c ∈ token, isBlank c = false) ∧ StartsBlank rest := by
  cases h with
  | word _ _ hword hnext => exact ⟨hword, hnext⟩
  | quoted hquoted => exact absurd hquoted.head? hquote
  | unclosed hhead _ => exact absurd hhead hquote

theorem head_of_not_mem (hquote : '"' ∉ token) : token.head? ≠ some '"' :=
  fun hhead => hquote (List.mem_of_head? hhead)

theorem word_of_not_mem (h : IsToken token rest) (hquote : '"' ∉ token) :
    (∀ c ∈ token, isBlank c = false) ∧ StartsBlank rest :=
  h.word_of_head (head_of_not_mem hquote)

theorem not_endsBlank (h : IsToken token rest) (hquote : token.head? ≠ some '"') :
    ¬EndsBlank token :=
  Text.not_endsBlank (List.ne_nil_of_length_pos h.length_pos)
    fun _ hc => (h.word_of_head hquote).1 _ (List.mem_of_getLast? hc)

theorem of_startsBlank (h : IsToken token rest) (hquote : token.head? ≠ some '"') {rest' : Text}
    (hrest : StartsBlank rest') : IsToken token rest' := by
  obtain ⟨hword, -⟩ := h.word_of_head hquote
  exact .word (List.ne_nil_of_length_pos h.length_pos) hquote hword hrest

/-- A word stays a token when the text behind it is prolonged at a seam that has a blank. -/
theorem append (h : IsToken token rest) (hquote : token.head? ≠ some '"') {t : Text}
    (hseam : EndsBlank (token ++ rest) ∨ StartsBlank t) : IsToken token (rest ++ t) := by
  refine h.of_startsBlank hquote ?_
  have hrest := (h.word_of_head hquote).2
  cases rest with
  | cons c rest => exact hrest
  | nil =>
      rw [List.append_nil] at hseam
      exact hseam.resolve_left (h.not_endsBlank hquote)

end IsToken

/-- No word of the text opens with a quote, so all tokens of the text are words. Quotes may stand inside
a word. -/
def NoQuotedWord (s : Text) : Prop :=
  ∀ a b, s = a ++ '"' :: b → ¬EndsBlank a

namespace NoQuotedWord

variable {s t : Text}

theorem of_not_mem (h : '"' ∉ s) : NoQuotedWord s := by
  rintro a b rfl
  simp at h

theorem head (h : NoQuotedWord s) : s.head? ≠ some '"' := by
  intro hhead
  obtain ⟨b, rfl⟩ := List.head?_eq_some_iff.mp hhead
  exact h [] b rfl endsBlank_nil

theorem right (h : NoQuotedWord (s ++ t)) (hs : EndsBlank s ∨ StartsBlank t) : NoQuotedWord t := by
  rintro a b rfl ha
  by_cases hnil : a = []
  · subst hnil
    rcases hs with hs | ht
    · exact h s b (by simp) hs
    · exact absurd (ht '"' rfl) (by decide)
  · exact h (s ++ a) b (List.append_assoc ..).symm ((endsBlank_append hnil).mpr ha)

theorem left (h : NoQuotedWord (s ++ t)) : NoQuotedWord s := by
  rintro a b rfl
  exact h a (b ++ t) (List.append_assoc ..)

/-- No word that opens with a quote arises, if every quote of the second text stands inside a word. -/
theorem append (hs : NoQuotedWord s) (ht : ∀ a b, t = a ++ '"' :: b → ¬EndsBlank (s ++ a)) :
    NoQuotedWord (s ++ t) := by
  intro a b heq
  rcases List.append_eq_append_iff.mp heq with ⟨m, rfl, ht'⟩ | ⟨m, hs', ht'⟩
  · exact ht m b ht'
  · cases m with
    | nil =>
        rw [List.append_nil] at hs'
        subst hs'
        have := ht [] b ht'.symm
        rwa [List.append_nil] at this
    | cons c m =>
        obtain rfl : '"' = c := (List.cons.inj ht').1
        exact hs a m hs'

end NoQuotedWord

/-! ### The first label -/

def NoLabel (s : Text) : Prop :=
  ∀ a b, s = a ++ b → EndsBlank a → ¬StartsLabel b

namespace StartsLabel

theorem not_of_startsBlank {s : Text} (h : StartsBlank s) : ¬StartsLabel s :=
  fun hlabel => absurd (h _ hlabel.head?) (by decide)

end StartsLabel

namespace NoLabel

variable {s t : Text}

theorem left (h : NoLabel (s ++ t)) : NoLabel s := by
  rintro a b rfl ha hb
  exact h a (b ++ t) (List.append_assoc ..) ha (hb.append t)

theorem right (h : NoLabel (s ++ t)) (hs : EndsBlank s ∨ StartsBlank t) : NoLabel t := by
  rintro a b rfl ha hb
  by_cases hnil : a = []
  · subst hnil
    rcases hs with hs | ht
    · exact h s b (by simp) hs hb
    · exact StartsLabel.not_of_startsBlank (by simpa using ht) hb
  · exact h (s ++ a) b (List.append_assoc ..).symm ((endsBlank_append hnil).mpr ha) hb

end NoLabel

namespace Cursor

/-- A piece whose tokens are words is passed by the search if no label starts at one of them. -/
theorem label?_cut {s t : Text} (hquote : NoQuotedWord s) (hseam : EndsBlank s ∨ StartsBlank t)
    (h : ∀ a b, s = a ++ b → b ≠ [] → EndsBlank a → ¬StartsLabel (b ++ t)) (col : Nat) :
    (⟨col, s ++ t⟩ : Cursor).label? = (⟨col + s.length, t⟩ : Cursor).label? := by
  induction s using Text.tokenInduction generalizing col with
  | nil => rfl
  | blank c s hc ih =>
      have hends : EndsBlank [c] := fun d hd => by simp at hd; rwa [← hd]
      have hs := hquote.right (s := [c]) (.inl hends)
      rw [List.cons_append, label?_blank hc, ih hs (hseam.imp_left (EndsBlank.of_append (s := [c]))),
        List.length_cons, Nat.add_assoc, Nat.add_comm 1]
      rintro a b rfl hb ha
      exact h (c :: a) b rfl hb (hends.append ha)
  | token token rest htoken ih =>
      have hhead : token.head? ≠ some '"' := by
        obtain ⟨c, token, rfl, -⟩ := htoken.head
        exact hquote.head
      have hstarts := (htoken.word_of_head hhead).2
      have hne : token ++ rest ≠ [] :=
        List.append_ne_nil_of_left_ne_nil (List.ne_nil_of_length_pos htoken.length_pos) rest
      have hnone : (⟨col, token ++ (rest ++ t)⟩ : Cursor).labelClause? = none := by
        rw [labelClause?_eq_none_iff, ← List.append_assoc]
        exact h [] _ rfl hne endsBlank_nil
      rw [List.append_assoc, label?_token (htoken.append hhead hseam), hnone, Option.none_or,
        ih (hquote.right (.inr hstarts)) (hseam.imp_left EndsBlank.of_append), List.length_append,
        Nat.add_assoc]
      rintro a b rfl hb ha
      by_cases hnil : a = []
      · -- a label at the next token would start with a blank
        subst hnil
        obtain ⟨c, b, rfl⟩ := List.exists_cons_of_ne_nil hb
        refine StartsLabel.not_of_startsBlank fun d hd => hstarts d ?_
        simpa using hd
      · exact h (token ++ a) b (List.append_assoc ..).symm hb ((endsBlank_append hnil).mpr ha)

/-- A label behind a piece without one is the first label of the whole. -/
theorem label?_append {s t : Text} (hquote : NoQuotedWord s) (h : NoLabel s)
    (ht : t = [] ∨ EndsBlank s ∧ StartsLabel t) (col : Nat) :
    (⟨col, s ++ t⟩ : Cursor).label? = (⟨col + s.length, t⟩ : Cursor).label? := by
  refine label?_cut hquote ?_ ?_ col
  · rcases ht with rfl | ht
    · exact .inr startsBlank_nil
    · exact .inl ht.1
  · rintro a b rfl hb ha hstarts
    refine h a b rfl ha ?_
    rcases ht with rfl | ⟨hends, hlabel⟩
    · rwa [List.append_nil] at hstarts
    · obtain ⟨t, rfl⟩ := List.head?_eq_some_iff.mp hlabel.head?
      exact hstarts.of_append_label hb fun c hc => .inl (hends.of_append c hc)

end Cursor

/-- The first label that starts at a word cuts a text in two. -/
theorem exists_noLabel (s : Text) : ∃ before rest, s = before ++ rest ∧ NoLabel before ∧
    (rest = [] ∨ EndsBlank before ∧ StartsLabel rest) := by
  induction hn : s.length using Nat.strong_induction_on generalizing s with
  | _ n ih =>
      by_cases hs : NoLabel s
      · exact ⟨s, [], (List.append_nil s).symm, hs, Or.inl rfl⟩
      · simp only [NoLabel, not_forall, not_not] at hs
        obtain ⟨a, b, rfl, ha, hb⟩ := hs
        have hpos : 0 < b.length := List.length_pos_of_mem (List.mem_of_head? hb.head?)
        rw [List.length_append] at hn
        obtain ⟨before, rest, rfl, hbefore, hrest⟩ := ih a.length (by omega) a rfl
        refine ⟨before, rest ++ b, List.append_assoc .., hbefore, Or.inr ?_⟩
        rcases hrest with rfl | ⟨hends, hlabel⟩
        · rw [List.append_nil] at ha
          exact ⟨ha, hb⟩
        · exact ⟨hends, hlabel.append b⟩

namespace Cursor

/-! ### The last number -/

def numbers (c : Cursor) : List Number :=
  (c.tokens.filter (Decimal.isLiteral ·.text)).map fun t => ⟨t.span, Decimal.value t.text⟩

theorem lastNumber?_eq (c : Cursor) : c.lastNumber? = c.numbers.getLast? := by
  rw [numbers, List.getLast?_map]
  rfl

theorem numbers_blank {c : Char} (hc : isBlank c = true) (col : Nat) (s : Text) :
    (⟨col, c :: s⟩ : Cursor).numbers = (⟨col + 1, s⟩ : Cursor).numbers := by
  rw [numbers, tokens_blank hc]
  rfl

theorem numbers_token {token rest : Text} (h : IsToken token rest) (col : Nat) :
    (⟨col, token ++ rest⟩ : Cursor).numbers
      = (if Decimal.isLiteral token then [⟨⟨col, col + token.length⟩, Decimal.value token⟩] else [])
        ++ (⟨col + token.length, rest⟩ : Cursor).numbers := by
  have htext : (⟨⟨col, token ++ rest⟩, token.length⟩ : Token).text = token := List.take_left
  rw [numbers, tokens_token h, List.filter_cons, htext]
  cases Decimal.isLiteral token with
  | true =>
      rw [if_pos rfl, if_pos rfl, List.map_cons, htext]
      rfl
  | false => rfl

theorem numbers_eq_nil_of_isAllBlank {s : Text} (h : s.isAllBlank = true) (col : Nat) :
    (⟨col, s⟩ : Cursor).numbers = [] := by
  induction s generalizing col with
  | nil => rfl
  | cons c s ih =>
      have hs := isAllBlank_iff.mp h
      rw [numbers_blank (hs c List.mem_cons_self)]
      exact ih (isAllBlank_iff.mpr fun d hd => hs d (List.mem_cons_of_mem _ hd)) _

/-- If words end at the seam, the numbers are those of the two parts. -/
theorem numbers_append {s t : Text} (hquote : '"' ∉ s) (hseam : EndsBlank s ∨ StartsBlank t)
    (col : Nat) : (⟨col, s ++ t⟩ : Cursor).numbers
      = (⟨col, s⟩ : Cursor).numbers ++ (⟨col + s.length, t⟩ : Cursor).numbers := by
  induction s using Text.tokenInduction generalizing col with
  | nil => rfl
  | blank c s hc ih =>
      rw [List.cons_append, numbers_blank hc, numbers_blank hc,
        ih (fun hmem => hquote (List.mem_cons_of_mem _ hmem)), List.length_cons, Nat.add_assoc,
        Nat.add_comm 1]
      exact hseam.imp_left (EndsBlank.of_append (s := [c]))
  | token token rest htoken ih =>
      simp only [List.mem_append, not_or] at hquote
      rw [List.append_assoc, numbers_token (htoken.append (IsToken.head_of_not_mem hquote.1) hseam), numbers_token htoken,
        ih hquote.2 (hseam.imp_left EndsBlank.of_append), List.append_assoc, List.length_append,
        Nat.add_assoc]

theorem numbers_literal {literal : Text} (h : Decimal.isLiteral literal = true) (col : Nat) :
    (⟨col, literal⟩ : Cursor).numbers
      = [⟨⟨col, col + literal.length⟩, Decimal.value literal⟩] := by
  have htoken : IsToken literal [] := by
    refine .word (Decimal.literal_ne_nil h) ?_ ?_ startsBlank_nil
    · exact fun hhead => Decimal.not_mem_literal h rfl (List.mem_of_head? hhead)
    · exact Decimal.not_isBlank_of_mem h
  have := numbers_token htoken col
  rwa [List.append_nil, if_pos h] at this

/-- Whether a text has numbers does not depend on its column. -/
theorem numbers_eq_nil_of_col {col : Nat} {s : Text} (h : (⟨col, s⟩ : Cursor).numbers = [])
    (col' : Nat) : (⟨col', s⟩ : Cursor).numbers = [] := by
  induction s using Text.tokenInduction generalizing col col' with
  | nil => rfl
  | blank c s hc ih =>
      rw [numbers_blank hc] at h ⊢
      exact ih h _
  | token token rest htoken ih =>
      rw [numbers_token htoken, List.append_eq_nil_iff] at h
      rw [numbers_token htoken, ih h.2]
      split
      · next hliteral => simp [hliteral] at h
      · rfl

/-- A text is cut by its last number, if it has one. -/
theorem exists_lastNumber {col : Nat} {s : Text} (hquote : '"' ∉ s)
    (h : (⟨col, s⟩ : Cursor).numbers ≠ []) : ∃ before literal after,
      s = before ++ (literal ++ after) ∧ Decimal.isLiteral literal = true ∧ EndsBlank before ∧
      StartsBlank after ∧ (⟨0, after⟩ : Cursor).numbers = [] := by
  induction s using Text.tokenInduction generalizing col with
  | nil => exact absurd rfl h
  | blank c s hc ih =>
      rw [numbers_blank hc] at h
      obtain ⟨before, literal, after, rfl, hliteral, hbefore, hafter, hnone⟩ :=
        ih (fun hmem => hquote (List.mem_cons_of_mem _ hmem)) h
      refine ⟨c :: before, literal, after, rfl, hliteral, ?_, hafter, hnone⟩
      exact EndsBlank.append (s := [c]) (fun d hd => by simp at hd; rwa [← hd]) hbefore
  | token token rest htoken ih =>
      simp only [List.mem_append, not_or] at hquote
      obtain ⟨hword, hrest⟩ := htoken.word_of_not_mem hquote.1
      by_cases hnone : (⟨col + token.length, rest⟩ : Cursor).numbers = []
      · rw [numbers_token htoken, hnone, List.append_nil] at h
        have hliteral : Decimal.isLiteral token = true := by
          by_contra hnot
          simp [hnot] at h
        exact ⟨[], token, rest, rfl, hliteral, endsBlank_nil, hrest, numbers_eq_nil_of_col hnone 0⟩
      · obtain ⟨before, literal, after, rfl, hliteral, hbefore, hafter, hnone⟩ := ih hquote.2 hnone
        refine ⟨token ++ before, literal, after, (List.append_assoc ..).symm, hliteral, ?_, hafter,
          hnone⟩
        have hne : before ≠ [] := by
          -- a number does not follow a word without a blank between them
          rintro rfl
          obtain ⟨c, literal, rfl⟩ := List.exists_cons_of_ne_nil (Decimal.literal_ne_nil hliteral)
          have hc := hrest c rfl
          rw [Decimal.not_isBlank_of_mem hliteral c List.mem_cons_self] at hc
          exact absurd hc (by decide)
        exact (endsBlank_append hne).mpr hbefore

theorem lastNumber?_of_append {before literal after : Text} (hquote : '"' ∉ before)
    (hliteral : Decimal.isLiteral literal = true) (hbefore : EndsBlank before)
    (hafter : StartsBlank after) (hnone : (⟨0, after⟩ : Cursor).numbers = []) (col : Nat) :
    (⟨col, before ++ (literal ++ after)⟩ : Cursor).lastNumber?
      = some ⟨⟨col + before.length, col + before.length + literal.length⟩,
          Decimal.value literal⟩ := by
  have hquote' : '"' ∉ literal := Decimal.not_mem_literal hliteral rfl
  rw [lastNumber?_eq, numbers_append hquote (Or.inl hbefore), numbers_append hquote' (Or.inr hafter),
    numbers_eq_nil_of_col hnone, numbers_literal hliteral, List.append_nil, List.getLast?_append]
  rfl

end Cursor

end WardleyMap
