import Mathlib.Algebra.Group.Nat.Even
import WardleyMap.Proofs.Statement.Bytes

/-!
# The tokens make up the line

Labels and maturities are looked for at the tokens of a line, so what no token holds is never found. `Tokenizes`
says what the tokens from a column on have to be without a word about how they are looked for: they leave out
blanks only, and each of them stops where its own rule says. A line has one such list only (`Tokenizes.unique`). A
quote closes a token if an even number of backslashes stands directly in front of it; counted so, no quote depends
on how the text was read up to there.

The host looks for the tokens with a loop that goes from one place in the line to the next and counts bytes.
`Token.walk` is that loop. It comes to its end, because every token takes up a character at least, and it never
slices the line between the bytes of one character.
-/

namespace WardleyMap

/-! ### The quote that closes -/

namespace Name

def trailingBackslashes (s : Text) : Nat :=
  (s.reverse.takeWhile (· == '\\')).length

/-- A quote stands at place `n` of the text, and no backslash escapes it. -/
def ClosesAt (s : Text) (n : Nat) : Prop :=
  s[n]? = some '"' ∧ Even (trailingBackslashes (s.take n))

variable {s : Text} {c : Char} {n : Nat}

theorem trailingBackslashes_le (s : Text) : trailingBackslashes s ≤ s.length := by
  have hle : trailingBackslashes s ≤ s.reverse.length := (List.takeWhile_prefix _).length_le
  rwa [List.length_reverse] at hle

theorem trailingBackslashes_cons (c : Char) (s : Text) : trailingBackslashes (c :: s)
    = if trailingBackslashes s = s.length ∧ c = '\\' then s.length + 1 else trailingBackslashes s := by
  unfold trailingBackslashes
  rw [List.reverse_cons, List.takeWhile_append, List.length_reverse]
  by_cases hall : (s.reverse.takeWhile (· == '\\')).length = s.length
  · by_cases hc : c = '\\'
    · simp [hall, hc]
    · simp [hall, hc]
  · simp [hall]

theorem trailingBackslashes_cons_of_ne (hc : c ≠ '\\') (s : Text) :
    trailingBackslashes (c :: s) = trailingBackslashes s := by
  rw [trailingBackslashes_cons, if_neg fun h => hc h.2]

/-- A backslash and the character behind it do not change which quotes are escaped. -/
theorem even_trailingBackslashes_pair (c : Char) (s : Text) :
    Even (trailingBackslashes ('\\' :: c :: s)) ↔ Even (trailingBackslashes s) := by
  have hle := trailingBackslashes_le s
  rw [trailingBackslashes_cons '\\' (c :: s), trailingBackslashes_cons c s, List.length_cons]
  by_cases hall : trailingBackslashes s = s.length ∧ c = '\\'
  · rw [if_pos hall, if_pos ⟨rfl, rfl⟩, hall.1]
    rw [Nat.even_add_one, Nat.even_add_one, not_not]
  · rw [if_neg hall, if_neg (by omega)]

theorem not_closesAt_nil (n : Nat) : ¬ClosesAt [] n := by
  simp [ClosesAt]

theorem closesAt_quote (s : Text) : ClosesAt ('"' :: s) 0 :=
  ⟨rfl, Even.zero⟩

theorem closesAt_cons (hquote : c ≠ '"') (hbackslash : c ≠ '\\') :
    ClosesAt (c :: s) n ↔ ∃ m, n = m + 1 ∧ ClosesAt s m := by
  cases n with
  | zero => simp [ClosesAt, hquote]
  | succ n => simp [ClosesAt, trailingBackslashes_cons_of_ne hbackslash]

theorem closesAt_pair : ClosesAt ('\\' :: c :: s) n ↔ ∃ m, n = m + 2 ∧ ClosesAt s m := by
  match n with
  | 0 => simp [ClosesAt]
  | 1 => simp [ClosesAt, trailingBackslashes]
  | n + 2 => simp [ClosesAt, even_trailingBackslashes_pair]

theorem not_closesAt_lone (n : Nat) : ¬ClosesAt ['\\'] n := by
  cases n with
  | zero => simp [ClosesAt]
  | succ n => simp [ClosesAt]

/-- The first quote that is not escaped stands at the given place; without a place, there is none. -/
def FirstClosing (s : Text) : (place : Option Nat) → Prop
  | some n => ClosesAt s n ∧ ∀ m < n, ¬ClosesAt s m
  | none => ∀ n, ¬ClosesAt s n

/-- The first closing quote of a text, found in a later part that holds all of its closing quotes. -/
theorem FirstClosing.shift {t : Text} {k : Nat} {place : Option Nat}
    (h : ∀ n, ClosesAt s n ↔ ∃ m, n = m + k ∧ ClosesAt t m) (hplace : FirstClosing t place) :
    FirstClosing s (place.map (· + k)) := by
  cases place with
  | none =>
      intro n hn
      obtain ⟨m, -, hm⟩ := (h n).mp hn
      exact hplace m hm
  | some n =>
      obtain ⟨hcloses, hfirst⟩ := hplace
      refine ⟨(h _).mpr ⟨n, rfl, hcloses⟩, fun m hm hclosed => ?_⟩
      obtain ⟨l, rfl, hl⟩ := (h m).mp hclosed
      exact hfirst l (Nat.lt_of_add_lt_add_right hm) hl

theorem FirstClosing.unique {place place' : Option Nat} (h : FirstClosing s place)
    (h' : FirstClosing s place') : place = place' := by
  match place, place' with
  | none, none => rfl
  | none, some m => exact absurd h'.1 (h m)
  | some n, none => exact absurd h.1 (h' n)
  | some n, some m =>
      rcases Nat.lt_trichotomy n m with hlt | rfl | hlt
      · exact absurd h.1 (h'.2 n hlt)
      · rfl
      · exact absurd h'.1 (h.2 m hlt)

/-- The scan for the closing quote finds the first quote that is not escaped. -/
theorem firstClosing_closingQuote? (s : Text) : FirstClosing s (closingQuote? s) := by
  induction s using closingQuote?.induct with
  | case1 => exact not_closesAt_nil
  | case2 s => exact ⟨closesAt_quote s, fun m hm => absurd hm (Nat.not_lt_zero m)⟩
  | case3 c s ih =>
      rw [closingQuote?]
      exact ih.shift fun n => closesAt_pair
  | case4 c s hquote hbackslash ih =>
      rw [closingQuote?.eq_4 c s hquote hbackslash]
      by_cases hc : c = '\\'
      · -- a backslash with nothing behind it
        obtain rfl : s = [] := by
          cases s with
          | nil => rfl
          | cons d s => exact absurd rfl (hbackslash d s hc)
        rw [hc]
        exact not_closesAt_lone
      · exact ih.shift fun n => closesAt_cons hquote hc

end Name

/-! ### What the tokens are -/

/-- The spans are the tokens of the line from column `col` on. -/
structure Tokenizes (line : Text) (col : Nat) (spans : List Span) : Prop where
  inOrder : Span.InOrder col spans line.length
  nonempty : ∀ s ∈ spans, s.start < s.stop
  /-- What stands outside of the tokens is blank. -/
  blank : ∀ i c, col ≤ i → (line.drop i).head? = some c → (∀ s ∈ spans, i < s.start ∨ s.stop ≤ i) → isBlank c = true
  /-- A token that opens with a quote stops behind the first quote that is not escaped. -/
  closed : ∀ s ∈ spans, (line.drop s.start).head? = some '"' →
    ∀ n, Name.FirstClosing (line.drop (s.start + 1)) (some n) → s.stop = s.start + 1 + n + 1
  /-- Without such a quote it takes up the rest of the line. -/
  unclosed : ∀ s ∈ spans, (line.drop s.start).head? = some '"' →
    Name.FirstClosing (line.drop (s.start + 1)) none → s.stop = line.length
  /-- Any other token holds no blank and stops in front of one or at the end of the line. -/
  word : ∀ s ∈ spans, (line.drop s.start).head? ≠ some '"' →
    (∀ c ∈ s.slice line, isBlank c = false) ∧ ∀ c, (line.drop s.stop).head? = some c → isBlank c = true

namespace Cursor

variable {col : Nat} {s : Text} {t : Token}

theorem tokens_gap {gap : Text} (hgap : ∀ c ∈ gap, isBlank c = true) (col : Nat) (s : Text) :
    (⟨col, gap ++ s⟩ : Cursor).tokens = (⟨col + gap.length, s⟩ : Cursor).tokens := by
  induction gap generalizing col with
  | nil => rfl
  | cons c gap ih =>
      obtain ⟨hc, hgap⟩ := List.forall_mem_cons.mp hgap
      rw [List.cons_append, tokens_blank hc, ih hgap, List.length_cons, Nat.add_assoc, Nat.add_comm 1]

/-- A token of the line is a token where it stands, with what precedes it and what follows. -/
theorem exists_of_mem_tokens (h : t ∈ (⟨col, s⟩ : Cursor).tokens) :
    ∃ before token after : Text, s = before ++ (token ++ after) ∧ IsToken token after ∧
      t = ⟨⟨col + before.length, token ++ after⟩, token.length⟩ := by
  induction s using Text.tokenInduction generalizing col with
  | nil => simp [tokens, Token.scan] at h
  | blank c s hc ih =>
      rw [tokens_blank hc] at h
      obtain ⟨before, token, after, rfl, htoken, rfl⟩ := ih h
      refine ⟨c :: before, token, after, rfl, htoken, ?_⟩
      rw [List.length_cons, Nat.add_right_comm, Nat.add_assoc]
  | token token rest htoken ih =>
      rw [tokens_token htoken] at h
      rcases List.mem_cons.mp h with rfl | h
      · exact ⟨[], token, rest, rfl, htoken, rfl⟩
      · obtain ⟨before, other, after, rfl, hother, rfl⟩ := ih h
        refine ⟨token ++ before, other, after, (List.append_assoc ..).symm, hother, ?_⟩
        rw [List.length_append, Nat.add_assoc]

theorem inOrder_tokens (col : Nat) (s : Text) :
    Span.InOrder col ((⟨col, s⟩ : Cursor).tokens.map Token.span) (col + s.length) := by
  induction s using Text.tokenInduction generalizing col with
  | nil => exact Nat.le_refl _
  | blank c s hc ih =>
      rw [tokens_blank hc, List.length_cons, Nat.add_comm s.length, ← Nat.add_assoc]
      exact (ih (col + 1)).mono_left (Nat.le_succ col)
  | token token rest htoken ih =>
      rw [tokens_token htoken, List.map_cons, List.length_append, ← Nat.add_assoc]
      exact ⟨Nat.le_refl _, Nat.le_add_right _ _, ih (col + token.length)⟩

/-- What lies outside of all tokens is blank, so no part of a word is lost. -/
theorem isBlank_of_outside {i : Nat} {c : Char} (hc : (s.drop i).head? = some c)
    (houtside : ∀ t ∈ (⟨col, s⟩ : Cursor).tokens, col + i < t.span.start ∨ t.span.stop ≤ col + i) :
    isBlank c = true := by
  induction s using Text.tokenInduction generalizing col i with
  | nil => simp at hc
  | blank d s hd ih =>
      rw [tokens_blank hd] at houtside
      cases i with
      | zero =>
          obtain rfl : d = c := Option.some.inj hc
          exact hd
      | succ i =>
          refine @ih (col + 1) i hc fun t ht => ?_
          have := houtside t ht
          omega
  | token token rest htoken ih =>
      rw [tokens_token htoken, List.forall_mem_cons] at houtside
      obtain ⟨hfirst, houtside⟩ := houtside
      have hi : token.length ≤ i := by
        simp only [Token.span] at hfirst
        omega
      obtain ⟨i, rfl⟩ := Nat.exists_eq_add_of_le hi
      rw [← List.drop_drop, List.drop_left] at hc
      refine @ih (col + token.length) i hc fun t ht => ?_
      have := houtside t ht
      omega

end Cursor

namespace Span

def CutsToken (line : Text) (s : Span) : Prop :=
  ∃ front token after : Text, line = front ++ (token ++ after) ∧ IsToken token after ∧
    s = ⟨front.length, front.length + token.length⟩

namespace CutsToken

variable {line : Text} {s : Span}

theorem nonempty (h : s.CutsToken line) : s.start < s.stop := by
  obtain ⟨front, token, after, -, htoken, rfl⟩ := h
  exact Nat.lt_add_of_pos_right htoken.length_pos

/-- A token that opens with a quote stops right behind the closing quote, or at the end of the line. -/
theorem stop_of_quote (h : s.CutsToken line) (hquote : (line.drop s.start).head? = some '"')
    {place : Option Nat} (hplace : Name.FirstClosing (line.drop (s.start + 1)) place) :
    s.stop = (place.map (s.start + 1 + · + 1)).getD line.length := by
  obtain ⟨front, token, after, rfl, htoken, rfl⟩ := h
  have hlength := htoken.lengthAt_eq
  rw [List.drop_left] at hquote
  obtain ⟨rest, hrest⟩ := List.head?_eq_some_iff.mp hquote
  have hbody : (front ++ (token ++ after)).drop (front.length + 1) = rest := by
    rw [← List.drop_drop, List.drop_left, hrest]
    rfl
  rw [hbody] at hplace
  rw [Token.lengthAt, if_pos hquote, hrest, Name.quotedLength?,
    ← hplace.unique (Name.firstClosing_closingQuote? rest)] at hlength
  rw [List.length_append, hrest, ← hlength]
  cases place with
  | none => rfl
  | some n =>
      simp only [Option.map_some, Option.getD_some]
      omega

theorem word (h : s.CutsToken line) (hquote : (line.drop s.start).head? ≠ some '"') :
    (∀ c ∈ s.slice line, isBlank c = false) ∧ ∀ c, (line.drop s.stop).head? = some c → isBlank c = true := by
  obtain ⟨front, token, after, rfl, htoken, rfl⟩ := h
  rw [List.drop_left] at hquote
  rw [Span.slice, ← List.append_assoc, ← List.length_append, List.take_left, List.drop_left,
    List.append_assoc, List.length_append, ← List.drop_drop, List.drop_left, List.drop_left]
  cases htoken with
  | word _ _ hblank hnext => exact ⟨hblank, hnext⟩
  | quoted hquoted => exact absurd (by rw [List.head?_append, hquoted.head?]; rfl) hquote
  | unclosed hhead _ => exact absurd (by rw [List.head?_append, hhead]; rfl) hquote

end CutsToken

end Span

/-- The scan meets the specification of tokens. -/
theorem tokenizes_tokens {line : Text} {col : Nat} (hcol : col ≤ line.length) :
    Tokenizes line col (((Cursor.ofLine line).advance col).tokens.map Token.span) := by
  have hstart : (Cursor.ofLine line).advance col = ⟨col, line.drop col⟩ := by
    rw [Cursor.advance, Cursor.ofLine, Nat.zero_add]
  rw [hstart]
  have hcuts : ∀ s ∈ (⟨col, line.drop col⟩ : Cursor).tokens.map Token.span, s.CutsToken line := by
    intro s hs
    obtain ⟨t, ht, rfl⟩ := List.mem_map.mp hs
    obtain ⟨before, token, after, hrest, htoken, rfl⟩ := Cursor.exists_of_mem_tokens ht
    refine ⟨line.take col ++ before, token, after, ?_, htoken, ?_⟩
    · rw [List.append_assoc, ← hrest, List.take_append_drop]
    · rw [List.length_append, List.length_take, Nat.min_eq_left hcol]
      rfl
  refine ⟨?_, fun s hs => (hcuts s hs).nonempty, fun i c hi hc houtside => ?_, fun s hs hquote n hn => ?_,
    fun s hs hquote hnone => ?_, fun s hs hquote => (hcuts s hs).word hquote⟩
  · have hinOrder := Cursor.inOrder_tokens col (line.drop col)
    rwa [List.length_drop, Nat.add_sub_cancel' hcol] at hinOrder
  · obtain ⟨i, rfl⟩ := Nat.exists_eq_add_of_le hi
    rw [← List.drop_drop] at hc
    exact Cursor.isBlank_of_outside hc fun t ht => houtside _ (List.mem_map_of_mem ht)
  · exact (hcuts s hs).stop_of_quote hquote hn
  · exact (hcuts s hs).stop_of_quote hquote hnone

/-! ### The tokens are determined -/

theorem Span.mem_slice {line : Text} {s : Span} {i : Nat} {c : Char} (hstart : s.start ≤ i) (hstop : i < s.stop)
    (hc : (line.drop i).head? = some c) : c ∈ s.slice line := by
  refine List.mem_iff_getElem?.mpr ⟨i - s.start, ?_⟩
  rw [List.head?_drop] at hc
  rw [Span.slice, List.getElem?_drop, Nat.add_sub_cancel' hstart, List.getElem?_take_of_lt hstop, hc]

namespace Tokenizes

variable {line : Text} {col : Nat} {s s' : Span} {spans spans' : List Span}

theorem tail (h : Tokenizes line col (s :: spans)) : Tokenizes line s.stop spans := by
  obtain ⟨hstart, hspan, hrest⟩ := h.inOrder
  have hmem : ∀ t ∈ spans, t ∈ s :: spans := fun t => List.mem_cons_of_mem s
  refine ⟨hrest, fun t ht => h.nonempty t (hmem t ht), fun i c hi hc houtside => ?_,
    fun t ht => h.closed t (hmem t ht), fun t ht => h.unclosed t (hmem t ht), fun t ht => h.word t (hmem t ht)⟩
  exact h.blank i c (by omega) hc (List.forall_mem_cons.mpr ⟨Or.inr hi, houtside⟩)

theorem exists_char (h : Tokenizes line col (s :: spans)) {i : Nat} (hi : i < s.stop) :
    ∃ c, (line.drop i).head? = some c := by
  have hlength : i < line.length := Nat.lt_of_lt_of_le hi h.inOrder.2.2.le
  exact ⟨_, by rw [List.head?_drop, List.getElem?_eq_getElem hlength]⟩

theorem not_isBlank_start (h : Tokenizes line col (s :: spans)) {c : Char}
    (hc : (line.drop s.start).head? = some c) : isBlank c = false := by
  by_cases hquote : c = '"'
  · rw [hquote]
    rfl
  · have hword : (line.drop s.start).head? ≠ some '"' := by
      rw [hc]
      exact fun heq => hquote (Option.some.inj heq)
    exact (h.word s List.mem_cons_self hword).1 c
      (Span.mem_slice (Nat.le_refl _) (h.nonempty s List.mem_cons_self) hc)

/-- In front of the first token stand blanks only. -/
theorem isBlank_of_lt (h : Tokenizes line col (s :: spans)) {i : Nat} {c : Char} (hi : col ≤ i) (hlt : i < s.start)
    (hc : (line.drop i).head? = some c) : isBlank c = true := by
  obtain ⟨hstart, hspan, hrest⟩ := h.inOrder
  refine h.blank i c hi hc (List.forall_mem_cons.mpr ⟨Or.inl hlt, fun t ht => Or.inl ?_⟩)
  have := (hrest.within t ht).1
  omega

theorem not_start_lt (h : Tokenizes line col (s :: spans)) (h' : Tokenizes line col (s' :: spans')) :
    ¬s.start < s'.start := by
  intro hlt
  obtain ⟨c, hc⟩ := h.exists_char (h.nonempty s List.mem_cons_self)
  have hblank := h'.isBlank_of_lt h.inOrder.1 hlt hc
  rw [h.not_isBlank_start hc] at hblank
  cases hblank

theorem not_stop_lt {start stop stop' : Nat} (h : Tokenizes line col (⟨start, stop⟩ :: spans))
    (h' : Tokenizes line col (⟨start, stop'⟩ :: spans')) (hword : (line.drop start).head? ≠ some '"') :
    ¬stop < stop' := by
  intro hlt
  obtain ⟨c, hc⟩ := h'.exists_char hlt
  have hspan : start < stop := h.nonempty _ List.mem_cons_self
  have hblank := (h.word _ List.mem_cons_self hword).2 c hc
  rw [(h'.word _ List.mem_cons_self hword).1 c (Span.mem_slice hspan.le hlt hc)] at hblank
  cases hblank

/-- Two lists that meet the specification agree on where the first token stops. -/
theorem stop_eq {start stop stop' : Nat} (h : Tokenizes line col (⟨start, stop⟩ :: spans))
    (h' : Tokenizes line col (⟨start, stop'⟩ :: spans')) : stop = stop' := by
  by_cases hquote : (line.drop start).head? = some '"'
  · obtain ⟨place, hplace⟩ : ∃ place, Name.FirstClosing (line.drop (start + 1)) place :=
      ⟨_, Name.firstClosing_closingQuote? _⟩
    cases place with
    | some n =>
        exact (h.closed _ List.mem_cons_self hquote n hplace).trans
          (h'.closed _ List.mem_cons_self hquote n hplace).symm
    | none =>
        exact (h.unclosed _ List.mem_cons_self hquote hplace).trans
          (h'.unclosed _ List.mem_cons_self hquote hplace).symm
  · have hle := h.not_stop_lt h' hquote
    have hge := h'.not_stop_lt h hquote
    omega

theorem not_nil (h : Tokenizes line col (s :: spans)) : ¬Tokenizes line col [] := by
  intro hnil
  obtain ⟨c, hc⟩ := h.exists_char (h.nonempty s List.mem_cons_self)
  have hblank := hnil.blank s.start c h.inOrder.1 hc fun t ht => absurd ht List.not_mem_nil
  rw [h.not_isBlank_start hc] at hblank
  cases hblank

/-- A line has one list of tokens only. -/
theorem unique (h : Tokenizes line col spans) (h' : Tokenizes line col spans') : spans = spans' := by
  induction spans generalizing col spans' with
  | nil =>
      cases spans' with
      | nil => rfl
      | cons s' spans' => exact absurd h h'.not_nil
  | cons s spans ih =>
      cases spans' with
      | nil => exact absurd h' h.not_nil
      | cons s' spans' =>
          obtain ⟨start, stop⟩ := s
          obtain ⟨start', stop'⟩ := s'
          obtain rfl : start = start' := by
            have hle := h.not_start_lt h'
            have hge := h'.not_start_lt h
            dsimp only at hle hge
            omega
          obtain rfl := h.stop_eq h'
          rw [ih h.tail h'.tail]

end Tokenizes

/-! ### The loop of the host -/

namespace Token

/-- The byte offsets between which the tokens of the line stand, looked for from `offset` on. There is none if more
than `rounds` rounds are needed, or if the line is sliced where no character starts. -/
def walk (line : Text) : (rounds offset : Nat) → Option (List (Nat × Nat))
  | 0, _ => none
  | rounds + 1, offset =>
    if line.byteOffset line.length ≤ offset then some []
    else
      (line.column? offset).bind fun col =>
        let trimmed := Text.trimStart (line.drop col)
        if trimmed.isEmpty then some []
        else
          let start := line.byteOffset line.length - Text.byteOffset trimmed trimmed.length
          let stop := start + Text.byteOffset trimmed (lengthAt trimmed)
          (walk line rounds stop).map ((start, stop) :: ·)

def bytes (line : Text) (t : Token) : Nat × Nat :=
  (line.byteOffset t.span.start, line.byteOffset t.span.stop)

theorem walk_blanks {gap front : Text} (hgap : ∀ c ∈ gap, isBlank c = true) (rounds : Nat) :
    walk (front ++ gap) (rounds + 1) (Text.byteOffset (front ++ gap) front.length) = some [] := by
  have htrim : Text.trimStart gap = [] := List.dropWhile_eq_nil_iff.mpr hgap
  have hcol : front.length ≤ (front ++ gap).length := by
    rw [List.length_append]
    exact Nat.le_add_right _ _
  rw [walk]
  split
  · rfl
  · rw [Text.column?_byteOffset hcol, Option.bind_some, List.drop_left, htrim]
    rfl

/-- A round passes the blanks and takes up one token. -/
theorem walk_token {gap token rest front : Text} (hgap : ∀ c ∈ gap, isBlank c = true) (htoken : IsToken token rest)
    (rounds : Nat) :
    let line := front ++ (gap ++ (token ++ rest))
    let start := front.length + gap.length
    walk line (rounds + 1) (line.byteOffset front.length)
      = (walk line rounds (line.byteOffset (start + token.length))).map
          ((line.byteOffset start, line.byteOffset (start + token.length)) :: ·) := by
  intro line start
  have hpos := htoken.length_pos
  have hlength : front.length < line.length := by
    simp only [line, List.length_append]
    omega
  have hdrop : line.drop front.length = gap ++ (token ++ rest) := List.drop_left
  have htrim : Text.trimStart (gap ++ (token ++ rest)) = token ++ rest := by
    refine Text.dropWhile_append_of_head hgap fun c hc => ?_
    obtain ⟨d, s, rfl, hd⟩ := htoken.head
    obtain rfl : d = c := Option.some.inj hc
    exact hd
  have hne : (token ++ rest).isEmpty = false := by
    obtain ⟨c, s, rfl, -⟩ := htoken.head
    rfl
  have hbefore : (Cursor.ofLine line).Passes (front ++ gap) ⟨start, token ++ rest⟩ :=
    Cursor.passes_ofLine_iff.mpr ⟨(List.append_assoc ..).symm, (List.length_append ..).symm⟩
  have hstart : line.byteOffset line.length - Text.byteOffset (token ++ rest) (token ++ rest).length
      = line.byteOffset start := hbefore.byteLength_sub.2
  have hstop : line.byteOffset start + Text.byteOffset (token ++ rest) token.length
      = line.byteOffset (start + token.length) := by
    rw [Text.byteOffset_left]
    exact (hbefore.byteOffset_col (.mk_append start token rest)).symm
  rw [walk, if_neg (Nat.not_le_of_lt (Text.byteOffset_lt hlength hlength)), Text.column?_byteOffset hlength.le,
    Option.bind_some, hdrop, htrim]
  dsimp only
  rw [hne, if_neg Bool.false_ne_true, htoken.lengthAt_eq, hstart, hstop]

/-- A text holds nothing but blanks, or its first token stands behind them. -/
theorem exists_gap (s : Text) : ∃ gap : Text, (∀ c ∈ gap, isBlank c = true) ∧
    (s = gap ∨ ∃ token rest, s = gap ++ (token ++ rest) ∧ IsToken token rest) := by
  induction s with
  | nil => exact ⟨[], by simp, Or.inl rfl⟩
  | cons c s ih =>
      cases hc : isBlank c with
      | true =>
          obtain ⟨gap, hgap, hs | ⟨token, rest, rfl, htoken⟩⟩ := ih
          · exact ⟨c :: gap, List.forall_mem_cons.mpr ⟨hc, hgap⟩, Or.inl (congrArg (c :: ·) hs)⟩
          · exact ⟨c :: gap, List.forall_mem_cons.mpr ⟨hc, hgap⟩, Or.inr ⟨token, rest, rfl, htoken⟩⟩
      | false =>
          obtain ⟨token, rest, heq, htoken⟩ := exists_isToken (s := s) hc
          exact ⟨[], by simp, Or.inr ⟨token, rest, heq, htoken⟩⟩

/-- Every round takes up a character at least, so the loop ends before it has gone round more often than the text
has characters. It finds the tokens of the text. -/
theorem walk_eq {front s : Text} {rounds : Nat} (h : s.length < rounds) :
    walk (front ++ s) rounds (Text.byteOffset (front ++ s) front.length)
      = some ((⟨front.length, s⟩ : Cursor).tokens.map (bytes (front ++ s))) := by
  induction rounds generalizing front s with
  | zero => exact absurd h (Nat.not_lt_zero _)
  | succ rounds ih =>
      obtain ⟨gap, hgap, rfl | ⟨token, rest, rfl, htoken⟩⟩ := exists_gap s
      · have htokens := Cursor.tokens_gap hgap front.length []
        rw [List.append_nil] at htokens
        rw [walk_blanks hgap, htokens]
        rfl
      · have hpos := htoken.length_pos
        have hrest : rest.length < rounds := by
          simp only [List.length_append] at h
          omega
        have hnext := @ih (front ++ gap ++ token) rest hrest
        simp only [List.append_assoc, List.length_append] at hnext
        rw [walk_token hgap htoken, Cursor.tokens_gap hgap, Cursor.tokens_token htoken, List.map_cons,
          Nat.add_assoc, hnext, Option.map_some, ← Nat.add_assoc]
        rfl

end Token

/-- From any place in a line, the loop of the host comes to its end. What it finds are the tokens of the line, which
leave out blanks only, between places in the line. -/
theorem walk_tokenizes {line : Text} {offset col : Nat} (h : line.column? offset = some col) :
    let spans := ((Cursor.ofLine line).advance col).tokens.map Token.span
    (∀ rounds, line.length - col < rounds → Token.walk line rounds offset
        = some (spans.map fun s => (line.byteOffset s.start, line.byteOffset s.stop))) ∧
      (∀ s ∈ spans, Span.ofBytes? line (line.byteOffset s.start) (line.byteOffset s.stop) = some s) ∧
      Tokenizes line col spans := by
  intro spans
  obtain ⟨hcol, rfl⟩ := Text.column?_eq_some_iff.mp h
  have htokenizes : Tokenizes line col spans := tokenizes_tokens hcol
  refine ⟨fun rounds hrounds => ?_, fun s hs => ?_, htokenizes⟩
  · have hlength : (line.drop col).length < rounds := by rwa [List.length_drop]
    have hwalk := @Token.walk_eq (line.take col) _ rounds hlength
    rw [List.take_append_drop, List.length_take_of_le hcol] at hwalk
    rw [hwalk, List.map_map, Cursor.advance, Cursor.ofLine, Nat.zero_add]
    rfl
  · obtain ⟨-, hspan, hstop⟩ := htokenizes.inOrder.within s hs
    exact Span.ofBytes?_byteOffset hspan hstop

/-- Behind a letter of two bytes and a blank of three, a quoted name with an escaped quote, a word that follows it at
once, and a quote that is never closed. -/
theorem walk_tokenizes_quotes :
    let line : Text := "\u00e9\u2003\"a \\\" b\"c \"d".toList
    line.column? 2 = some 1 ∧ Token.walk line 15 2 = some [(5, 13), (13, 14), (15, 17)] ∧
      Tokenizes line 1 [⟨2, 10⟩, ⟨10, 11⟩, ⟨12, 14⟩] := by
  intro line
  have hcol : line.column? 2 = some 1 := by decide
  obtain ⟨hwalk, -, htokenizes⟩ := walk_tokenizes hcol
  have hspans : ((Cursor.ofLine line).advance 1).tokens.map Token.span = [⟨2, 10⟩, ⟨10, 11⟩, ⟨12, 14⟩] := by decide
  rw [hspans] at hwalk htokenizes
  exact ⟨hcol, (hwalk 15 (by decide)).trans (by decide), htokenizes⟩

end WardleyMap
