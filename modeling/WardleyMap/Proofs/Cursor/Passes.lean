import Mathlib.Data.Option.Basic
import WardleyMap.Proofs.Text.Trim

/-!
# What a reader passes

Every reader takes a cursor to a later one, and what it did is the text between them. Stated with
`Cursor.Passes`, the success of a reader is a statement about the line alone: the line goes on with
a text of a certain form, and the reader stops behind it. Since the stopping place is determined by
the text passed, such statements compose, and a line that has been changed elsewhere is read again
by citing them in the other direction.
-/

namespace WardleyMap

namespace Cursor

/-- `c'` is the place reached from `c` by passing `text`. -/
structure Passes (c : Cursor) (text : Text) (c' : Cursor) : Prop where
  rest : c.rest = text ++ c'.rest
  col : c'.col = c.col + text.length

namespace Passes

variable {c c' c'' : Cursor} {s t : Text}

theorem refl (c : Cursor) : Passes c [] c := ⟨rfl, rfl⟩

theorem trans (h : Passes c s c') (h' : Passes c' t c'') : Passes c (s ++ t) c'' := by
  refine ⟨?_, ?_⟩
  · rw [h.rest, h'.rest, List.append_assoc]
  · rw [h'.col, h.col, List.length_append, Nat.add_assoc]

theorem mk_append (col : Nat) (s t : Text) : Passes ⟨col, s ++ t⟩ s ⟨col + s.length, t⟩ := ⟨rfl, rfl⟩

theorem right_unique (h : Passes c s c') (h' : Passes c s c'') : c' = c'' := by
  have hrest : c'.rest = c''.rest := List.append_cancel_left (h.rest.symm.trans h'.rest)
  have hcol : c'.col = c''.col := h.col.trans h'.col.symm
  cases c'
  cases c''
  simp_all

theorem advance_eq (h : Passes c s c') : c.advance s.length = c' := by
  refine right_unique (c := c) (s := s) ⟨?_, rfl⟩ h
  simp [advance, h.rest]

theorem seek_eq (h : Passes c s c') : c.seek c'.col = c' := by
  rw [seek, h.col, Nat.add_sub_cancel_left, h.advance_eq]

theorem clip_eq (h : Passes c s c') : c.clip c'.col = ⟨c.col, s⟩ := by
  rw [clip, h.col, Nat.add_sub_cancel_left, h.rest, List.take_left]

end Passes

variable {c c' : Cursor}

theorem passes_advance (c : Cursor) {n : Nat} (hn : n ≤ c.rest.length) :
    Passes c (c.rest.take n) (c.advance n) := by
  refine ⟨(List.take_append_drop n c.rest).symm, ?_⟩
  rw [List.length_take, Nat.min_eq_left hn]
  rfl

theorem passes_ofLine_iff {line before : Text} :
    Passes (ofLine line) before c ↔ line = before ++ c.rest ∧ c.col = before.length := by
  constructor
  · rintro ⟨hrest, hcol⟩
    exact ⟨hrest, by simpa [ofLine] using hcol⟩
  · rintro ⟨hrest, hcol⟩
    exact ⟨hrest, by simpa [ofLine] using hcol⟩

/-! ### Spaces, characters and words -/

theorem passes_skipSpaces (c : Cursor) : Passes c (c.rest.takeWhile isSpace) c.skipSpaces := by
  have h := passes_advance c (List.takeWhile_prefix isSpace (l := c.rest)).length_le
  rwa [← List.prefix_iff_eq_take.mp (List.takeWhile_prefix isSpace)] at h

theorem skipSpaces_rest (c : Cursor) : c.skipSpaces.rest = c.rest.dropWhile isSpace := by
  have h := (passes_skipSpaces c).rest.symm
  exact List.append_cancel_left (h.trans List.takeWhile_append_dropWhile.symm)

theorem exists_skipSpaces (c : Cursor) : ∃ gap : Text, (∀ ch ∈ gap, isSpace ch = true) ∧
    Passes c gap c.skipSpaces ∧ ∀ ch ∈ c.skipSpaces.rest.head?, isSpace ch = false := by
  refine ⟨_, fun ch hch => List.mem_takeWhile_imp hch, passes_skipSpaces c, ?_⟩
  rw [skipSpaces_rest]
  exact Text.head?_dropWhile

theorem skipSpaces_eq {gap : Text} (h : Passes c gap c') (hgap : ∀ ch ∈ gap, isSpace ch = true)
    (hstop : ∀ ch ∈ c'.rest.head?, isSpace ch = false) : c.skipSpaces = c' := by
  have hpassed : c.rest.takeWhile isSpace = gap := by
    rw [h.rest, Text.takeWhile_append_of_head hgap hstop]
  exact (hpassed ▸ passes_skipSpaces c).right_unique h

/-- A character is accepted exactly where it is the next one. -/
theorem accept?_eq_some_iff {ch : Char} : c.accept? ch = some c' ↔ Passes c [ch] c' := by
  unfold accept?
  constructor
  · intro h
    split at h
    · next hhead =>
        obtain ⟨tail, htail⟩ := List.head?_eq_some_iff.mp hhead
        obtain rfl : c.advance 1 = c' := by simpa using h
        exact ⟨by simp [advance, htail], rfl⟩
    · simp at h
  · intro h
    rw [if_pos (by simp [h.rest])]
    exact congrArg some h.advance_eq

theorem acceptText?_eq_some_iff {word : Text} :
    c.acceptText? word = some c' ↔ Passes c word c' := by
  unfold acceptText?
  constructor
  · intro h
    split at h
    · next hprefix =>
        obtain ⟨tail, htail⟩ := List.isPrefixOf_iff_prefix.mp hprefix
        obtain rfl : c.advance word.length = c' := by simpa using h
        exact ⟨by simp [advance, ← htail], rfl⟩
    · simp at h
  · intro h
    rw [if_pos (List.isPrefixOf_iff_prefix.mpr ⟨c'.rest, h.rest.symm⟩)]
    exact congrArg some h.advance_eq

theorem keyword?_eq_some_iff {word : Text} :
    c.keyword? word = some c' ↔ Passes c word c' ∧ c'.atBoundary = true := by
  unfold keyword?
  simp only [Option.bind_eq_bind, Option.bind_eq_some_iff, acceptText?_eq_some_iff,
    Option.guard_eq_some', Option.pure_def, Option.some.injEq]
  constructor
  · rintro ⟨_, hpass, _, hboundary, rfl⟩
    exact ⟨hpass, hboundary⟩
  · rintro ⟨hpass, hboundary⟩
    exact ⟨c', hpass, (), hboundary, rfl⟩

end Cursor

end WardleyMap
