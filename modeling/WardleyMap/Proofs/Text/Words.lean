import Mathlib.Data.List.Basic
import WardleyMap.Proofs.Document.Lines

/-!
# Words

Folding a text sets its words side by side, and its words are what it is made of but for blanks. So a text
and its folded form have the same words, a stretch without a blank stands in both or in neither, and
folding once more changes nothing. Lowering ASCII letters makes no blank and takes none away, which is why
it does not matter whether a text is lowered before it is folded or after.
-/

namespace WardleyMap

namespace Text

variable {s t word : Text} {c : Char}

/-! ### Cutting at blanks -/

theorem ne_nil_of_mem_words (h : word ∈ s.words) : word ≠ [] := by
  simpa using (List.mem_filter.mp h).2

theorem not_isBlank_of_mem_words (h : word ∈ s.words) : ∀ c ∈ word, isBlank c = false :=
  fun c hc => (mem_of_mem_split (List.mem_filter.mp h).1 c hc).2

theorem words_cons_of_isBlank (hc : isBlank c = true) (s : Text) : words (c :: s) = words s := by
  rw [words, split_cons_of_pos hc, List.filter_cons_of_neg (by simp)]
  rfl

theorem words_append_of_isAllBlank {gap : Text} (h : gap.isAllBlank = true) (s : Text) :
    words (gap ++ s) = words s := by
  induction gap with
  | nil => rfl
  | cons c gap ih =>
      obtain ⟨hc, hgap⟩ : isBlank c = true ∧ isAllBlank gap = true := by simpa [isAllBlank] using h
      rw [List.cons_append, words_cons_of_isBlank hc, ih hgap]

/-- The first piece of a text is all that stands before its first blank. -/
theorem head?_split (s : Text) : (s.split isBlank).head? = some (s.takeWhile (!isBlank ·)) := by
  induction s with
  | nil => rfl
  | cons c s ih =>
      by_cases hc : isBlank c = true
      · rw [split_cons_of_pos hc, List.takeWhile_cons_of_neg (by simp [hc])]
        rfl
      · obtain ⟨piece, pieces, hs⟩ := exists_split_eq_cons isBlank s
        rw [hs] at ih
        rw [split_cons_of_neg hc, hs, List.takeWhile_cons_of_pos (by simpa using hc),
          ← Option.some.inj ih]
        rfl

/-- A text without a blank is one piece with whatever follows it up to the next blank. -/
theorem split_append_of_not_isBlank (h : ∀ c ∈ word, isBlank c = false) (s : Text) :
    split isBlank (word ++ s) = (split isBlank s).modifyHead (word ++ ·) := by
  induction word with
  | nil =>
      obtain ⟨piece, pieces, hs⟩ := exists_split_eq_cons isBlank s
      rw [List.nil_append, hs]
      rfl
  | cons c word ih =>
      have hc : ¬isBlank c = true := by simp [h c List.mem_cons_self]
      obtain ⟨piece, pieces, hs⟩ := exists_split_eq_cons isBlank s
      rw [List.cons_append, split_cons_of_neg hc, ih fun d hd => h d (List.mem_cons_of_mem _ hd), hs]
      rfl

/-! ### Words side by side -/

/-- Words without blanks are found again when they are set side by side. -/
theorem words_unwords {ws : List Text} (h : ∀ word ∈ ws, word ≠ [] ∧ ∀ c ∈ word, isBlank c = false) :
    (unwords ws).words = ws := by
  induction ws with
  | nil => rfl
  | cons word ws ih =>
      obtain ⟨hne, hword⟩ := h word List.mem_cons_self
      have hkept : (!word.isEmpty) = true := by simpa using hne
      cases ws with
      | nil =>
          have hsplit := split_append_of_not_isBlank hword []
          rw [List.append_nil] at hsplit
          rw [unwords, List.intercalate_singleton, words, hsplit]
          simp [split, hne]
      | cons next ws =>
          have hrest := ih fun other hother => h other (List.mem_cons_of_mem _ hother)
          have htext : unwords (word :: next :: ws) = word ++ ' ' :: unwords (next :: ws) := by
            simp [unwords, List.intercalate_cons_cons]
          rw [htext, words, split_append_of_not_isBlank hword, split_cons_of_pos (by decide),
            List.modifyHead_cons, List.append_nil, List.filter_cons, if_pos hkept]
          exact congrArg (word :: ·) hrest

theorem words_fold (s : Text) : s.fold.words = s.words :=
  words_unwords fun _ hword => ⟨ne_nil_of_mem_words hword, not_isBlank_of_mem_words hword⟩

theorem fold_fold (s : Text) : s.fold.fold = s.fold := by
  rw [fold, words_fold, ← fold]

/-- Folding loses nothing but blanks. -/
theorem filter_fold (s : Text) : s.fold.filter (!isBlank ·) = s.filter (!isBlank ·) := by
  rw [← flatten_split, ← flatten_split, ← List.flatten_filter_not_isEmpty, ← words, words_fold, words,
    List.flatten_filter_not_isEmpty]

theorem count_fold (hc : isBlank c = false) (s : Text) : s.fold.count c = s.count c := by
  have hkept : (!isBlank c) = true := by simp [hc]
  rw [← List.count_filter (p := (!isBlank ·)) hkept, filter_fold, List.count_filter (p := (!isBlank ·)) hkept]

/-! ### Stretches without a blank -/

theorem prefix_takeWhile_iff (h : ∀ c ∈ word, isBlank c = false) :
    word <+: s.takeWhile (!isBlank ·) ↔ word <+: s := by
  refine ⟨fun hword => hword.trans (List.takeWhile_prefix _), ?_⟩
  rintro ⟨rest, rfl⟩
  rw [List.takeWhile_append_of_pos fun c hc => by simp [h c hc]]
  exact List.prefix_append _ _

/-- A word stands in a text exactly if it stands in one of the pieces between its blanks. -/
theorem infix_iff_exists_split (hne : word ≠ []) (h : ∀ c ∈ word, isBlank c = false) :
    word <:+: s ↔ ∃ piece ∈ s.split isBlank, word <:+: piece := by
  induction s with
  | nil => simp [split, hne]
  | cons c s ih =>
      rw [List.infix_cons_iff, ih]
      by_cases hc : isBlank c = true
      · -- the stretch cannot start with the blank
        have hnot : ¬word <+: c :: s := by
          rintro ⟨rest, hrest⟩
          obtain ⟨d, word, rfl⟩ := List.exists_cons_of_ne_nil hne
          obtain rfl : d = c := List.head_eq_of_cons_eq hrest
          rw [h d List.mem_cons_self] at hc
          exact absurd hc (by decide)
        rw [split_cons_of_pos hc, List.exists_mem_cons_iff, or_iff_right hnot, or_iff_right]
        exact fun hnil => hne (List.infix_nil.mp hnil)
      · obtain ⟨piece, pieces, hs⟩ := exists_split_eq_cons isBlank s
        obtain rfl : piece = s.takeWhile (!isBlank ·) := by
          have hhead := head?_split s
          rw [hs] at hhead
          exact Option.some.inj hhead
        rw [split_cons_of_neg hc, hs, List.modifyHead_cons, List.exists_mem_cons_iff,
          List.exists_mem_cons_iff, List.infix_cons_iff, ← or_assoc, ← prefix_takeWhile_iff h,
          List.takeWhile_cons_of_pos (by simpa using hc)]

theorem infix_iff_exists_words (hne : word ≠ []) (h : ∀ c ∈ word, isBlank c = false) :
    word <:+: s ↔ ∃ other ∈ s.words, word <:+: other := by
  rw [infix_iff_exists_split hne h]
  constructor
  · rintro ⟨piece, hpiece, hinfix⟩
    refine ⟨piece, List.mem_filter.mpr ⟨hpiece, ?_⟩, hinfix⟩
    cases piece with
    | nil => exact absurd (List.infix_nil.mp hinfix) hne
    | cons c piece => rfl
  · rintro ⟨other, hother, hinfix⟩
    exact ⟨other, (List.mem_filter.mp hother).1, hinfix⟩

/-- Folding neither joins nor parts what has no blank in it. -/
theorem infix_fold_iff (hne : word ≠ []) (h : ∀ c ∈ word, isBlank c = false) :
    word <:+: s.fold ↔ word <:+: s := by
  rw [infix_iff_exists_words hne h, words_fold, ← infix_iff_exists_words hne h]

/-! ### Lowered letters -/

/-- Only the letters from `A` to `Z` are lowered, and by a fixed distance. -/
theorem toLower_cases (c : Char) : c.toLower = c ∨
    (65 ≤ c.toNat ∧ c.toNat ≤ 90 ∧ c.toLower.toNat = c.toNat + 32) := by
  unfold Char.toLower
  split
  · next hupper =>
      have hlow : 65 ≤ c.toNat := UInt32.le_iff_toNat_le.mp hupper.1
      have hhigh : c.toNat ≤ 90 := UInt32.le_iff_toNat_le.mp hupper.2
      refine Or.inr ⟨hlow, hhigh, ?_⟩
      change (c.val + 32).toNat = c.val.toNat + 32
      rw [UInt32.toNat_add, Nat.mod_eq_of_lt]
      · rfl
      · change c.val.toNat + 32 < 2 ^ 32
        change c.val.toNat ≤ 90 at hhigh
        omega
  · exact Or.inl rfl

theorem toLower_toLower (c : Char) : c.toLower.toLower = c.toLower := by
  rcases toLower_cases c with hsame | ⟨hlow, hhigh, hlowered⟩
  · rw [hsame, hsame]
  · refine (toLower_cases c.toLower).resolve_right ?_
    omega

theorem isBlank_toLower (c : Char) : isBlank c.toLower = isBlank c := by
  rcases toLower_cases c with hsame | ⟨hlow, hhigh, hlowered⟩
  · rw [hsame]
  · rw [Bool.eq_iff_iff]
    simp only [isBlank, hlowered, Bool.or_eq_true, Bool.and_eq_true, decide_eq_true_eq, beq_iff_eq]
    omega

theorem isAllBlank_map_toLower : isAllBlank (s.map Char.toLower) = isAllBlank s := by
  rw [isAllBlank, List.all_map, isAllBlank]
  exact congrArg s.all (funext isBlank_toLower)

theorem toLower_eq_backslash_iff : c.toLower = '\\' ↔ c = '\\' := by
  rcases toLower_cases c with hsame | ⟨hlow, hhigh, hlowered⟩
  · rw [hsame]
  · rw [← Char.toNat_inj, ← Char.toNat_inj, hlowered, show '\\'.toNat = 92 from rfl]
    omega

theorem toLower_eq_n_iff : c.toLower = 'n' ↔ c = 'n' ∨ c = 'N' := by
  rcases toLower_cases c with hsame | ⟨hlow, hhigh, hlowered⟩
  · rw [hsame, or_iff_left]
    rintro rfl
    exact absurd hsame (by decide)
  · rw [← Char.toNat_inj, ← Char.toNat_inj, ← Char.toNat_inj, hlowered, show 'n'.toNat = 110 from rfl,
      show 'N'.toNat = 78 from rfl]
    omega

/-- Lowering letters neither makes nor removes blanks, so the words stay apart as they were. -/
theorem words_map_toLower (s : Text) :
    words (s.map Char.toLower) = s.words.map (·.map Char.toLower) := by
  have hsplit : split isBlank (s.map Char.toLower) = (s.split isBlank).map (·.map Char.toLower) := by
    induction s with
    | nil => rfl
    | cons c s ih =>
        obtain ⟨piece, pieces, hs⟩ := exists_split_eq_cons isBlank s
        by_cases hc : isBlank c = true
        · rw [List.map_cons, split_cons_of_pos ((isBlank_toLower c).trans hc), split_cons_of_pos hc, ih]
          rfl
        · rw [List.map_cons, split_cons_of_neg (by rwa [isBlank_toLower]), split_cons_of_neg hc, ih, hs]
          rfl
  rw [words, hsplit, words, List.filter_map]
  congr 2
  funext piece
  simp

theorem map_unwords (ws : List Text) :
    (unwords ws).map Char.toLower = unwords (ws.map (·.map Char.toLower)) := by
  induction ws with
  | nil => rfl
  | cons word ws ih =>
      cases ws with
      | nil => simp [unwords]
      | cons next ws =>
          simp only [unwords, List.map_cons, List.intercalate_cons_cons, List.map_append] at ih ⊢
          rw [ih]
          rfl

theorem fold_map_toLower (s : Text) : fold (s.map Char.toLower) = s.fold.map Char.toLower := by
  rw [fold, words_map_toLower, ← map_unwords, fold]

end Text

end WardleyMap
