import WardleyMap.Proofs.Edit.Unbroken
import WardleyMap.Proofs.Name.Quote

/-!
# Writing a name and reading it

A name without a backslash survives being written, except that its line breaks come back as line feeds.
`Name.unifyBreaks` is that change, and it is all there is to the round trip: what is between the
quotes unescapes to it, the quote that was added is the first one that closes, and a name that is
written bare has no line break to begin with. Since comparing names folds their blanks, the name that
is read still agrees with the one that was written.
-/

namespace WardleyMap

namespace Name

/-- The name with each line break, a carriage return with or without a line feed, as a line feed. -/
def unifyBreaks : Text → Text
  | [] => []
  | '\r' :: '\n' :: s => '\n' :: unifyBreaks s
  | '\r' :: s => '\n' :: unifyBreaks s
  | c :: s => c :: unifyBreaks s

theorem unifyBreaks_cons {c : Char} (h : c ≠ '\r') (s : Text) :
    unifyBreaks (c :: s) = c :: unifyBreaks s := by
  rw [unifyBreaks]
  · rintro s' rfl
    exact absurd rfl h
  · exact h

theorem unifyBreaks_of_not_mem {s : Text} (h : '\r' ∉ s) : unifyBreaks s = s := by
  induction s with
  | nil => rfl
  | cons c s ih =>
      rw [List.mem_cons, not_or] at h
      rw [unifyBreaks_cons (Ne.symm h.1), ih h.2]

/-! ### The round trip -/

theorem unescape_cons {c : Char} (h : c ≠ '\\') (s : Text) :
    unescape (c :: s) = c :: unescape s := by
  rw [unescape]
  · rintro s' rfl
    exact absurd rfl h
  · rintro s' rfl
    exact absurd rfl h

/-- A name without a backslash is escaped so that it can be read back, and so that no quote in it
closes it. -/
theorem unescape_escape {name : Text} (h : '\\' ∉ name) :
    unescape (escape name) = unifyBreaks name ∧
      closingQuote? (escape name ++ ['"']) = some (escape name).length := by
  induction name using escape.induct with
  | case1 => exact ⟨rfl, rfl⟩
  | case2 s ih =>
      obtain ⟨hread, hclosed⟩ := ih fun hmem => h (List.mem_cons_of_mem _ hmem)
      rw [escape, unifyBreaks_cons (by decide), List.cons_append, List.cons_append, closingQuote?,
        hclosed]
      exact ⟨congrArg ('"' :: ·) hread, rfl⟩
  | case3 s ih =>
      obtain ⟨hread, hclosed⟩ := ih fun hmem => h (List.mem_cons_of_mem _ hmem)
      rw [escape, unifyBreaks_cons (by decide), List.cons_append, List.cons_append, closingQuote?,
        hclosed]
      exact ⟨congrArg ('\n' :: ·) hread, rfl⟩
  | case4 s ih =>
      obtain ⟨hread, hclosed⟩ := ih fun hmem =>
        h (List.mem_cons_of_mem _ (List.mem_cons_of_mem _ hmem))
      rw [escape, unifyBreaks, List.cons_append, List.cons_append, closingQuote?, hclosed]
      exact ⟨congrArg ('\n' :: ·) hread, rfl⟩
  | case5 s hfeed ih =>
      obtain ⟨hread, hclosed⟩ := ih fun hmem => h (List.mem_cons_of_mem _ hmem)
      rw [escape.eq_5 s hfeed, unifyBreaks.eq_3 s hfeed, List.cons_append, List.cons_append,
        closingQuote?, hclosed]
      exact ⟨congrArg ('\n' :: ·) hread, rfl⟩
  | case6 c s hquote hfeed hreturnFeed hreturn ih =>
      rw [List.mem_cons, not_or] at h
      obtain ⟨hread, hclosed⟩ := ih h.2
      rw [escape.eq_6 c s hquote hfeed hreturnFeed hreturn, unifyBreaks_cons hreturn,
        unescape_cons (Ne.symm h.1), hread, List.cons_append, closingQuote?_cons hquote (Ne.symm h.1),
        hclosed]
      exact ⟨rfl, rfl⟩

theorem isQuoted_encode {name : Text} (hname : '\\' ∉ name) (h : needsQuoting name = true) :
    IsQuoted (encode name) ∧ decode (encode name) = unifyBreaks name := by
  obtain ⟨hread, hclosed⟩ := unescape_escape hname
  rw [encode, if_pos h]
  refine ⟨?_, ?_⟩
  · rw [IsQuoted, quotedLength?, hclosed]
    simp
  · rw [decode, hclosed]
    simp only [List.take_left, hread]

structure IsBare (name : Text) : Prop where
  no_forcing : ∀ c ∈ name, forcesQuotes c = false
  no_arrow : name.find? arrow = none
  head : ∀ c ∈ name.head?, isBlank c = false
  last : ∀ c ∈ name.getLast?, isBlank c = false

theorem isBare_iff {name : Text} : needsQuoting name = false ↔ IsBare name := by
  have hany : ∀ o : Option Char, o.any isBlank = false ↔ ∀ c ∈ o, isBlank c = false := by
    intro o
    cases o <;> simp
  simp only [needsQuoting, Bool.or_eq_false_iff, List.any_eq_false, Bool.not_eq_true,
    Option.isSome_eq_false_iff, Option.isNone_iff_eq_none, hany]
  exact ⟨fun h => ⟨h.1.1.1, h.1.1.2, h.1.2, h.2⟩, fun h => ⟨⟨⟨h.no_forcing, h.no_arrow⟩, h.head⟩, h.last⟩⟩

namespace IsBare

variable {name : Text}

theorem not_mem (h : IsBare name) {c : Char} (hc : forcesQuotes c = true) : c ∉ name := by
  intro hmem
  rw [h.no_forcing c hmem] at hc
  exact absurd hc (by decide)

theorem isAllBlank_eq_false (h : IsBare name) (hne : name ≠ []) : name.isAllBlank = false := by
  obtain ⟨c, s, rfl⟩ := List.exists_cons_of_ne_nil hne
  have hc := h.head c rfl
  simp [Text.isAllBlank, hc]

theorem head_append (h : IsBare name) (hne : name ≠ []) (rest : Text) :
    ∀ ch ∈ (name ++ rest).head?, isBlank ch = false := by
  intro ch hch
  obtain ⟨c, s, rfl⟩ := List.exists_cons_of_ne_nil hne
  exact h.head ch hch

theorem encode_eq (h : IsBare name) : encode name = name := by
  rw [encode, isBare_iff.mpr h]
  rfl

end IsBare

/-! ### Comparing names -/

theorem expandBreaks_of_not_mem {s : Text} (h : '\\' ∉ s) : expandBreaks s = s := by
  induction s with
  | nil => rfl
  | cons c s ih =>
      rw [List.mem_cons, not_or] at h
      rw [expandBreaks, ih h.2]
      rintro s' rfl
      exact absurd rfl h.1

theorem not_mem_unifyBreaks {s : Text} {c : Char} (hfeed : c ≠ '\n') (h : c ∉ s) :
    c ∉ unifyBreaks s := by
  induction s using unifyBreaks.induct with
  | case1 => exact h
  | case2 s ih =>
      simp only [List.mem_cons, not_or] at h
      rw [unifyBreaks, List.mem_cons, not_or]
      exact ⟨hfeed, ih h.2.2⟩
  | case3 s hs ih =>
      rw [List.mem_cons, not_or] at h
      rw [unifyBreaks.eq_3 s hs, List.mem_cons, not_or]
      exact ⟨hfeed, ih h.2⟩
  | case4 d s _ hd ih =>
      rw [List.mem_cons, not_or] at h
      rw [unifyBreaks_cons hd, List.mem_cons, not_or]
      exact ⟨h.1, ih h.2⟩

end Name

namespace Text

/-- Two texts have the same words, and the same first piece, which may be part of a longer word. -/
structure SameWords (s t : Text) : Prop where
  head : (s.split isBlank).head? = (t.split isBlank).head?
  tail : (s.split isBlank).tail.filter (!·.isEmpty) = (t.split isBlank).tail.filter (!·.isEmpty)

namespace SameWords

variable {s t : Text}

theorem refl (s : Text) : SameWords s s := ⟨rfl, rfl⟩

theorem symm (h : SameWords s t) : SameWords t s := ⟨h.head.symm, h.tail.symm⟩

theorem words_eq (h : SameWords s t) : s.words = t.words := by
  obtain ⟨piece, pieces, hs⟩ := exists_split_eq_cons isBlank s
  obtain ⟨piece', pieces', ht⟩ := exists_split_eq_cons isBlank t
  obtain ⟨hhead, htail⟩ := h
  rw [hs, ht] at hhead htail
  obtain rfl : piece = piece' := by simpa using hhead
  rw [words, words, hs, ht, List.filter_cons, List.filter_cons]
  simp only [List.tail_cons] at htail
  rw [htail]

/-- It does not matter which blank stands somewhere, nor whether another one follows it. -/
theorem blank (h : SameWords s t) {c d : Char} (hc : isBlank c = true) (hd : isBlank d = true) :
    SameWords (c :: s) (d :: t) := by
  refine ⟨?_, ?_⟩
  · rw [split_cons_of_pos hc, split_cons_of_pos hd, List.head?_cons, List.head?_cons]
  · rw [split_cons_of_pos hc, split_cons_of_pos hd]
    exact h.words_eq

theorem blank_blank (h : SameWords s t) {c c' d : Char} (hc : isBlank c = true)
    (hc' : isBlank c' = true) (hd : isBlank d = true) : SameWords (c :: c' :: s) (d :: t) := by
  refine ⟨?_, ?_⟩
  · rw [split_cons_of_pos hc, split_cons_of_pos hd, List.head?_cons, List.head?_cons]
  · rw [split_cons_of_pos hc, split_cons_of_pos hd, List.tail_cons, List.tail_cons,
      split_cons_of_pos hc', List.filter_cons_of_neg (by simp)]
    exact h.words_eq

/-- A character put in front of both texts keeps their words the same. -/
theorem cons (h : SameWords s t) (c : Char) : SameWords (c :: s) (c :: t) := by
  by_cases hc : isBlank c = true
  · exact h.blank hc hc
  · obtain ⟨piece, pieces, hs⟩ := exists_split_eq_cons isBlank s
    obtain ⟨piece', pieces', ht⟩ := exists_split_eq_cons isBlank t
    obtain ⟨hhead, htail⟩ := h
    rw [hs, ht] at hhead htail
    obtain rfl : piece = piece' := by simpa using hhead
    refine ⟨?_, ?_⟩
    · rw [split, if_neg hc, split, if_neg hc, hs, ht]
      rfl
    · rw [split, if_neg hc, split, if_neg hc, hs, ht]
      exact htail

end SameWords

end Text

namespace Name

/-- Turning line breaks into line feeds leaves the words as they are, as every break is a blank. -/
theorem sameWords_unifyBreaks (s : Text) : Text.SameWords (unifyBreaks s) s := by
  have hreturn : isBlank '\r' = true := by decide
  have hfeed : isBlank '\n' = true := by decide
  induction s using unifyBreaks.induct with
  | case1 => exact .refl []
  | case2 s ih =>
      rw [unifyBreaks]
      exact (ih.symm.blank_blank hreturn hfeed hfeed).symm
  | case3 s hs ih =>
      rw [unifyBreaks.eq_3 s hs]
      exact ih.blank hfeed hreturn
  | case4 c s _ hc ih =>
      rw [unifyBreaks_cons hc]
      exact ih.cons c

/-- The name that is read back goes by the name that was written. -/
theorem agrees_unifyBreaks {name : Text} (h : '\\' ∉ name) :
    agrees (unifyBreaks name) name = true := by
  have hunified : '\\' ∉ unifyBreaks name := not_mem_unifyBreaks (by decide) h
  rw [agrees, beq_iff_eq, normalize, normalize, expandBreaks_of_not_mem h,
    expandBreaks_of_not_mem hunified, Text.fold, Text.fold, (sameWords_unifyBreaks name).words_eq]

end Name

end WardleyMap
